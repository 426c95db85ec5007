import Reprieve.Yaml.Read

/-! What stands at the root of a YAML text. Its first tokens decide that, and from most roots no
record can be read: from a list, from a scalar that says something, and from a mapping whose
first key is a list. -/
namespace Reprieve.Yaml

/-! ### Steps of the composer -/

namespace Composer

variable {s t : Compose} {u : Token} {ts : List Token} {n : Node}

theorem run_bind_eq_some_iff {α β : Type} {x : Composer α} {f : α → Composer β} {b : β} :
    (x >>= f).run s = some (b, t) ↔
      ∃ a s', x.run s = some (a, s') ∧ (f a).run s' = some (b, t) := by
  simp [StateT.run_bind, Option.bind_eq_some_iff]

theorem run_peek (hs : s.tokens = u :: ts) : peek.run s = some (u, s) := by
  simp [peek, hs]

theorem run_take_self (hs : s.tokens = u :: ts) :
    (take u).run s = some (true, { s with tokens := ts }) := by
  simp [take, peek, skip, hs]

theorem run_take_other (hs : s.tokens = u :: ts) {v : Token} (hu : u ≠ v) :
    (take v).run s = some (false, s) := by
  simp [take, peek, hs, hu]

/-! ### Nodes by their first token -/

variable {block bare : Bool} {fuel : Nat}

theorem fuel_of_run_node (h : (node block bare fuel).run s = some (n, t)) : ∃ k, fuel = k + 1 := by
  cases fuel with
  | zero =>
    rw [node] at h
    cases h
  | succ k => exact ⟨k, rfl⟩

/-- A token that begins a node of its own: no alias, and neither an anchor nor a tag. -/
def isOwn : Token → Bool
  | .alias _ | .anchor _ | .tag _ _ => false
  | _ => true

theorem run_properties (hs : s.tokens = u :: ts) (hu : isOwn u = true) :
    properties.run s = some ({}, s) := by
  rw [properties, StateT.run_bind, run_peek hs]
  cases u <;> first | rfl | cases hu

theorem run_collection {wrap : Composer Node}
    (h : (do skip; let m ← mark none; grow 2; let n ← wrap; record m n; return n
        : Composer Node).run s = some (n, t)) :
    ∃ s', s'.tokens = s.tokens.tail ∧ wrap.run s' = some (n, t) := by
  obtain ⟨_, _, hskip, h⟩ := run_bind_eq_some_iff.1 h
  cases hskip
  obtain ⟨_, _, hmark, h⟩ := run_bind_eq_some_iff.1 h
  cases hmark
  obtain ⟨_, _, hgrow, h⟩ := run_bind_eq_some_iff.1 h
  cases hgrow
  obtain ⟨_, _, hwrap, h⟩ := run_bind_eq_some_iff.1 h
  cases h
  exact ⟨_, rfl, hwrap⟩

theorem run_node (hs : s.tokens = u :: ts) (hu : isOwn u = true)
    (h : (node block bare fuel).run s = some (n, t)) :
    match u with
    | .scalar style text => n = .scalar none style (.ofList text) ∧ t.tokens = ts
    | .flowList => ∃ items, n = .list none items
    | .blockList => block = true → ∃ items, n = .list none items
    | .blockMapping => block = true → ∃ k s' entries, s'.tokens = ts ∧
        (blockEntries k).run s' = some (entries, t) ∧ n = .mapping none entries
    | .key => False
    | _ => True := by
  obtain ⟨k, rfl⟩ := fuel_of_run_node h
  rw [node] at h
  obtain ⟨_, _, hpeek, h⟩ := run_bind_eq_some_iff.1 h
  rw [run_peek hs] at hpeek
  cases hpeek
  split at h
  · cases hu
  obtain ⟨_, _, hp, h⟩ := run_bind_eq_some_iff.1 h
  rw [run_properties hs hu] at hp
  cases hp
  obtain ⟨_, _, htag, h⟩ := run_bind_eq_some_iff.1 h
  cases htag
  obtain ⟨_, _, hpeek, h⟩ := run_bind_eq_some_iff.1 h
  rw [run_peek hs] at hpeek
  cases hpeek
  cases u with
  | scalar style text =>
    cases h
    exact ⟨rfl, congrArg List.tail hs⟩
  | flowList =>
    obtain ⟨s', -, h⟩ := run_collection h
    obtain ⟨items, _, -, h⟩ := run_bind_eq_some_iff.1 h
    cases h
    exact ⟨items, rfl⟩
  | blockList =>
    rintro rfl
    obtain ⟨s', -, h⟩ := run_collection h
    obtain ⟨items, _, -, h⟩ := run_bind_eq_some_iff.1 h
    cases h
    exact ⟨items, rfl⟩
  | blockMapping =>
    rintro rfl
    obtain ⟨s', htokens, h⟩ := run_collection h
    obtain ⟨entries, _, hentries, h⟩ := run_bind_eq_some_iff.1 h
    cases h
    exact ⟨k, s', entries, htokens.trans (congrArg List.tail hs), hentries, rfl⟩
  | key => cases h
  | _ => trivial

theorem run_node_scalar {style : Style} {text : List Char}
    (hs : s.tokens = .scalar style text :: ts) (h : (node block bare fuel).run s = some (n, t)) :
    n = .scalar none style (.ofList text) ∧ t.tokens = ts :=
  run_node hs rfl h

theorem run_node_flowList (hs : s.tokens = .flowList :: ts)
    (h : (node block bare fuel).run s = some (n, t)) : ∃ items, n = .list none items :=
  run_node hs rfl h

theorem run_node_blockList (hs : s.tokens = .blockList :: ts)
    (h : (node true bare fuel).run s = some (n, t)) : ∃ items, n = .list none items :=
  run_node hs rfl h rfl

theorem run_node_blockMapping (hs : s.tokens = .blockMapping :: ts)
    (h : (node true bare fuel).run s = some (n, t)) :
    ∃ k s' entries, s'.tokens = ts ∧ (blockEntries k).run s' = some (entries, t) ∧
      n = .mapping none entries :=
  run_node hs rfl h rfl

theorem run_node_key (hs : s.tokens = .key :: ts) :
    (node block bare fuel).run s ≠ some (n, t) := fun h =>
  run_node hs rfl h

/-! ### Block mappings -/

variable {entries : List (Node × Node)}

theorem fuel_of_run_blockEntries (h : (blockEntries fuel).run s = some (entries, t)) :
    ∃ k, fuel = k + 1 := by
  cases fuel with
  | zero =>
    rw [blockEntries] at h
    cases h
  | succ k => exact ⟨k, rfl⟩

/-- The first key of a block mapping, when something is written there. What follows it is left
to the entries behind if it is no mark of a value. -/
theorem run_blockEntries_key (hs : s.tokens = .key :: u :: ts) (hu : isBlockSibling u = false)
    (h : (blockEntries fuel).run s = some (entries, t)) :
    ∃ k key value rest s₁ s₂ s₃, entries = (key, value) :: rest ∧
      s₁.tokens = u :: ts ∧ (node true true k).run s₁ = some (key, s₂) ∧
      (∀ v vs, s₂.tokens = v :: vs → v ≠ .value → s₃.tokens = v :: vs) ∧
      (blockEntries k).run s₃ = some (rest, t) := by
  obtain ⟨k, rfl⟩ := fuel_of_run_blockEntries h
  rw [blockEntries] at h
  obtain ⟨_, _, hend, h⟩ := run_bind_eq_some_iff.1 h
  rw [run_take_other hs (by decide)] at hend
  cases hend
  obtain ⟨_, _, hkey, h⟩ := run_bind_eq_some_iff.1 h
  rw [run_take_self hs] at hkey
  cases hkey
  obtain ⟨_, _, hpeek, h⟩ := run_bind_eq_some_iff.1 h
  rw [run_peek rfl] at hpeek
  cases hpeek
  simp only [hu, Bool.false_eq_true, if_false] at h
  obtain ⟨key, s₂, hnode, h⟩ := run_bind_eq_some_iff.1 h
  obtain ⟨taken, _, htake, h⟩ := run_bind_eq_some_iff.1 h
  have hrest : ∃ value s₃, (∀ v vs, s₂.tokens = v :: vs → v ≠ .value → s₃.tokens = v :: vs) ∧
      (do return (key, value) :: (← blockEntries k) : Composer _).run s₃ = some (entries, t) := by
    cases taken with
    | false =>
      -- no value is there, and nothing is taken
      obtain ⟨value, s₃, habsent, h⟩ := run_bind_eq_some_iff.1 h
      refine ⟨value, s₃, fun v vs hv hne => ?_, h⟩
      rw [run_take_other hv hne] at htake
      cases htake
      cases habsent
      exact hv
    | true =>
      have hmark (v : Token) (vs : List Token) (hv : s₂.tokens = v :: vs) : ¬ v ≠ .value := by
        intro hne
        rw [run_take_other hv hne] at htake
        cases htake
      obtain ⟨w, _, -, h⟩ := run_bind_eq_some_iff.1 h
      cases hw : isBlockSibling w <;> rw [hw] at h <;>
        obtain ⟨value, s₃, -, h⟩ := run_bind_eq_some_iff.1 h <;>
        exact ⟨value, s₃, fun v vs hv hne => absurd hne (hmark v vs hv), h⟩
  obtain ⟨value, s₃, htokens, h⟩ := hrest
  obtain ⟨rest, _, hentries, h⟩ := run_bind_eq_some_iff.1 h
  cases h
  exact ⟨k, key, value, rest, _, s₂, s₃, rfl, rfl, hnode, htokens, hentries⟩

theorem run_blockEntries_scalar {style : Style} {text : List Char}
    (hs : s.tokens = .scalar style text :: ts) :
    (blockEntries fuel).run s ≠ some (entries, t) := by
  intro h
  obtain ⟨k, rfl⟩ := fuel_of_run_blockEntries h
  rw [blockEntries] at h
  obtain ⟨_, _, hend, h⟩ := run_bind_eq_some_iff.1 h
  rw [run_take_other hs (v := .blockEnd) nofun] at hend
  cases hend
  obtain ⟨_, _, hkey, h⟩ := run_bind_eq_some_iff.1 h
  rw [run_take_other hs (v := .key) nofun] at hkey
  cases hkey
  cases h

/-! ### Documents -/

theorem run_directives {versioned : Bool} (hu : isDirective u = false) :
    ∃ s', (directives versioned (u :: ts)).run s = some ((), s') ∧ s'.tokens = s.tokens := by
  cases u <;> first | exact ⟨_, rfl, rfl⟩ | cases hu

def isInside (u : Token) : Bool :=
  !(isDirective u || u = .documentStart || u = .documentEnd || u = .streamEnd)

theorem run_document (hu : isInside u = true)
    (h : document.run { tokens := u :: ts } = some (n, t)) :
    ∃ k s₁ s₂, s₁.tokens = u :: ts ∧ (node true false k).run s₁ = some (n, s₂) := by
  simp only [isInside, Bool.not_eq_true', Bool.or_eq_false_iff, decide_eq_false_iff_not] at hu
  obtain ⟨⟨⟨hdir, hstart⟩, -⟩, hend⟩ := hu
  rw [document] at h
  obtain ⟨_, _, hpeek, h⟩ := run_bind_eq_some_iff.1 h
  rw [run_peek rfl] at hpeek
  cases hpeek
  rw [if_neg hend] at h
  obtain ⟨_, _, hget, h⟩ := run_bind_eq_some_iff.1 h
  cases hget
  obtain ⟨_, s₁, hs₁, h⟩ := run_bind_eq_some_iff.1 h
  obtain ⟨s', hs', htokens⟩ := run_directives hdir
  cases hs'.symm.trans hs₁
  obtain ⟨_, _, hget, h⟩ := run_bind_eq_some_iff.1 h
  cases hget
  simp only [hdir, hstart, decide_false, Bool.or_false, Bool.false_eq_true, if_false] at h
  obtain ⟨root, s₂, hroot, h⟩ := run_bind_eq_some_iff.1 h
  obtain ⟨_, _, hget, h⟩ := run_bind_eq_some_iff.1 h
  cases hget
  split at h
  · cases h
    exact ⟨_, _, _, htokens, hroot⟩
  · cases h

theorem run_document_started (hu : isInside u = true)
    (h : document.run { tokens := .documentStart :: u :: ts } = some (n, t)) :
    ∃ k s₁ s₂, s₁.tokens = u :: ts ∧ (node true false k).run s₁ = some (n, s₂) := by
  rw [isInside, Bool.not_eq_true'] at hu
  rw [document] at h
  obtain ⟨_, _, hpeek, h⟩ := run_bind_eq_some_iff.1 h
  rw [run_peek rfl] at hpeek
  cases hpeek
  rw [if_neg nofun] at h
  obtain ⟨_, _, hget, h⟩ := run_bind_eq_some_iff.1 h
  cases hget
  obtain ⟨_, s₁, hs₁, h⟩ := run_bind_eq_some_iff.1 h
  cases hs₁
  obtain ⟨_, _, hget, h⟩ := run_bind_eq_some_iff.1 h
  cases hget
  obtain ⟨_, _, htake, h⟩ := run_bind_eq_some_iff.1 h
  rw [run_take_self rfl] at htake
  cases htake
  obtain ⟨_, _, hpeek, h⟩ := run_bind_eq_some_iff.1 h
  rw [run_peek rfl] at hpeek
  cases hpeek
  rw [hu] at h
  obtain ⟨root, s₂, hroot, h⟩ := run_bind_eq_some_iff.1 h
  obtain ⟨_, _, hget, h⟩ := run_bind_eq_some_iff.1 h
  cases hget
  dsimp only at h
  split at h
  · cases h
    exact ⟨_, _, _, rfl, hroot⟩
  · cases h

end Composer

/-! ### Roots without a record -/

/-- No record is read at a root of this kind. -/
def Node.Unrecorded (root : Node) : Prop :=
  ∀ {σ : Type} (fs : List (Place.Field σ)) (s : σ) (anchors : List (Nat × Node)) (room left : Nat),
    (Place.record fs s ⟨anchors, room, root⟩).run left = none

theorem unrecorded_list (tag : Option TypeTag) (items : List Node) :
    (Node.list tag items).Unrecorded := fun _ _ _ _ _ => rfl

theorem unrecorded_scalar (tag : Option TypeTag) {style : Style} {text : String}
    (h : style ≠ .plain ∨ text ≠ "") : (Node.scalar tag style text).Unrecorded := by
  intro σ fs s anchors room left
  have hempty : Place.isEmpty ⟨anchors, room, .scalar tag style text⟩ = false := by
    simp only [Place.isEmpty]
    split <;> simp_all
  simp only [Place.record, Place.follow, pure_bind, hempty]
  rfl

theorem unrecorded_mapping (tag tag' : Option TypeTag) (items : List Node) (value : Node)
    (rest : List (Node × Node)) :
    (Node.mapping tag ((.list tag' items, value) :: rest)).Unrecorded := by
  intro σ fs s anchors room left
  cases room with
  | zero => rfl
  | succ room => rfl

/-- The tokens of a text that has no record at its root, by the first of them. -/
inductive Unrecorded : List Token → Prop
  | scalar {style : Style} {text : List Char} (h : style ≠ .plain ∨ text ≠ []) (ts : List Token) :
    Unrecorded (.scalar style text :: ts)
  | started {style : Style} {text : List Char} (h : style ≠ .plain ∨ text ≠ []) (ts : List Token) :
    Unrecorded (.documentStart :: .scalar style text :: ts)
  | flowList (ts : List Token) : Unrecorded (.flowList :: ts)
  | blockList (ts : List Token) : Unrecorded (.blockList :: ts)
  | key (ts : List Token) : Unrecorded (.key :: ts)
  | mappedList (ts : List Token) : Unrecorded (.blockMapping :: .key :: .flowList :: ts)
  | mappedScalars (style style' : Style) (text text' : List Char) (ts : List Token) :
    Unrecorded (.blockMapping :: .key :: .scalar style text :: .scalar style' text' :: ts)

theorem Unrecorded.append {os : List Token} (h : Unrecorded os) (ts : List Token) :
    Unrecorded (os ++ ts) := by
  cases h with
  | scalar h => exact .scalar h _
  | started h => exact .started h _
  | flowList => exact .flowList _
  | blockList => exact .blockList _
  | key => exact .key _
  | mappedList => exact .mappedList _
  | mappedScalars => exact .mappedScalars _ _ _ _ _

theorem Unrecorded.of_prefix {os ts : List Token} (h : Unrecorded os) (hp : os <+: ts) :
    Unrecorded ts := by
  obtain ⟨r, rfl⟩ := hp
  exact h.append r

theorem Unrecorded.root {ts : List Token} (ho : Unrecorded ts) {n : Node} {t : Compose}
    (h : Composer.document.run { tokens := ts } = some (n, t)) : n.Unrecorded := by
  cases ho with
  | scalar hs =>
    obtain ⟨k, s₁, s₂, htokens, hnode⟩ := Composer.run_document rfl h
    obtain ⟨rfl, -⟩ := Composer.run_node_scalar htokens hnode
    exact unrecorded_scalar none (by simpa using hs)
  | started hs =>
    obtain ⟨k, s₁, s₂, htokens, hnode⟩ := Composer.run_document_started rfl h
    obtain ⟨rfl, -⟩ := Composer.run_node_scalar htokens hnode
    exact unrecorded_scalar none (by simpa using hs)
  | flowList =>
    obtain ⟨k, s₁, s₂, htokens, hnode⟩ := Composer.run_document rfl h
    obtain ⟨items, rfl⟩ := Composer.run_node_flowList htokens hnode
    exact unrecorded_list none items
  | blockList =>
    obtain ⟨k, s₁, s₂, htokens, hnode⟩ := Composer.run_document rfl h
    obtain ⟨items, rfl⟩ := Composer.run_node_blockList htokens hnode
    exact unrecorded_list none items
  | key =>
    obtain ⟨k, s₁, s₂, htokens, hnode⟩ := Composer.run_document rfl h
    exact absurd hnode (Composer.run_node_key htokens)
  | mappedList =>
    obtain ⟨k, s₁, s₂, htokens, hnode⟩ := Composer.run_document rfl h
    obtain ⟨_, _, entries, hs, hentries, rfl⟩ := Composer.run_node_blockMapping htokens hnode
    obtain ⟨_, key, value, rest, _, _, _, rfl, hkey, hnode, -, -⟩ :=
      Composer.run_blockEntries_key hs rfl hentries
    obtain ⟨items, rfl⟩ := Composer.run_node_flowList hkey hnode
    exact unrecorded_mapping none none items value rest
  | mappedScalars style style' text text' =>
    obtain ⟨k, s₁, s₂, htokens, hnode⟩ := Composer.run_document rfl h
    obtain ⟨_, _, entries, hs, hentries, rfl⟩ := Composer.run_node_blockMapping htokens hnode
    obtain ⟨_, key, value, rest, _, _, _, rfl, hkey, hnode, hnext, hrest⟩ :=
      Composer.run_blockEntries_key hs rfl hentries
    obtain ⟨-, hafter⟩ := Composer.run_node_scalar hkey hnode
    exact absurd hrest (Composer.run_blockEntries_scalar (hnext _ _ hafter nofun))

section Record
variable {text : String} {σ : Type} (fs : List (Place.Field σ)) (s : σ)

theorem Unrecorded.read_eq_none
    (h : ∀ ts, Token.ofText? text.toList = some ts → Unrecorded ts) :
    read (Place.record fs s) text = none := by
  rw [read, Graph.ofText?]
  cases hts : Token.ofText? text.toList with
  | none => rfl
  | some ts =>
    cases hg : Composer.document.run { tokens := ts } with
    | none => simp [Graph.ofTokens?, hg]
    | some r =>
      have hroot : r.1.Unrecorded := (h ts hts).root hg
      simp [Graph.ofTokens?, hg, hroot fs s]

theorem read_record_of_end (h : Token.ofText? text.toList = some [.streamEnd]) :
    read (Place.record fs s) text = some s := by
  rw [read, Graph.ofText?, h]
  rfl

end Record

end Reprieve.Yaml
