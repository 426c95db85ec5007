import Reprieve.Proofs.Arguments
import Reprieve.Proofs.Documents
import Reprieve.Proofs.Files
import Reprieve.Proofs.Spelling
import Reprieve.SnapshotFile

/-! Snapshots that are written again. What was read of one and holds no float comes back as
it is, whatever its arguments are written as. -/
open MonadAttach LawfulMonadAttach
namespace Reprieve

/-! ### What every tag of a snapshot is -/

def MethodRecord.AllTags (P : Tag → Prop) (r : MethodRecord) : Prop := ∀ t ∈ r.tags, P t

def ClassRecord.AllTags (P : Tag → Prop) (r : ClassRecord) : Prop :=
  (∀ t ∈ r.tags, P t) ∧ ∀ m ∈ r.methods, m.AllTags P

def Snapshot.AllTags (P : Tag → Prop) (s : Snapshot) : Prop := ∀ r ∈ s.classes, r.AllTags P

def Snapshot.FloatFree (s : Snapshot) : Prop := s.AllTags fun t => t.arguments.FloatFree

def Tag.Decoded (t : Tag) : Prop := ∃ d, Arguments.ofDatum? d = some t.arguments

def Tag.Draft.Decoded (s : Draft) : Prop := ∃ d, Arguments.ofDatum? d = some s.arguments

def MethodRecord.Draft.Decoded (s : Draft) : Prop := ∀ t ∈ s.tags, t.Decoded

def ClassRecord.Draft.Decoded (s : Draft) : Prop :=
  (∀ t ∈ s.tags, t.Decoded) ∧ ∀ m ∈ s.methods, m.AllTags Tag.Decoded

/-! ### What is read -/

section Reading
variable {m : Type → Type} {ν : Type} [Monad m] [LawfulMonad m] [MonadAttach m]
  [LawfulMonadAttach m] {d : Document m ν}

omit [Monad m] [LawfulMonad m] [LawfulMonadAttach m] in
theorem Document.Sound.items (hd : d.Sound) {α : Type} {P : α → Prop} {f : ν → m α}
    (hP : ∀ {u a}, CanReturn (f u) a → P a) {v : ν} {xs : List α} (h : CanReturn (d.list f v) xs) :
    ∀ x ∈ xs, P x := by
  intro x hx
  obtain ⟨u, hu⟩ := hd.list h x hx
  exact hP hu

theorem canReturn_return {x : m α} {f : α → β} {b : β} (h : CanReturn (do return f (← x)) b) :
    ∃ a, CanReturn x a ∧ f a = b := by
  obtain ⟨a, ha, h⟩ := canReturn_bind_imp' h
  exact ⟨a, ha, eq_of_canReturn_pure h⟩

theorem unmoved {P : β → Prop} {x : m α} {f : α → β} {b : β} (h : CanReturn (do return f (← x)) b)
    (hP : ∀ a, P (f a)) : P b := by
  obtain ⟨a, _, rfl⟩ := canReturn_return h
  exact hP a

theorem Tag.decoded_of_read (hd : d.Sound) {v : ν} {t : Tag} (h : CanReturn (read d v) t) :
    t.Decoded := by
  obtain ⟨draft, hdraft, h⟩ := canReturn_bind_imp' h
  obtain ⟨name, _, rfl⟩ := canReturn_return h
  refine hd.record hdraft (I := Draft.Decoded) ⟨.list [], rfl⟩ ?_
  simp only [List.forall_mem_cons]
  refine ⟨fun u s t hs h => unmoved h fun _ => hs, fun u s t _ h => ?_, nofun⟩
  obtain ⟨a, ha, rfl⟩ := canReturn_return h
  obtain ⟨x, _, ha⟩ := canReturn_bind_imp' ha
  exact ⟨x, hd.required ha⟩

theorem MethodRecord.decoded_of_read (hd : d.Sound) {v : ν} {r : MethodRecord}
    (h : CanReturn (read d v) r) : r.AllTags Tag.Decoded := by
  obtain ⟨draft, hdraft, h⟩ := canReturn_bind_imp' h
  obtain ⟨name, _, rfl⟩ := canReturn_return h
  refine hd.record hdraft (I := Draft.Decoded) (List.forall_mem_nil Tag.Decoded) ?_
  simp only [List.forall_mem_cons]
  refine ⟨fun u s t hs h => unmoved h fun _ => hs, fun u s t hs h => unmoved h fun _ => hs,
    fun u s t _ h => ?_, nofun⟩
  obtain ⟨tags, htags, rfl⟩ := canReturn_return h
  exact hd.items (Tag.decoded_of_read hd) htags

theorem ClassRecord.decoded_of_read (hd : d.Sound) {v : ν} {r : ClassRecord}
    (h : CanReturn (read d v) r) : r.AllTags Tag.Decoded := by
  obtain ⟨draft, hdraft, h⟩ := canReturn_bind_imp' h
  obtain ⟨name, _, rfl⟩ := canReturn_return h
  refine hd.record hdraft (I := Draft.Decoded) ⟨List.forall_mem_nil Tag.Decoded,
    List.forall_mem_nil (MethodRecord.AllTags Tag.Decoded)⟩ ?_
  simp only [List.forall_mem_cons]
  refine ⟨fun u s t hs h => unmoved h fun _ => hs, fun u s t hs h => unmoved h fun _ => hs,
    fun u s t hs h => unmoved h fun _ => hs, fun u s t hs h => unmoved h fun _ => hs,
    fun u s t hs h => ?_, fun u s t hs h => ?_, nofun⟩
  · obtain ⟨tags, htags, rfl⟩ := canReturn_return h
    exact ⟨hd.items (Tag.decoded_of_read hd) htags, hs.2⟩
  · obtain ⟨methods, hmethods, rfl⟩ := canReturn_return h
    exact ⟨hs.1, hd.items (MethodRecord.decoded_of_read hd) hmethods⟩

theorem Snapshot.decoded_of_read (hd : d.Sound) {v : ν} {s : Snapshot}
    (h : CanReturn (read d v) s) : s.AllTags Tag.Decoded := by
  refine hd.record h (I := AllTags Tag.Decoded)
    (List.forall_mem_nil (ClassRecord.AllTags Tag.Decoded)) ?_
  simp only [List.forall_mem_cons]
  refine ⟨fun u s t hs h => unmoved h fun _ => hs, fun u s t _ h => ?_, nofun⟩
  obtain ⟨classes, hclasses, rfl⟩ := canReturn_return h
  exact hd.items (ClassRecord.decoded_of_read hd) hclasses

end Reading

theorem Snapshot.decoded_of_ofJson {text : String} {s : Snapshot} (h : ofJson text = .ok s) :
    s.AllTags Tag.Decoded := by
  obtain ⟨p, h⟩ := Json.canReturn_read (Except.mapError_eq_ok_iff.1 h)
  exact decoded_of_read Json.sound h

theorem Snapshot.decoded_of_ofYaml {text : String} {s : Snapshot} (h : ofYaml text = .ok s) :
    s.AllTags Tag.Decoded := by
  rw [ofYaml] at h
  cases hread : Yaml.read (read Yaml.document) text with
  | none =>
    rw [hread] at h
    cases h
  | some a =>
    rw [hread] at h
    cases h
    obtain ⟨p, h⟩ := Yaml.canReturn_read hread
    exact decoded_of_read Yaml.sound h

/-! ### What comes back -/

section Writing
variable {m : Type → Type} {ν : Type} [Monad m] [LawfulMonad m] {d : Document m ν}
  {Shows : ν → Datum → Prop}

def Tag.Returns (t : Tag) : Prop :=
  Arguments.ofDatum? (Json.carried t.arguments.toDatum) = some t.arguments

theorem Tag.Arguments.read_shown (hd : d.Faithful Shows) {a : Arguments}
    (ha : ofDatum? (Json.carried a.toDatum) = some a) {v : ν} (hv : Shows v a.toDatum) :
    read d v = pure a := by
  rw [read, hd.datum hv, pure_bind, ha]
  rfl

/-- The name of a tag is bare already, so to read it again changes nothing. -/
theorem Tag.read_shown (hd : d.Faithful Shows) {t : Tag} (ht : t.Returns) {v : ν}
    (hv : Shows v t.toDatum) : read d v = pure t := by
  obtain ⟨us, hus, hrecord⟩ := hd.record ["name", "arguments"] hv rfl (by decide)
  obtain _ | ⟨hname, _ | ⟨hargs, _ | _⟩⟩ := hus
  rw [read, hrecord _ (by simp)]
  simp [Document.fill, Document.required, List.lookup_cons, hd.text hname,
    Arguments.read_shown hd ht hargs, ClassName.ofText_declared]

theorem MethodRecord.read_shown (hd : d.Faithful Shows) {r : MethodRecord}
    (hr : r.AllTags Tag.Returns) {v : ν} (hv : Shows v r.toDatum) : read d v = pure r := by
  obtain ⟨us, hus, hrecord⟩ := hd.record ["name", "constructor", "tags"] hv rfl (by decide)
  obtain _ | ⟨hname, _ | ⟨hcons, _ | ⟨htags, _ | _⟩⟩⟩ := hus
  have hc := hd.maybe hcons nofun fun b => hd.flag
  have ht := hd.items htags fun t ht _ => Tag.read_shown hd (hr t ht)
  rw [read, hrecord _ (by simp)]
  simp [Document.fill, Document.required, List.lookup_cons, hd.text hname, hc, ht]

theorem ClassKind.read_shown (hd : d.Faithful Shows) {k : ClassKind} {v : ν}
    (hv : Shows v (.text k.name)) : read d v = pure k := by
  have hk : k.name ∈ all.map name := by cases k <;> decide
  rw [read, hd.word hv hk, pure_bind, ofName?_name]
  rfl

theorem ClassRecord.read_shown (hd : d.Faithful Shows) {r : ClassRecord}
    (hr : r.AllTags Tag.Returns) {v : ν} (hv : Shows v r.toDatum) : read d v = pure r := by
  obtain ⟨us, hus, hrecord⟩ := hd.record
    ["name", "kind", "parent", "interfaces", "tags", "methods"] hv rfl (by decide)
  obtain _ | ⟨hname, _ | ⟨hkind, _ | ⟨hparent, _ | ⟨hinterfaces, _ | ⟨htags,
    _ | ⟨hmethods, _ | _⟩⟩⟩⟩⟩⟩ := hus
  -- What each field shows comes back; then the draft is computed field by field.
  have hp := hd.maybe hparent nofun fun s => hd.text
  have hi := hd.items hinterfaces fun s _ _ => hd.text
  have ht := hd.items htags fun t ht _ => Tag.read_shown hd (hr.1 t ht)
  have hm := hd.items hmethods fun m hm _ => MethodRecord.read_shown hd (hr.2 m hm)
  rw [read, hrecord _ (by simp)]
  simp [Document.fill, Document.required, List.lookup_cons, hd.text hname,
    ClassKind.read_shown hd hkind, hp, hi, ht, hm]

theorem Snapshot.read_shown (hd : d.Faithful Shows) {s : Snapshot} (hs : s.AllTags Tag.Returns)
    {v : ν} (hv : Shows v s.toDatum) : read d v = pure s := by
  obtain ⟨us, hus, hrecord⟩ := hd.record ["runtime_version", "classes"] hv rfl (by decide)
  obtain _ | ⟨hversion, _ | ⟨hclasses, _ | _⟩⟩ := hus
  have hv := hd.maybe hversion nofun fun s => hd.text
  have hc := hd.items hclasses fun r hr _ => ClassRecord.read_shown hd (hs r hr)
  rw [read, hrecord _ (by simp)]
  simp [Document.fill, List.lookup_cons, hv, hc]

end Writing

/-! ### What is written -/

theorem plain_items {g : α → Datum} {xs : List α} (h : ∀ x ∈ xs, Json.Plain (g x)) :
    Json.Plain (.list (xs.map g)) :=
  .list (List.forall_mem_map.2 h)

theorem plain_optional {g : α → Datum} (h : ∀ a, Json.Plain (g a)) (o : Option α) :
    Json.Plain (.optional g o) := by
  cases o with
  | none => exact .null
  | some a => exact h a

/-- The arguments are written without a float and without a number that is too wide. -/
def Tag.Plain (t : Tag) : Prop := Json.Plain t.arguments.toDatum

theorem Tag.plain_toDatum {t : Tag} (h : t.Plain) : Json.Plain t.toDatum := by
  refine Json.plain_fields ?_
  simp only [List.forall_mem_cons]
  exact ⟨.text _, h, nofun⟩

theorem MethodRecord.plain_toDatum {r : MethodRecord} (h : r.AllTags Tag.Plain) :
    Json.Plain r.toDatum := by
  refine Json.plain_fields ?_
  simp only [List.forall_mem_cons]
  exact ⟨.text _, plain_optional .bool _, plain_items fun t ht => Tag.plain_toDatum (h t ht), nofun⟩

theorem ClassRecord.plain_toDatum {r : ClassRecord} (h : r.AllTags Tag.Plain) :
    Json.Plain r.toDatum := by
  refine Json.plain_fields ?_
  simp only [List.forall_mem_cons]
  exact ⟨.text _, .text _, plain_optional .text _, plain_items fun _ _ => .text _,
    plain_items fun t ht => Tag.plain_toDatum (h.1 t ht),
    plain_items fun m hm => MethodRecord.plain_toDatum (h.2 m hm), nofun⟩

theorem Snapshot.plain_toDatum {s : Snapshot} (h : s.AllTags Tag.Plain) :
    Json.Plain s.toDatum := by
  refine Json.plain_fields ?_
  simp only [List.forall_mem_cons]
  exact ⟨plain_optional .text _, plain_items fun r hr => ClassRecord.plain_toDatum (h r hr), nofun⟩

/-! ### Snapshots that were read -/

theorem Snapshot.AllTags.combine {P Q R : Tag → Prop} {s : Snapshot} (hp : s.AllTags P)
    (hq : s.AllTags Q) (h : ∀ t, P t → Q t → R t) : s.AllTags R := fun r hr =>
  ⟨fun t ht => h t ((hp r hr).1 t ht) ((hq r hr).1 t ht),
    fun m hm t ht => h t ((hp r hr).2 m hm t ht) ((hq r hr).2 m hm t ht)⟩

/-- A snapshot that was read, of JSON or of YAML, and holds no float is written as what is read
as the same snapshot, as a value and as a text. So are its index and the fault that stands for
one. -/
theorem Snapshot.exported_returns {text : String} {s : Snapshot}
    (h : ofJson text = .ok s ∨ ofYaml text = .ok s) (hf : s.FloatFree) :
    read Datum.document (Json.carried s.toDatum) = some s ∧
    (Json.nesting s.toDatum ≤ Json.room → ofJson (Json.compact s.toDatum) = .ok s ∧
      (do index (← ofJson (Json.compact s.toDatum))) = index s) := by
  have hdecoded : s.AllTags Tag.Decoded := h.elim decoded_of_ofJson decoded_of_ofYaml
  have hreturns : s.AllTags Tag.Returns := hdecoded.combine hf fun t ⟨_, ht⟩ hft =>
    Tag.Arguments.returns_of_ofDatum? ht hft
  have hplain : Json.Plain s.toDatum := plain_toDatum <| hdecoded.combine hf fun t ⟨_, ht⟩ hft =>
    Tag.Arguments.plain_toDatum (Tag.Arguments.proper_of_ofDatum? ht) hft
  refine ⟨read_shown Datum.faithful hreturns rfl, fun hn => ?_⟩
  have hread : ofJson (Json.compact s.toDatum) = .ok s := by
    rw [ofJson, Json.read_compact hplain, read_shown Json.faithful hreturns ⟨rfl, hplain, hn⟩]
    rfl
  exact ⟨hread, by rw [hread]; rfl⟩

def Snapshot.tagged : Snapshot :=
  { classes := [{ name := "A", tags := [⟨.ofText "T", Tag.Arguments.set {} "on" (.bool true)⟩] }] }

/-- A reading gave one class with a name and nothing else. -/
def Snapshot.isBare (name : String) : Except Fault Snapshot → Bool
  | .ok ⟨none, [⟨n, .class, none, [], [], []⟩]⟩ => n == name
  | _ => false

theorem Snapshot.eq_of_isBare {name : String} {x : Except Fault Snapshot}
    (h : isBare name x = true) : x = .ok { classes := [{ name }] } := by
  unfold isBare at h
  split at h
  · rw [beq_iff_eq.1 h]
  · cases h

/-- A document with the fields that are not left to their defaults. -/
def Snapshot.source : Datum :=
  .fields [("classes", .list [.fields [("name", .text "A"), ("tags", .list [.fields
    [("name", .text "\\T"), ("arguments", .fields [("on", .bool true)])]])]])]

theorem Snapshot.plain_source : Json.Plain source := by
  -- From the outside in: the document, its class, the tag and its arguments.
  refine Json.plain_fields (List.forall_mem_singleton.2 (.list (List.forall_mem_singleton.2 ?_)))
  refine Json.plain_fields (List.forall_mem_cons.2 ⟨.text _,
    List.forall_mem_singleton.2 (.list (List.forall_mem_singleton.2 ?_))⟩)
  refine Json.plain_fields (List.forall_mem_cons.2 ⟨.text _, List.forall_mem_singleton.2 ?_⟩)
  exact Json.plain_fields (List.forall_mem_singleton.2 (.bool true))

theorem Snapshot.ofJson_source : ofJson (Json.compact source) = .ok tagged := by
  rw [ofJson, Json.read_compact plain_source]
  rfl

theorem Snapshot.tagged_returns :
    read Datum.document (Json.carried tagged.toDatum) = some tagged ∧
    ofJson (Json.compact tagged.toDatum) = .ok tagged ∧
    ofJson (Json.compact (toDatum { classes := [{ name := "A" }] })) =
      .ok { classes := [{ name := "A" }] } := by
  have hargs : (Tag.Arguments.set {} "on" (.bool true)).FloatFree :=
    ⟨List.forall_mem_nil _, List.forall_mem_singleton.2 (.bool true)⟩
  have hfree : tagged.FloatFree :=
    List.forall_mem_singleton.2 ⟨List.forall_mem_singleton.2 hargs, List.forall_mem_nil _⟩
  have hroom : Json.nesting tagged.toDatum ≤ Json.room := by decide
  have hyaml : ofYaml "classes:\n- name: A\n" = .ok { classes := [{ name := "A" }] } :=
    eq_of_isBare (by decide +kernel)
  have hbare : FloatFree { classes := [{ name := "A" }] } :=
    List.forall_mem_singleton.2 ⟨List.forall_mem_nil _, List.forall_mem_nil _⟩
  obtain ⟨hvalue, htext⟩ := exported_returns (.inl ofJson_source) hfree
  exact ⟨hvalue, (htext hroom).1, ((exported_returns (.inr hyaml) hbare).2 (by decide)).1⟩

end Reprieve
