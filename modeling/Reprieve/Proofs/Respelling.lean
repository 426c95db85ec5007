import Reprieve.Doctrine
import Reprieve.Proofs.Indexing
import Reprieve.Proofs.Interfaces
import Reprieve.Proofs.Rules

/-! Snapshots that spell their names differently. A walk reads nothing of a record but
keys, and a rule reads of a tag its key and its arguments, so another spelling changes
neither an error nor an answer. -/
namespace Reprieve

structure Tag.Alike (t t' : Tag) : Prop where
  name : ClassName.Respells t.name.declared t'.name.declared
  arguments : t.arguments = t'.arguments

structure MethodRecord.Alike (m m' : MethodRecord) : Prop where
  name : m.name = m'.name
  constructor : m.constructor = m'.constructor
  tags : List.Forall₂ Tag.Alike m.tags m'.tags

/-- One record in two spellings of the names in it. -/
structure ClassRecord.Alike (r r' : ClassRecord) : Prop where
  name : ClassName.Respells r.name r'.name
  kind : r.kind = r'.kind
  parent : Option.Rel ClassName.Respells r.parent r'.parent
  interfaces : List.Forall₂ ClassName.Respells r.interfaces r'.interfaces
  tags : List.Forall₂ Tag.Alike r.tags r'.tags
  methods : List.Forall₂ MethodRecord.Alike r.methods r'.methods

/-! ### Tags -/

/-- A tag reads its name from a text, which may be spelled with backslashes. -/
theorem Tag.alike_ofText {s s' : String} (h : ClassName.Respells s s') (a : Tag.Arguments) :
    Tag.Alike ⟨.ofText s, a⟩ ⟨.ofText s', a⟩ := by
  refine ⟨(ClassName.respells_iff_keyOf_eq _ _).2 ?_, rfl⟩
  rw [ClassName.keyOf_declared, ClassName.keyOf_declared, ClassName.key_ofText,
    ClassName.key_ofText]
  exact h.keyOf_eq

theorem Tag.Alike.isNamed_eq {t t' : Tag} (h : t.Alike t') (n : String) :
    t.isNamed n = t'.isNamed n := by
  have hk : t.name.key = t'.name.key := by
    rw [← ClassName.keyOf_declared, ← ClassName.keyOf_declared]
    exact h.name.keyOf_eq
  rw [Bool.eq_iff_iff, Tag.isNamed_iff, Tag.isNamed_iff, hk]

theorem any_eq_of_forall₂ {α β : Type} {R : α → β → Prop} {l : List α} {l' : List β}
    {p : α → Bool} {q : β → Bool} (hpq : ∀ a b, R a b → p a = q b) (h : List.Forall₂ R l l') :
    l.any p = l'.any q := by
  induction h with
  | nil => rfl
  | cons hr _ ih => rw [List.any_cons, List.any_cons, hpq _ _ hr, ih]

/-! ### Keys of records -/

namespace Lineage
open Relation (ReflTransGen TransGen)

/-- What the walks read of a record. -/
structure Outline where
  key : String
  parent : Option String
  interfaces : List String

def outline (r : ClassRecord) : Outline :=
  ⟨ClassName.keyOf r.name, r.parent.map ClassName.keyOf, r.interfaces.map ClassName.keyOf⟩

theorem outline_of_alike {r r' : ClassRecord} (h : r.Alike r') : outline r = outline r' := by
  have hp {o o' : Option String} (ho : Option.Rel ClassName.Respells o o') :
      o.map ClassName.keyOf = o'.map ClassName.keyOf := by
    cases ho with
    | none => rfl
    | some hr => exact congrArg some hr.keyOf_eq
  have hi : r.interfaces.map ClassName.keyOf = r'.interfaces.map ClassName.keyOf :=
    map_eq_map_iff_forall₂.2 (h.interfaces.imp fun _ _ => ClassName.Respells.keyOf_eq)
  rw [outline, outline, h.name.keyOf_eq, hp h.parent, hi]

theorem outlines_of_alike {rs rs' : List ClassRecord}
    (h : List.Forall₂ ClassRecord.Alike rs rs') : rs.map outline = rs'.map outline :=
  map_eq_map_iff_forall₂.2 (h.imp fun _ _ => outline_of_alike)

theorem parent_iff_outline (rs : List ClassRecord) (a b : String) :
    Parent rs a b ↔ ∃ o ∈ rs.map outline, o.key = a ∧ o.parent = some b := by
  simp [Parent, outline]

theorem declares_iff_outline (rs : List ClassRecord) (a b : String) :
    Declares rs a b ↔ ∃ o ∈ rs.map outline, o.key = a ∧ b ∈ o.interfaces := by
  constructor
  · intro h
    obtain ⟨r, hr, i, hi, rfl, rfl⟩ := h
    exact ⟨outline r, List.mem_map_of_mem hr, rfl, List.mem_map_of_mem hi⟩
  · intro h
    obtain ⟨o, ho, rfl, hb⟩ := h
    obtain ⟨r, hr, rfl⟩ := List.mem_map.1 ho
    obtain ⟨i, hi, rfl⟩ := List.mem_map.1 hb
    exact ⟨r, hr, i, hi, rfl, rfl⟩

theorem keys_eq_outline (rs : List ClassRecord) :
    rs.map (fun r => ClassName.keyOf r.name) = (rs.map outline).map Outline.key := by
  rw [List.map_map]
  rfl

theorem implements_iff_transGen (rs : List ClassRecord) (c k : String) :
    Implements rs c k ↔ ∃ a, ReflTransGen (Parent rs) c a ∧ TransGen (Declares rs) a k := by
  constructor
  · intro h
    obtain ⟨r, hr, hp, i, hi, hk⟩ := h
    exact ⟨_, hp, .head' ⟨r, hr, i, hi, rfl, rfl⟩ hk⟩
  · intro h
    obtain ⟨a, hp, ht⟩ := h
    obtain ⟨b, ⟨r, hr, i, hi, rfl, rfl⟩, hk⟩ := Relation.TransGen.head'_iff.1 ht
    exact ⟨r, hr, hp, i, hi, hk⟩

section Same
variable {rs rs' : List ClassRecord} (h : rs.map outline = rs'.map outline)
include h

theorem distinct_congr : Distinct rs ↔ Distinct rs' := by
  rw [Distinct, Distinct, keys_eq_outline, keys_eq_outline, h]

theorem parent_congr : Parent rs = Parent rs' := by
  funext a b
  rw [parent_iff_outline, parent_iff_outline, h]

theorem declares_congr : Declares rs = Declares rs' := by
  funext a b
  rw [declares_iff_outline, declares_iff_outline, h]

theorem implements_congr (c k : String) : Implements rs c k ↔ Implements rs' c k := by
  rw [implements_iff_transGen, implements_iff_transGen, parent_congr h, declares_congr h]

end Same
end Lineage

/-! ### Classes and methods -/

structure Method.Alike (m m' : Method) : Prop where
  name : m.name = m'.name
  isConstructor : m.isConstructor = m'.isConstructor
  tags : List.Forall₂ Tag.Alike m.tags m'.tags

structure Descriptor.Alike (c c' : Descriptor) : Prop where
  implements : ∀ n, c.implements n = c'.implements n
  isSubclassOf : ∀ n, c.isSubclassOf n = c'.isSubclassOf n
  tags : List.Forall₂ Tag.Alike c.tags c'.tags
  methods : List.Forall₂ Method.Alike c.methods c'.methods

theorem MethodRecord.Alike.ofRecord {m m' : MethodRecord} (h : m.Alike m') :
    (Method.ofRecord m).Alike (Method.ofRecord m') :=
  ⟨h.name, by rw [Method.ofRecord, Method.ofRecord, h.name, h.constructor], h.tags⟩

theorem Lineage.Distinct.resolve_alike {rs rs' : List ClassRecord} (hd : Distinct rs)
    (h : rs.map outline = rs'.map outline) {c c' : ClassRecord} (hc : c ∈ rs) (hc' : c' ∈ rs')
    (hcc : c.Alike c') :
    (Descriptor.resolve rs c).Alike (Descriptor.resolve rs' c') := by
  have hd' : Distinct rs' := (distinct_congr h).1 hd
  have hk : ClassName.keyOf c.name = ClassName.keyOf c'.name := hcc.name.keyOf_eq
  refine ⟨fun n => ?implements, fun n => ?isSubclassOf, ?tags, ?methods⟩
  case implements =>
    rw [Bool.eq_iff_iff, hd.implements_resolve_iff hc, hd'.implements_resolve_iff hc', hk,
      implements_congr h]
  case isSubclassOf =>
    rw [Bool.eq_iff_iff, hd.isSubclassOf_resolve_iff hc, hd'.isSubclassOf_resolve_iff hc', hk,
      parent_congr h]
  case tags => simpa using hcc.tags
  case methods =>
    rw [Descriptor.resolve_methods, Descriptor.resolve_methods, List.forall₂_map_left_iff,
      List.forall₂_map_right_iff]
    exact hcc.methods.imp fun _ _ => MethodRecord.Alike.ofRecord

theorem Lineage.Distinct.resolve_forall₂ {rs rs' : List ClassRecord} (hd : Distinct rs)
    (h : List.Forall₂ ClassRecord.Alike rs rs') :
    List.Forall₂ Descriptor.Alike (rs.map (Descriptor.resolve rs))
      (rs'.map (Descriptor.resolve rs')) := by
  rw [List.forall₂_map_left_iff, List.forall₂_map_right_iff, List.forall₂_iff_zip]
  refine ⟨h.length_eq, fun {c c'} hcc => ?_⟩
  obtain ⟨hc, hc'⟩ := List.of_mem_zip hcc
  exact hd.resolve_alike (outlines_of_alike h) hc hc' (List.forall₂_zip h hcc)

/-! ### Rules -/

theorem Method.Alike.hasTag_eq {m m' : Method} (h : m.Alike m') (n : String) :
    m.hasTag n = m'.hasTag n :=
  any_eq_of_forall₂ (fun _ _ ht => ht.isNamed_eq n) h.tags

namespace Doctrine

theorem listenerMethod?_eq {t t' : Tag} (h : t.Alike t') :
    listenerMethod? t = listenerMethod? t' := by
  rw [listenerMethod?, listenerMethod?, h.arguments]

theorem verdict_eq {c c' : Descriptor} {m m' : Method} (hc : c.Alike c') (hm : m.Alike m')
    (setting : Option Bool) (caps : Capabilities) (installed : Packages) :
    (provider setting caps installed).verdict ⟨c, m⟩ =
      (provider setting caps installed).verdict ⟨c', m'⟩ := by
  have hf : (rules caps).firstMatch ⟨c, m⟩ = (rules caps).firstMatch ⟨c', m'⟩ := by
    refine RuleSet.firstMatch_congr ?_
    simp only [rules, List.forall_mem_cons]
    refine ⟨hc.implements _, ?lifecycle, ?repository, ?listener, ?naming, nofun⟩
    case lifecycle =>
      have ht : m.hasTag = m'.hasTag := funext hm.hasTag_eq
      simp only [lifecycleCallbackRule, ht]
    case repository =>
      simp only [repositoryConstructorRule, hm.isConstructor, hc.isSubclassOf]
    case listener =>
      have ha : (c.tagsNamed asEntityListener).any (fun t => listenerMethod? t == some m.name) =
          (c'.tagsNamed asEntityListener).any fun t => listenerMethod? t == some m'.name := by
        rw [Descriptor.tagsNamed, Descriptor.tagsNamed, List.any_filter, List.any_filter]
        refine any_eq_of_forall₂ (fun t t' ht => ?_) hc.tags
        rw [ht.isNamed_eq, listenerMethod?_eq ht, hm.name]
      simp only [entityListenerRule, ha]
    case naming => simp only [listenerNamingRule, hm.name]
  simp only [provider, verdict, hf]

theorem verdicts_eq {c c' : Descriptor} (h : c.Alike c') (setting : Option Bool)
    (caps : Capabilities) (installed : Packages) :
    c.members.map (provider setting caps installed).verdict =
      c'.members.map (provider setting caps installed).verdict := by
  rw [Descriptor.members, Descriptor.members, List.map_map, List.map_map, map_eq_map_iff_forall₂]
  exact h.methods.imp fun _ _ hm => verdict_eq h hm setting caps installed

end Doctrine

/-! ### Snapshots -/

namespace Index

theorem RepeatsAt.respell {rs rs' : List ClassRecord} {i : Nat} {r : ClassRecord}
    (hr : RepeatsAt rs i r) (h : List.Forall₂ ClassRecord.Alike rs rs') :
    ∃ r', RepeatsAt rs' i r' := by
  have hi : i < rs.length := (List.getElem?_eq_some_iff.1 hr.here).1
  have hi' : i < rs'.length := h.length_eq ▸ hi
  have hrr : r.Alike rs'[i] := by
    have hget : rs[i] = r := (List.getElem?_eq_some_iff.1 hr.here).2
    exact hget ▸ h.get hi hi'
  have ho := Lineage.outlines_of_alike (List.forall₂_take i h)
  refine ⟨rs'[i], List.getElem?_eq_getElem hi', ?_, (Lineage.distinct_congr ho).1 hr.first⟩
  rw [Lineage.keys_eq_outline, ← ho, ← Lineage.keys_eq_outline, ← hrr.name.keyOf_eq]
  exact hr.before

/-- Two snapshots that differ in the spelling of names are refused at the same place, or
both have an index, whose classes answer alike to every name and whose methods fare
alike. -/
theorem ofSnapshot_respelled {s s' : Snapshot}
    (h : List.Forall₂ ClassRecord.Alike s.classes s'.classes) :
    (∃ i r r', RepeatsAt s.classes i r ∧ ofSnapshot s = .error r.name ∧
      RepeatsAt s'.classes i r' ∧ ofSnapshot s' = .error r'.name) ∨
    ∃ ix ix', ofSnapshot s = .ok ix ∧ Of s ix ∧ ofSnapshot s' = .ok ix' ∧ Of s' ix' ∧
      List.Forall₂ (fun c c' => (∀ n, c.implements n = c'.implements n) ∧
        (∀ n, c.isSubclassOf n = c'.isSubclassOf n) ∧
        ∀ setting caps installed,
          c.members.map (Doctrine.provider setting caps installed).verdict =
            c'.members.map (Doctrine.provider setting caps installed).verdict)
        ix.classes ix'.classes := by
  by_cases hd : Lineage.Distinct s.classes
  · have hd' := (Lineage.distinct_congr (Lineage.outlines_of_alike h)).1 hd
    obtain ⟨ix, hix, ho⟩ := ofSnapshot_of_distinct hd
    obtain ⟨ix', hix', ho'⟩ := ofSnapshot_of_distinct hd'
    refine .inr ⟨ix, ix', hix, ho, hix', ho', ?_⟩
    rw [ho.classes, ho'.classes]
    exact (hd.resolve_forall₂ h).imp fun c c' hc =>
      ⟨hc.implements, hc.isSubclassOf, Doctrine.verdicts_eq hc⟩
  · have hr : repeated? [] s.classes ≠ none := fun hn => hd ((noRepeat_iff s.classes).1 hn)
    obtain ⟨r, hr⟩ := Option.ne_none_iff_exists'.1 hr
    obtain ⟨i, hi⟩ := (firstRepeat_iff s.classes r).1 hr
    obtain ⟨r', hi'⟩ := hi.respell h
    exact .inl ⟨i, r, r', hi, (ofSnapshot_eq_error_iff s r.name).2 ⟨i, r, hi, rfl⟩,
      hi', (ofSnapshot_eq_error_iff s' r'.name).2 ⟨i, r', hi', rfl⟩⟩

def quiet : Snapshot :=
  { classes := [
      { name := "App\\Post", parent := some "App\\Base"
        methods := [{ name := "stamp"
                      tags := [⟨.ofText "Doctrine\\ORM\\Mapping\\PrePersist", {}⟩] }] },
      { name := "App\\Base", interfaces := ["App\\Marked"] }] }

def loud : Snapshot :=
  { classes := [
      { name := "\\APP\\POST", parent := some "app\\base"
        methods := [{ name := "stamp"
                      tags := [⟨.ofText "\\doctrine\\orm\\mapping\\PREPERSIST", {}⟩] }] },
      { name := "App\\BASE", interfaces := ["\\\\app\\marked"] }] }

theorem quiet_alike_loud : List.Forall₂ ClassRecord.Alike quiet.classes loud.classes := by
  have htag : List.Forall₂ Tag.Alike [⟨.ofText "Doctrine\\ORM\\Mapping\\PrePersist", {}⟩]
      [⟨.ofText "\\doctrine\\orm\\mapping\\PREPERSIST", {}⟩] :=
    .cons (Tag.alike_ofText (by decide) {}) .nil
  have hpost : quiet.classes[0].Alike loud.classes[0] :=
    ⟨by decide, rfl, .some (by decide), .nil, .nil, .cons ⟨rfl, rfl, htag⟩ .nil⟩
  have hbase : quiet.classes[1].Alike loud.classes[1] :=
    ⟨by decide, rfl, .none, .cons (by decide) .nil, .nil, .nil⟩
  exact .cons hpost (.cons hbase .nil)

theorem quiet_fares_as_loud :
    List.Forall₂ ClassRecord.Alike quiet.classes loud.classes ∧
    ∃ ix ix', ofSnapshot quiet = .ok ix ∧ ofSnapshot loud = .ok ix' ∧
      List.Forall₂ (fun c c' => (∀ n, c.implements n = c'.implements n) ∧
        c.members.map (Doctrine.provider (some true) .modern {}).verdict =
          c'.members.map (Doctrine.provider (some true) .modern {}).verdict)
        ix.classes ix'.classes := by
  refine ⟨quiet_alike_loud, ?_⟩
  obtain ⟨i, r, -, -, he, -⟩ | ⟨ix, ix', h, -, h', -, hc⟩ := ofSnapshot_respelled quiet_alike_loud
  · obtain ⟨ix, h, -⟩ := ofSnapshot_of_distinct (s := quiet) (by decide)
    cases he.symm.trans h
  · exact ⟨ix, ix', h, h', hc.imp fun c c' hcc => ⟨hcc.1, hcc.2.2 (some true) .modern {}⟩⟩

end Index
end Reprieve
