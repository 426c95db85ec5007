import Mathlib.Data.List.TakeWhile
import Reprieve.Proofs.Indexing
import Reprieve.Proofs.Interfaces

/-! What a class has from others. From its parent it has all interfaces and the parent's
ancestors, up to the place where the class itself comes among them. From an interface
that it implements it has what declarations lead to, but not what the parents of that
interface add. -/
namespace Reprieve.Lineage
open Relation (ReflTransGen TransGen)
variable {rs : List ClassRecord}

/-! ### The chain of a class and the chain of its parent -/

/-- The longest beginning of a chain in which no name has the key. -/
structure LongestWithout (k : String) (l m : List ClassName) : Prop where
  begins : l <+: m
  without : k ∉ l.map ClassName.key
  longest : ∀ l', l' <+: m → k ∉ l'.map ClassName.key → l' <+: l

theorem longestWithout_takeWhile (k : String) (m : List ClassName) :
    LongestWithout k (m.takeWhile fun a => a.key != k) m := by
  refine ⟨List.takeWhile_prefix _, ?without, ?longest⟩
  case without =>
    intro hk
    obtain ⟨a, ha, hak⟩ := List.mem_map.1 hk
    have hne := List.mem_takeWhile_imp (p := fun a : ClassName => a.key != k) ha
    simp [hak] at hne
  case longest =>
    intro l hl hk
    obtain ⟨t, rfl⟩ := hl
    have hne : ∀ a ∈ l, (a.key != k) = true := by
      intro a ha
      have hak : a.key ≠ k := fun he => hk (he ▸ List.mem_map_of_mem ha)
      simpa using hak
    rw [List.takeWhile_append_of_pos hne]
    exact List.prefix_append _ _

/-- A climb that has met one key more goes the same way and stops where that key comes. -/
theorem climb_cut (k : String) (seen : List String) (next : Option String) :
    climb rs (seen ++ [k]) next = (climb rs seen next).takeWhile fun a => a.key != k := by
  refine climb_induction
    (motive := fun seen next l =>
      climb rs (seen ++ [k]) next = l.takeWhile fun a => a.key != k)
    ?absent ?repeated ?fresh seen next
  case absent => simp [climb]
  case repeated =>
    intro seen p hp
    rw [climb_of_mem (List.mem_append_left _ hp)]
    rfl
  case fresh =>
    intro seen p l hp ih
    by_cases hk : ClassName.keyOf p = k
    · -- the only key that stops one climb and not the other
      have hm : ClassName.keyOf p ∈ seen ++ [k] := by simp [hk]
      rw [climb_of_mem hm]
      simp [ClassName.key_ofText, hk]
    · have hm : ClassName.keyOf p ∉ seen ++ [k] := by simp [hp, hk]
      rw [climb_of_not_mem hm, ← List.cons_append, ih]
      simp [ClassName.key_ofText, hk]

theorem Distinct.ancestors_eq_cons (hd : Distinct rs) {c p : ClassRecord} (hp : p ∈ rs)
    {n : String} (hn : c.parent = some n) (hnp : ClassName.keyOf n = ClassName.keyOf p.name)
    (hne : ClassName.keyOf p.name ≠ ClassName.keyOf c.name) :
    ancestors rs c =
      .ofText n :: (ancestors rs p).takeWhile fun a => a.key != ClassName.keyOf c.name := by
  have hm : ClassName.keyOf n ∉ [ClassName.keyOf c.name] := by simpa [hnp] using hne
  rw [ancestors, hn, climb_of_not_mem hm, hnp, hd.parent?_keyOf hp, ancestors, ← climb_cut]
  rfl

/-! ### Interfaces from above and from below -/

theorem Implements.of_parents {a b k : String} (hab : ReflTransGen (Parent rs) a b)
    (h : Implements rs b k) : Implements rs a k := by
  obtain ⟨r, hr, hbr, i, hi, hk⟩ := h
  exact ⟨r, hr, hab.trans hbr, i, hi, hk⟩

theorem Implements.declares {a b k : String} (h : Implements rs a b)
    (hbk : ReflTransGen (Declares rs) b k) : Implements rs a k := by
  obtain ⟨r, hr, har, i, hi, hb⟩ := h
  exact ⟨r, hr, har, i, hi, hb.trans hbk⟩

/-- An interface comes from declarations alone, or from a record that lies truly above. -/
theorem Implements.own_or_above {a k : String} (h : Implements rs a k) :
    TransGen (Declares rs) a k ∨
      ∃ r ∈ rs, ClassName.keyOf r.name ≠ a ∧
        TransGen (Parent rs) a (ClassName.keyOf r.name) ∧
        Implements rs (ClassName.keyOf r.name) k := by
  obtain ⟨r, hr, har, i, hi, hk⟩ := h
  by_cases he : ClassName.keyOf r.name = a
  · exact .inl (he ▸ .head' ⟨r, hr, i, hi, rfl, rfl⟩ hk)
  · have hup : TransGen (Parent rs) a (ClassName.keyOf r.name) :=
      (Relation.reflTransGen_iff_eq_or_transGen.1 har).resolve_left he
    exact .inr ⟨r, hr, he, hup, r, hr, .refl, i, hi, hk⟩

end Reprieve.Lineage

/-! ### Classes of an index -/

namespace Reprieve.Index
open Lineage
open Relation (ReflTransGen TransGen)

/-- A class whose parent is another class of the snapshot. Its ancestors are the parent,
spelled as the class spells it, and then those of the parent up to the class itself. It
implements whatever the parent implements. No parent loop is excluded. -/
theorem child_inherits {s : Snapshot} (hd : Distinct s.classes) {c p : ClassRecord}
    (hc : c ∈ s.classes) (hp : p ∈ s.classes) {n : String} (hn : c.parent = some n)
    (hnp : ClassName.keyOf n = ClassName.keyOf p.name)
    (hne : ClassName.keyOf p.name ≠ ClassName.keyOf c.name) :
    ∃ ix d e, ofSnapshot s = .ok ix ∧ ix.class? c.name = some d ∧ ix.class? p.name = some e ∧
      (∃ l, d.ancestors = .ofText n :: l ∧
        LongestWithout (ClassName.keyOf c.name) l e.ancestors) ∧
      ∀ k, e.implements k = true → d.implements k = true := by
  obtain ⟨ix, hix, ho⟩ := ofSnapshot_of_distinct hd
  refine ⟨ix, Descriptor.resolve s.classes c, Descriptor.resolve s.classes p, hix,
    ho.class?_of_mem hc rfl, ho.class?_of_mem hp rfl, ?chain, ?interfaces⟩
  case chain =>
    rw [Descriptor.resolve_ancestors, Descriptor.resolve_ancestors]
    exact ⟨_, hd.ancestors_eq_cons hp hn hnp hne, longestWithout_takeWhile _ _⟩
  case interfaces =>
    intro k hk
    have hcp : Parent s.classes (ClassName.keyOf c.name) (ClassName.keyOf p.name) :=
      ⟨c, hc, n, rfl, hn, hnp⟩
    rw [hd.implements_resolve_iff hp] at hk
    rw [hd.implements_resolve_iff hc]
    exact hk.of_parents (.single hcp)

theorem looped_first_inherits :
    Distinct looped.classes ∧ first ∈ looped.classes ∧ second ∈ looped.classes ∧
      first.parent = some "App\\second" ∧
      ClassName.keyOf "App\\second" = ClassName.keyOf second.name ∧
      ClassName.keyOf second.name ≠ ClassName.keyOf first.name ∧
      ∃ ix d e, ofSnapshot looped = .ok ix ∧ ix.class? "App\\First" = some d ∧
        ix.class? "\\App\\Second" = some e ∧
        (∃ l, d.ancestors = .ofText "App\\second" :: l ∧
          LongestWithout (ClassName.keyOf "App\\First") l e.ancestors) ∧
        ∀ k, e.implements k = true → d.implements k = true := by
  have hf : first ∈ looped.classes := by simp [looped]
  have hs : second ∈ looped.classes := by simp [looped]
  have hk : ClassName.keyOf "App\\second" = ClassName.keyOf second.name := by decide
  have hne : ClassName.keyOf second.name ≠ ClassName.keyOf first.name := by decide
  exact ⟨looped_distinct, hf, hs, rfl, hk, hne, child_inherits looped_distinct hf hs rfl hk hne⟩

/-- A class that implements an interface has all that the interface has exactly when it
has all that the ancestors of the interface have. Where the interface has none, nothing
is missing. -/
theorem implements_through_iff {s : Snapshot} {ix : Index} (h : ofSnapshot s = .ok ix)
    {c i : Descriptor} (hc : c ∈ ix.classes) (hi : i ∈ ix.classes)
    (hci : c.implements i.name.declared = true) :
    (∀ n, i.implements n = true → c.implements n = true) ↔
      ∀ a ∈ i.ancestors, ∀ d, ix.class? a.declared = some d →
        ∀ n, d.implements n = true → c.implements n = true := by
  have ho := of_ofSnapshot h
  have hd := ho.distinct
  rw [ho.classes] at hc hi
  obtain ⟨r, hr, rfl⟩ := List.mem_map.1 hc
  obtain ⟨q, hq, rfl⟩ := List.mem_map.1 hi
  rw [hd.implements_resolve_iff hr, Descriptor.resolve_name, ClassName.keyOf_declared,
    ClassName.key_ofText] at hci
  rw [Descriptor.resolve_ancestors]
  constructor
  · intro hall a ha d hda n hn
    obtain ⟨u, hu, hua, rfl⟩ := (ho.class?_eq_some_iff _ _).1 hda
    rw [ClassName.keyOf_declared] at hua
    have hqu : TransGen (Parent s.classes) (ClassName.keyOf q.name) (ClassName.keyOf u.name) := by
      rw [hua]
      exact ((hd.mem_ancestors_iff hq _).1 (List.mem_map_of_mem ha)).2
    rw [hd.implements_resolve_iff hu] at hn
    exact hall n ((hd.implements_resolve_iff hq n).2 (hn.of_parents hqu.to_reflTransGen))
  · intro habove n hn
    rw [hd.implements_resolve_iff hq] at hn
    cases hn.own_or_above with
    | inl hown =>
      rw [hd.implements_resolve_iff hr]
      exact hci.declares hown.to_reflTransGen
    | inr hup =>
      obtain ⟨u, hu, hne, hqu, hun⟩ := hup
      obtain ⟨a, ha, hau⟩ := List.mem_map.1 ((hd.mem_ancestors_iff hq _).2 ⟨hne, hqu⟩)
      have hua : ix.class? a.declared = some (Descriptor.resolve s.classes u) :=
        ho.class?_of_mem hu (by rw [ClassName.keyOf_declared, hau])
      exact habove a ha _ hua n ((hd.implements_resolve_iff hu n).2 hun)

theorem looped_child_through_marked :
    ∃ ix c i, ofSnapshot looped = .ok ix ∧ ix.class? "App\\Child" = some c ∧
      ix.class? "App\\Marked" = some i ∧ c ∈ ix.classes ∧ i ∈ ix.classes ∧
      c.implements i.name.declared = true ∧ i.ancestors = [] ∧
      ∀ n, i.implements n = true → c.implements n = true := by
  obtain ⟨ix, hix, ho⟩ := ofSnapshot_of_distinct looped_distinct
  have hc : child ∈ looped.classes := by simp [looped]
  have hm : marked ∈ looped.classes := by simp [looped]
  have hcx : Descriptor.resolve looped.classes child ∈ ix.classes := ho.resolve_mem hc
  have hmx : Descriptor.resolve looped.classes marked ∈ ix.classes := ho.resolve_mem hm
  have hcm : (Descriptor.resolve looped.classes child).implements
      (Descriptor.resolve looped.classes marked).name.declared = true := by
    rw [looped_distinct.implements_resolve_iff hc]
    exact ⟨first, by simp [looped], .single looped_parents.1, "App\\Marked", by simp [first],
      by rw [Descriptor.resolve_name]; exact .refl⟩
  have hnone : (Descriptor.resolve looped.classes marked).ancestors = [] := by
    rw [Descriptor.resolve_ancestors]
    simp [ancestors, marked, climb]
  refine ⟨ix, _, _, hix, ho.class?_of_mem hc (by decide), ho.class?_of_mem hm (by decide),
    hcx, hmx, hcm, hnone, ?_⟩
  rw [implements_through_iff hix hcx hmx hcm, hnone]
  simp

def audit : ClassRecord := { name := "App\\Audit", interfaces := ["App\\Listening"] }

def listening : ClassRecord :=
  { name := "App\\Listening", kind := .interface, parent := some "App\\Subscribing" }

def subscribing : ClassRecord :=
  { name := "App\\Subscribing", kind := .interface
    interfaces := ["Doctrine\\Common\\EventSubscriber"] }

/-- The interface of a class extends another one, which its record gives as a parent. -/
def grafted : Snapshot := { classes := [audit, listening, subscribing] }

theorem grafted_distinct : Distinct grafted.classes := by decide

theorem grafted_audit_implements {k : String}
    (h : Implements grafted.classes (ClassName.keyOf audit.name) k) : k = "app\\listening" := by
  obtain ⟨r, hr, har, i, hi, hk⟩ := h
  have hri : i ∈ declaredBy grafted.classes (ClassName.keyOf r.name) :=
    (grafted_distinct.mem_declaredBy_iff _ _).2 ⟨r, hr, rfl, hi⟩
  cases har.cases_head with
  | inr hup =>
    obtain ⟨b, ⟨q, hq, p, hqa, hqp, -⟩, -⟩ := hup
    have hp : parent? grafted.classes (ClassName.keyOf audit.name) = some p :=
      (grafted_distinct.parent?_eq_some_iff _ _).2 ⟨q, hq, hqa, hqp⟩
    have hno : parent? grafted.classes (ClassName.keyOf audit.name) = none := by decide
    cases hno.symm.trans hp
  | inl hra =>
    have hd : declaredBy grafted.classes (ClassName.keyOf audit.name) = ["App\\Listening"] := by
      decide
    rw [← hra, hd] at hri
    obtain rfl : i = "App\\Listening" := by simpa using hri
    cases hk.cases_head with
    | inl he =>
      rw [← he]
      decide
    | inr hdown =>
      obtain ⟨b, hb, -⟩ := hdown
      obtain ⟨j, hj, -⟩ := grafted_distinct.exists_declaredBy hb
      have hno : declaredBy grafted.classes (ClassName.keyOf "App\\Listening") = [] := by decide
      simp [hno] at hj

/-- What an interface has from a parent does not come down with the interface. -/
theorem implements_not_transitive :
    ∃ ix c i, ofSnapshot grafted = .ok ix ∧ ix.class? "App\\Audit" = some c ∧
      ix.class? "App\\Listening" = some i ∧ c ∈ ix.classes ∧ i ∈ ix.classes ∧
      c.implements i.name.declared = true ∧
      i.implements "Doctrine\\Common\\EventSubscriber" = true ∧
      c.implements "Doctrine\\Common\\EventSubscriber" = false := by
  obtain ⟨ix, hix, ho⟩ := ofSnapshot_of_distinct grafted_distinct
  have ha : audit ∈ grafted.classes := by simp [grafted]
  have hl : listening ∈ grafted.classes := by simp [grafted]
  have hs : subscribing ∈ grafted.classes := by simp [grafted]
  refine ⟨ix, _, _, hix, ho.class?_of_mem ha (by decide), ho.class?_of_mem hl (by decide),
    ho.resolve_mem ha, ho.resolve_mem hl, ?declared, ?above, ?missing⟩
  case declared =>
    rw [grafted_distinct.implements_resolve_iff ha, Descriptor.resolve_name]
    exact ⟨audit, ha, .refl, "App\\Listening", by simp [audit], .refl⟩
  case above =>
    rw [grafted_distinct.implements_resolve_iff hl]
    have hp : Parent grafted.classes (ClassName.keyOf listening.name)
        (ClassName.keyOf subscribing.name) :=
      ⟨listening, hl, "App\\Subscribing", rfl, rfl, by decide⟩
    exact ⟨subscribing, hs, .single hp, _, List.mem_cons_self, .refl⟩
  case missing =>
    rw [Bool.eq_false_iff, ne_eq, grafted_distinct.implements_resolve_iff ha]
    intro hk
    exact absurd (grafted_audit_implements hk) (by decide)

end Reprieve.Index
