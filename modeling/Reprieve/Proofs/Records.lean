import Mathlib.Order.Bounds.Defs
import Reprieve.Proofs.Conventions

/-! Records and their classes. A snapshot is refused exactly at the first record that
repeats a name. Otherwise each record has its class, in its own place and under every
spelling of its name, and the class has all that the record declares. -/
namespace Reprieve
open ClassName (Respells)

/-! ### Repeated names -/

namespace Lineage

/-- A record before it has its name, in any spelling. -/
def Repeats (rs : List ClassRecord) (i : Nat) : Prop :=
  ∃ r q j, rs[i]? = some r ∧ rs[j]? = some q ∧ j < i ∧ Respells q.name r.name

theorem distinct_take_iff (rs : List ClassRecord) (n : Nat) :
    Distinct (rs.take n) ↔ ∀ i < n, ¬ Repeats rs i := by
  rw [Distinct, List.Nodup, List.pairwise_map, List.pairwise_iff_getElem]
  constructor
  · intro h i hi hrep
    obtain ⟨r, q, j, hr, hq, hji, hs⟩ := hrep
    obtain ⟨hir, rfl⟩ := List.getElem?_eq_some_iff.1 hr
    obtain ⟨hjq, rfl⟩ := List.getElem?_eq_some_iff.1 hq
    have hne := h j i (by simp; omega) (by simp; omega) hji
    simp only [List.getElem_take] at hne
    exact hne hs.keyOf_eq
  · intro h j i hj hi hji he
    simp only [List.length_take, Nat.lt_min] at hj hi
    simp only [List.getElem_take] at he
    exact h i hi.1 ⟨rs[i], rs[j], j, List.getElem?_eq_getElem hi.2, List.getElem?_eq_getElem hj.2,
      hji, (ClassName.respells_iff_keyOf_eq _ _).2 he⟩

theorem distinct_iff_not_repeats (rs : List ClassRecord) :
    Distinct rs ↔ ¬ ∃ i, Repeats rs i := by
  rw [not_exists, ← List.take_length (l := rs), distinct_take_iff, List.take_length]
  refine ⟨fun h i hrep => ?_, fun h i _ => h i⟩
  obtain ⟨r, -, -, hr, -⟩ := id hrep
  exact h i (List.getElem?_eq_some_iff.1 hr).1 hrep

end Lineage

namespace Index
open Lineage (Repeats Distinct)

theorem repeatsAt_iff_isLeast (rs : List ClassRecord) (i : Nat) (r : ClassRecord) :
    RepeatsAt rs i r ↔ IsLeast {i | Repeats rs i} i ∧ rs[i]? = some r := by
  constructor
  · intro h
    obtain ⟨q, hq, hk⟩ := List.mem_map.1 h.before
    obtain ⟨j, hj, rfl⟩ := List.mem_take_iff_getElem.1 hq
    have hrep : Repeats rs i := ⟨r, rs[j], j, h.here, List.getElem?_eq_getElem (by omega),
      by omega, (ClassName.respells_iff_keyOf_eq _ _).2 hk⟩
    refine ⟨⟨hrep, fun j hj => ?_⟩, h.here⟩
    exact Nat.le_of_not_lt fun hlt => (Lineage.distinct_take_iff rs i).1 h.first j hlt hj
  · intro h
    obtain ⟨⟨hrep, hleast⟩, hr⟩ := h
    obtain ⟨r', q, j, hr', hq, hji, hs⟩ := hrep
    obtain rfl := Option.some.inj (hr.symm.trans hr')
    obtain ⟨hj, rfl⟩ := List.getElem?_eq_some_iff.1 hq
    have hmem : rs[j] ∈ rs.take i := List.mem_take_iff_getElem.2 ⟨j, by omega, rfl⟩
    refine ⟨hr, List.mem_map.2 ⟨_, hmem, hs.keyOf_eq⟩, (Lineage.distinct_take_iff rs i).2 ?_⟩
    exact fun k hk hrep => Nat.not_lt.2 (hleast hrep) hk

end Index

/-! ### A record in its class -/

structure Method.Declared (r : MethodRecord) (m : Method) : Prop where
  name : m.name = r.name
  tags : m.tags = r.tags
  constructor : m.isConstructor = true ↔ Doctrine.Constructs r

/-- A class has what its record declares; of the name the leading backslashes go. -/
structure Descriptor.Declared (r : ClassRecord) (c : Descriptor) : Prop where
  name : ∃ k, r.name.toList = List.replicate k '\\' ++ c.name.declared.toList
  bare : c.name.declared.toList.head? ≠ some '\\'
  kind : c.kind = r.kind
  tags : c.tags = r.tags
  methods : List.Forall₂ Method.Declared r.methods c.methods

theorem Method.declared_ofRecord (r : MethodRecord) : (Method.ofRecord r).Declared r :=
  ⟨rfl, rfl, Doctrine.isConstructor_ofRecord_iff r⟩

theorem Descriptor.declared_resolve (rs : List ClassRecord) (r : ClassRecord) :
    (resolve rs r).Declared r := by
  refine ⟨?name, ClassName.bare _, resolve_kind rs r, resolve_tags rs r, ?methods⟩
  case name =>
    rw [resolve_name]
    obtain ⟨k, hk⟩ := exists_replicate_bareName r.name.toList
    exact ⟨k, by rw [ClassName.ofText, String.toList_ofList, ← hk]⟩
  case methods =>
    rw [resolve_methods, List.forall₂_map_right_iff]
    exact List.forall₂_same.2 fun m _ => Method.declared_ofRecord m

namespace Index
open Lineage (Repeats)

/-- A snapshot is refused exactly if a record repeats a name, with the name of the first
that does, as it stands there. Otherwise its index has one class for each record in the
order of the records. Each is found under every spelling of its name and has what its
record declares. -/
theorem ofSnapshot_keeps_records (s : Snapshot) :
    (∀ name, ofSnapshot s = .error name ↔
      ∃ i r, IsLeast {i | Repeats s.classes i} i ∧ s.classes[i]? = some r ∧ r.name = name) ∧
    ((∃ name, ofSnapshot s = .error name) ↔ ∃ i, Repeats s.classes i) ∧
    ((¬ ∃ i, Repeats s.classes i) → ∃ ix, ofSnapshot s = .ok ix ∧
      List.Forall₂ (fun r c => Descriptor.Declared r c ∧
        ∀ name, Respells r.name name → ix.class? name = some c) s.classes ix.classes) := by
  refine ⟨fun name => ?first, ?refused, fun h => ?kept⟩
  case first =>
    simp only [ofSnapshot_eq_error_iff, repeatsAt_iff_isLeast, and_assoc]
  case refused =>
    rw [refused_iff, Lineage.distinct_iff_not_repeats, not_not]
  case kept =>
    obtain ⟨ix, hix, ho⟩ := ofSnapshot_of_distinct ((Lineage.distinct_iff_not_repeats _).2 h)
    refine ⟨ix, hix, ?_⟩
    rw [ho.classes, List.forall₂_map_right_iff]
    exact List.forall₂_same.2 fun r hr =>
      ⟨Descriptor.declared_resolve s.classes r, fun _ hn => ho.class?_of_mem hr hn.keyOf_eq⟩

/-- The class that stands in no loop has its own method, under any spelling of its name. -/
theorem looped_child_kept : (¬ ∃ i, Repeats Lineage.looped.classes i) ∧
    ∃ ix c, ofSnapshot Lineage.looped = .ok ix ∧ ix.classes.head? = some c ∧
      Descriptor.Declared Lineage.child c ∧ ix.class? "\\\\APP\\child" = some c := by
  have hn := (Lineage.distinct_iff_not_repeats _).1 Lineage.looped_distinct
  obtain ⟨ix, hix, hall⟩ := (ofSnapshot_keeps_records Lineage.looped).2.2 hn
  obtain ⟨c, cs, ⟨hc, hname⟩, -, hcs⟩ := List.forall₂_cons_left_iff.1 hall
  exact ⟨hn, ix, c, hix, by rw [hcs]; rfl, hc, hname _ (by decide)⟩

example : ofSnapshot { classes := Lineage.looped.classes ++
    [{ name := "\\APP\\marked" }, { name := "app\\child" }] } = .error "\\APP\\marked" := rfl

end Index
end Reprieve
