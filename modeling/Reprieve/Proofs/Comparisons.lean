import Reprieve.Proofs.History
import Reprieve.Proofs.Spelling

/-! Comparisons of class names. However two names are compared, what counts is whether one
respells the other. Names that respell each other have one place in the order, and they are
one name to an index. -/
namespace Reprieve

/-- A comparison that puts the classes of an equality in line. -/
structure OrdersClasses (α : Type) [BEq α] [Ord α] : Prop where
  equivalence : Equivalence fun a b : α => (a == b) = true
  congr {a a' b b' : α} : (a == a') = true → (b == b') = true → compare a b = compare a' b'
  total (a b : α) : (compare a b).isLE = true ∨ (compare b a).isLE = true
  antisymm {a b : α} : (compare a b).isLE = true → (compare b a).isLE = true → (a == b) = true
  trans {a b c : α} :
    (compare a b).isLE = true → (compare b c).isLE = true → (compare a c).isLE = true

namespace ClassName

theorem beq_iff (m n : ClassName) : (m == n) = true ↔ m.key = n.key :=
  beq_iff_eq (a := m.key)

theorem compare_eq_iff (m n : ClassName) : compare m n = .eq ↔ m.key = n.key :=
  Std.compare_eq_iff_eq (a := m.key)

/-- Names stand in the order of their keys, so the laws are those of texts. -/
theorem ordersClasses : OrdersClasses ClassName where
  equivalence := by
    simp only [beq_iff]
    exact ⟨fun _ => rfl, Eq.symm, Eq.trans⟩
  congr {m m' n n'} hm hn := by
    change compare m.key n.key = compare m'.key n'.key
    rw [(beq_iff m m').1 hm, (beq_iff n n').1 hn]
  total m n := by
    have hswap : compare n.key m.key = (compare m.key n.key).swap := Std.OrientedOrd.eq_swap
    change (compare m.key n.key).isLE = true ∨ (compare n.key m.key).isLE = true
    rw [hswap]
    cases compare m.key n.key <;> decide
  antisymm {m n} hmn hnm := by
    have heq : compare m.key n.key = .eq := Std.OrientedCmp.isLE_antisymm hmn hnm
    exact (beq_iff m n).2 (Std.compare_eq_iff_eq.1 heq)
  trans {m n o} hmn hno := Std.TransOrd.isLE_trans (a := m.key) hmn hno

/-! ### Keys and declared spellings -/

/-- No letter becomes a backslash, so a key has none at its beginning. -/
theorem bareName_keyOf (s : String) : bareName (keyOf s).toList = (keyOf s).toList := by
  rw [keyOf, String.toList_ofList, bareName_fold, bareName_of_head? (head?_bareName _)]

theorem keyOf_keyOf (s : String) : keyOf (keyOf s) = keyOf s := by
  have hfold : Text.fold (keyOf s).toList = (keyOf s).toList := by
    rw [keyOf, String.toList_ofList, Text.fold_fold]
  rw [keyOf, bareName_keyOf, hfold, String.ofList_toList]

theorem declared_ofText_keyOf (s : String) : (ofText (keyOf s)).declared = keyOf s := by
  change String.ofList (bareName (keyOf s).toList) = keyOf s
  rw [bareName_keyOf, String.ofList_toList]

/-- Every comparison of two names decides whether one respells the other, keys and declared
spellings are read as they are, and an index finds a class under the names that respell its
own and under no other. -/
theorem comparisons_coincide (a b : String) :
    ((ofText a).matchesText b = true ↔ Respells a b) ∧
    ((ofText a == ofText b) = true ↔ Respells a b) ∧
    (compare (ofText a) (ofText b) = .eq ↔ Respells a b) ∧
    ((ofText a).key = (ofText b).key ↔ Respells a b) ∧
    (keyOf a = keyOf b ↔ Respells a b) ∧
    (∀ arguments, Tag.isNamed ⟨ofText a, arguments⟩ b = true ↔ Respells a b) ∧
    OrdersClasses ClassName ∧
    (keyOf (keyOf a) = keyOf a ∧ (ofText (keyOf a)).declared = keyOf a ∧
      ofText (ofText a).declared = ofText a) ∧
    ∀ ix cs, Index.Filled ix cs → ∀ c ∈ ix.classes, (c.name == ofText a) = true →
      (ix.class? b = some c ↔ Respells a b) := by
  rw [respells_iff_keyOf_eq, beq_iff, compare_eq_iff, matchesText_iff, key_ofText, key_ofText]
  refine ⟨.rfl, .rfl, .rfl, .rfl, .rfl, fun arguments => ?tag, ordersClasses,
    ⟨keyOf_keyOf a, declared_ofText_keyOf a, ofText_declared _⟩, ?index⟩
  case tag => rw [Tag.isNamed_iff, key_ofText]
  case index =>
    intro ix cs h c hc hname
    have hkey : c.name.key = keyOf a := by rwa [beq_iff, key_ofText] at hname
    rw [h.holds.aligned.class?_eq_some_iff, hkey]
    exact and_iff_right hc

def elan : Descriptor := { name := .ofText "App\\Élan" }

/-- A letter that is not in ASCII keeps its case: it tells two names apart. -/
theorem elan_found_as_respelled :
    Index.Filled (Index.insert {} elan) [elan] ∧ elan ∈ (Index.insert {} elan).classes ∧
    (Index.insert {} elan).class? "\\\\APP\\ÉLAN" = some elan ∧
    (Index.insert {} elan).class? "App\\élan" ≠ some elan := by
  have hfilled : Index.Filled (Index.insert {} elan) [elan] := Index.Filled.empty.insert elan
  have hmem : elan ∈ (Index.insert {} elan).classes := List.mem_singleton_self elan
  have hfound (b : String) :
      (Index.insert {} elan).class? b = some elan ↔ Respells "App\\Élan" b := by
    obtain ⟨-, -, -, -, -, -, -, -, hindex⟩ := comparisons_coincide "App\\Élan" b
    exact hindex _ _ hfilled _ hmem (by decide)
  refine ⟨hfilled, hmem, (hfound _).2 (by decide), fun h => ?_⟩
  exact absurd ((hfound _).1 h) (by decide)

end ClassName
end Reprieve
