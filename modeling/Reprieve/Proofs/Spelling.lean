import Mathlib.Data.List.Forall2
import Reprieve.Tag.Basic

/-! Spellings of class names. A key forgets leading backslashes and ASCII case
and nothing else, and every comparison of names is one of keys. -/
namespace Reprieve

theorem map_eq_map_iff_forall₂ {α β γ : Type} {f : α → γ} {g : β → γ} {l : List α}
    {l' : List β} : l.map f = l'.map g ↔ List.Forall₂ (fun a b => f a = g b) l l' := by
  rw [← List.forall₂_eq_eq_eq, List.forall₂_map_left_iff, List.forall₂_map_right_iff]

namespace Text

theorem isUpper_iff (c : Char) : c.isUpper = true ↔ 65 ≤ c.toNat ∧ c.toNat ≤ 90 :=
  decide_eq_true_iff

theorem toLower_of_not_isUpper {c : Char} (h : ¬ c.isUpper = true) : c.toLower = c :=
  dif_neg ((isUpper_iff c).not.1 h)

theorem toNat_toLower {c : Char} (h : c.isUpper = true) : c.toLower.toNat = c.toNat + 32 := by
  have hc := (isUpper_iff c).1 h
  have hval : c.toLower.val = c.val + 32 := congrArg Char.val (dif_pos hc)
  have hgap : UInt32.toNat 32 = 32 := rfl
  rw [← Char.toNat_val, hval, UInt32.toNat_add, hgap, Char.toNat_val]
  omega

theorem not_isUpper_toLower (c : Char) : ¬ c.toLower.isUpper = true := by
  by_cases h : c.isUpper = true
  · have hc := (isUpper_iff c).1 h
    rw [isUpper_iff, toNat_toLower h]
    omega
  · rwa [toLower_of_not_isUpper h]

theorem fold_fold (cs : List Char) : fold (fold cs) = fold cs := by
  simp [fold, toLower_of_not_isUpper (not_isUpper_toLower _)]

theorem toLower_eq_backslash (c : Char) : c.toLower = '\\' ↔ c = '\\' := by
  by_cases h : c.isUpper = true
  · have hc := (isUpper_iff c).1 h
    have hn := toNat_toLower h
    have hbackslash : '\\'.toNat = 92 := rfl
    constructor
    · intro he
      rw [he] at hn
      omega
    · rintro rfl
      omega
  · rw [toLower_of_not_isUpper h]

end Text

theorem bareName_fold (cs : List Char) : bareName (Text.fold cs) = Text.fold (bareName cs) := by
  have hf : ((· == '\\') ∘ Char.toLower) = (· == '\\') := by
    funext c
    rw [Bool.eq_iff_iff]
    simp [Text.toLower_eq_backslash]
  simp only [bareName, Text.fold, List.dropWhile_map, hf]

theorem bareName_replicate (j : Nat) (cs : List Char) :
    bareName (List.replicate j '\\' ++ cs) = bareName cs :=
  List.dropWhile_append_of_pos (by simp)

theorem bareName_of_head? {cs : List Char} (h : cs.head? ≠ some '\\') : bareName cs = cs := by
  cases cs with
  | nil => rfl
  | cons c cs =>
    have hc : c ≠ '\\' := by simpa using h
    simp [bareName, hc]

theorem exists_replicate_bareName (cs : List Char) :
    ∃ k, cs = List.replicate k '\\' ++ bareName cs := by
  refine ⟨(cs.takeWhile (· == '\\')).length, ?_⟩
  have ht : cs.takeWhile (· == '\\') =
      List.replicate (cs.takeWhile (· == '\\')).length '\\' :=
    List.eq_replicate_of_mem fun c hc => by
      simpa using List.all_eq_true.1 List.all_takeWhile c hc
  rw [← ht]
  exact List.takeWhile_append_dropWhile.symm

theorem bareName_eq_iff (cs u : List Char) :
    bareName cs = u ↔ (∃ k, cs = List.replicate k '\\' ++ u) ∧ u.head? ≠ some '\\' := by
  constructor
  · rintro rfl
    exact ⟨exists_replicate_bareName cs, head?_bareName cs⟩
  · intro h
    obtain ⟨⟨k, rfl⟩, hu⟩ := h
    rw [bareName_replicate, bareName_of_head? hu]

namespace ClassName

/-- Backslashes, as many as one likes, before texts that differ in ASCII case only. -/
def Respells (s t : String) : Prop :=
  ∃ j k u v, s.toList = List.replicate j '\\' ++ u ∧ t.toList = List.replicate k '\\' ++ v ∧
    List.Forall₂ (fun a b : Char => a.toLower = b.toLower) u v

theorem keyOf_eq_iff (s t : String) :
    keyOf s = keyOf t ↔ Text.fold (bareName s.toList) = Text.fold (bareName t.toList) := by
  constructor
  · intro h
    simpa [keyOf] using congrArg String.toList h
  · intro h
    rw [keyOf, keyOf, h]

theorem fold_eq_iff_forall₂ (u v : List Char) :
    Text.fold u = Text.fold v ↔ List.Forall₂ (fun a b : Char => a.toLower = b.toLower) u v :=
  map_eq_map_iff_forall₂

/-- A key tells names apart by their spelling up to backslashes and case, and by no more. -/
theorem respells_iff_keyOf_eq (s t : String) : Respells s t ↔ keyOf s = keyOf t := by
  rw [keyOf_eq_iff]
  constructor
  · intro h
    obtain ⟨j, k, u, v, hs, ht, huv⟩ := h
    rw [hs, ht, bareName_replicate, bareName_replicate, ← bareName_fold, ← bareName_fold,
      (fold_eq_iff_forall₂ u v).2 huv]
  · intro h
    obtain ⟨j, hj⟩ := exists_replicate_bareName s.toList
    obtain ⟨k, hk⟩ := exists_replicate_bareName t.toList
    exact ⟨j, k, _, _, hj, hk, (fold_eq_iff_forall₂ _ _).1 h⟩

theorem Respells.keyOf_eq {s t : String} (h : Respells s t) : keyOf s = keyOf t :=
  (respells_iff_keyOf_eq s t).1 h

instance (s t : String) : Decidable (Respells s t) :=
  decidable_of_iff _ (respells_iff_keyOf_eq s t).symm

theorem ofText_declared (n : ClassName) : ofText n.declared = n := by
  have hbare : String.ofList (bareName n.declared.toList) = n.declared := by
    rw [bareName_of_head? n.bare, String.ofList_toList]
  exact ClassName.ext hbare

theorem keyOf_declared (n : ClassName) : keyOf n.declared = n.key := by
  rw [keyOf, bareName_of_head? n.bare]
  rfl

theorem matchesText_iff (n : ClassName) (s : String) :
    n.matchesText s = true ↔ n.key = keyOf s := by
  rw [← keyOf_declared, keyOf_eq_iff, matchesText, ← keyOf_declared, beq_iff_eq, keyOf,
    String.toList_ofList, Text.fold_fold]

end ClassName

theorem Tag.isNamed_iff (t : Tag) (s : String) :
    t.isNamed s = true ↔ t.name.key = ClassName.keyOf s :=
  ClassName.matchesText_iff t.name s

end Reprieve
