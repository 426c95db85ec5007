import Mathlib.Data.List.Basic
import Reprieve.Text

/-! Decimal numerals: the digits of a number write that number, and of all characters the
ten digits alone can stand in a decimal numeral. -/
namespace Reprieve.Text

theorem isDigit_iff (c : Char) : isDigit c = true ↔ c.isDigit = true := by
  simp [isDigit, Char.isDigit, Char.le_def, UInt32.le_iff_toNat_le]

theorem isHexDigit_of_isDigit {c : Char} (h : c.isDigit = true) : isHexDigit c = true := by
  rw [isHexDigit, (isDigit_iff c).2 h, Bool.true_or, Bool.true_or]

theorem digitValue_of_isDigit {c : Char} (h : c.isDigit = true) :
    digitValue c = c.toNat - '0'.toNat := by
  rw [digitValue, if_pos ((isDigit_iff c).2 h)]

theorem digitValue_lt_ten_iff (c : Char) : digitValue c < 10 ↔ c.isDigit = true := by
  rw [← isDigit_iff]
  by_cases hd : isDigit c = true
  · have hc : '0'.toNat ≤ c.toNat ∧ c.toNat ≤ '9'.toNat := by
      simpa [isDigit, Char.le_def, UInt32.le_iff_toNat_le] using hd
    simp only [digitValue, hd, if_true, iff_true]
    have h0 : '0'.toNat = 48 := rfl
    have h9 : '9'.toNat = 57 := rfl
    omega
  · simp only [digitValue, hd, if_false, iff_false, Bool.false_eq_true]
    split <;> omega

theorem foldl_digits {ds : List Char} (h : ∀ c ∈ ds, c.isDigit = true) (n : Nat) :
    ds.foldl (fun n c => n * 10 + digitValue c) n = Nat.ofDigitChars 10 ds n := by
  induction ds generalizing n with
  | nil => simp
  | cons c ds ih =>
    rw [List.foldl_cons, ih (fun d hd => h d (List.mem_cons_of_mem c hd)), Nat.ofDigitChars_cons,
      digitValue_of_isDigit (h c List.mem_cons_self), Nat.mul_comm]

theorem numeral_digits {ds : List Char} (h : ∀ c ∈ ds, c.isDigit = true) :
    numeral 10 ds = Nat.ofDigitChars 10 ds 0 :=
  foldl_digits h 0

theorem numeral?_eq_some_iff (ds : List Char) (n : Nat) :
    numeral? 10 ds = some n ↔
      ds ≠ [] ∧ (∀ c ∈ ds, c.isDigit = true) ∧ Nat.ofDigitChars 10 ds 0 = n := by
  have hall : ds.all (fun c => isHexDigit c && decide (digitValue c < 10)) = true ↔
      ∀ c ∈ ds, c.isDigit = true := by
    simp only [List.all_eq_true, Bool.and_eq_true, decide_eq_true_eq, digitValue_lt_ten_iff]
    exact forall₂_congr fun c _ => and_iff_right_of_imp isHexDigit_of_isDigit
  rw [numeral?]
  by_cases hd : ds ≠ [] ∧ ∀ c ∈ ds, c.isDigit = true
  · rw [if_pos (by simpa [hall] using hd), numeral_digits hd.2, Option.some.injEq]
    exact ⟨fun h => ⟨hd.1, hd.2, h⟩, fun h => h.2.2⟩
  · rw [if_neg (by simpa [hall] using hd)]
    exact ⟨nofun, fun h => absurd ⟨h.1, h.2.1⟩ hd⟩

theorem isDigit_of_mem_toDigits {n : Nat} {c : Char} (h : c ∈ Nat.toDigits 10 n) :
    c.isDigit = true :=
  Nat.isDigit_of_mem_toDigits (by decide) (by decide) h

theorem numeral?_toDigits (n : Nat) : numeral? 10 (Nat.toDigits 10 n) = some n :=
  (numeral?_eq_some_iff _ n).2 ⟨Nat.toDigits_ne_nil, fun _ => isDigit_of_mem_toDigits,
    Nat.ofDigitChars_ten_toDigits⟩

theorem head?_toDigits {n : Nat} (h : n ≠ 0) : (Nat.toDigits 10 n).head? ≠ some '0' := by
  induction n using Nat.strongRecOn with
  | ind n ih =>
    by_cases hn : n < 10
    · rw [Nat.toDigits_of_lt_base hn]
      simpa using h
    · rw [Nat.toDigits_of_base_le (by decide) (by omega),
        List.head?_append_of_ne_nil _ Nat.toDigits_ne_nil]
      exact ih (n / 10) (by omega) (by omega)

theorem toList_toString (n : Int) : (toString n).toList =
    if n < 0 then '-' :: Nat.toDigits 10 n.natAbs else Nat.toDigits 10 n.natAbs := by
  rw [Int.toString_eq_repr, Int.repr_eq_if]
  by_cases hn : n < 0
  · have habs : (-n).toNat = n.natAbs := by omega
    rw [if_neg (by omega), if_pos hn, String.toList_append, Nat.toList_repr, habs]
    rfl
  · have habs : n.toNat = n.natAbs := by omega
    rw [if_pos (by omega), if_neg hn, Nat.toList_repr, habs]

end Reprieve.Text
