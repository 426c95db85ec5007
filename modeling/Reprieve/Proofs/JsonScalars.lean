import Mathlib.Data.List.Basic
import Reprieve.Json.Read
import Reprieve.Json.Write
import Reprieve.Proofs.Decimal

/-! Scalars in JSON text. A quoted text is read as the text that was quoted, and the digits
of a whole number as that number, if it is not too wide. -/
namespace Reprieve.Json

/-! ### Quoted texts -/

/-- How a character comes back: one that has no short escape as its code. -/
def Glyph.ofChar (c : Char) : Glyph :=
  if c.toNat < 32 ∧ c ∉ ['\n', '\r', '\t', '\x08', '\x0c'] then .code c.toNat else .char c

def Quoted.ofText (s : String) : Quoted := ⟨s.toList.map Glyph.ofChar, none⟩

theorem hexPair_lt {n : Nat} (h : n < 32) :
    ['0', '0', Nat.digitChar (n / 16), Nat.digitChar (n % 16)].all Text.isHexDigit = true ∧
      Text.numeral 16 ['0', '0', Nat.digitChar (n / 16), Nat.digitChar (n % 16)] = n := by
  revert n
  decide

theorem eq_of_toNat {c d : Char} (h : c.toNat = d.toNat) : c = d := Char.toNat_inj.1 h

theorem read_escape (c : Char) (r : List Char) :
    Quoted.read (escape c ++ r) = Quoted.push (.ofChar c) (Quoted.read r) := by
  by_cases hshort : c ∈ ['"', '\\', '\n', '\r', '\t', '\x08', '\x0c']
  · simp only [List.mem_cons, List.not_mem_nil, or_false] at hshort
    rcases hshort with rfl | rfl | rfl | rfl | rfl | rfl | rfl <;> rfl
  · simp only [List.mem_cons, List.not_mem_nil, or_false, not_or] at hshort
    obtain ⟨hq, hb, hn, hr, ht, h8, h12⟩ := hshort
    have h8' : c.toNat ≠ 8 := fun h => h8 (eq_of_toNat h)
    have h12' : c.toNat ≠ 12 := fun h => h12 (eq_of_toNat h)
    by_cases hc : c.toNat < 32
    · have hg : Glyph.ofChar c = .code c.toNat := by simp [Glyph.ofChar, *]
      have he : escape c = '\\' :: 'u' :: '0' :: '0' :: hexPair c.toNat := by
        rw [escape.eq_6 c hq hb hn hr ht, if_neg h8', if_neg h12', if_pos hc]
      rw [hg, he]
      change Quoted.read ('\\' :: 'u' :: '0' :: '0' :: _ :: _ :: r) = _
      rw [Quoted.read, if_pos (hexPair_lt hc).1, (hexPair_lt hc).2]
    · have hg : Glyph.ofChar c = .char c := by simp [Glyph.ofChar, hc]
      have he : escape c = [c] := by
        rw [escape.eq_6 c hq hb hn hr ht, if_neg h8', if_neg h12', if_neg hc]
      rw [hg, he, List.singleton_append, Quoted.read, if_neg hc]
      all_goals (intros; simp_all)

theorem read_escapes (cs r : List Char) :
    Quoted.read (cs.flatMap escape ++ '"' :: r) = (⟨cs.map Glyph.ofChar, none⟩, some r) := by
  induction cs with
  | nil => rfl
  | cons c cs ih =>
    rw [List.flatMap_cons, List.append_assoc, read_escape, ih]
    rfl

theorem decode_ofChar (c : Char) (gs : List Glyph) (stop : Option Break) :
    decode (.ofChar c :: gs) stop = (c :: ·) <$> decode gs stop := by
  rw [Glyph.ofChar]
  split
  · rename_i h
    have htrail : isTrail c.toNat = false := by
      simp only [isTrail, Bool.and_eq_false_iff, decide_eq_false_iff_not]
      omega
    have hlead : isLead c.toNat = false := by
      simp only [isLead, Bool.and_eq_false_iff, decide_eq_false_iff_not]
      omega
    rw [decode.eq_def]
    simp only [htrail, hlead, Char.ofNat_toNat, Bool.false_eq_true, if_false]
    rfl
  · rfl

theorem value_ofText (s : String) : (Quoted.ofText s).value = .ok s := by
  have hdecode (cs : List Char) : decode (cs.map Glyph.ofChar) none = .ok cs := by
    induction cs with
    | nil => rfl
    | cons c cs ih =>
      rw [List.map_cons, decode_ofChar, ih]
      rfl
  rw [Quoted.value, Quoted.ofText, hdecode]
  exact congrArg Except.ok String.ofList_toList

/-! ### Numbers -/

/-- What may follow a number without being part of it. -/
def Ends (r : List Char) : Prop := ∀ c ∈ r.head?, c.isDigit = false ∧ c ∉ ['.', 'e', 'E']

theorem takeWhile_digits {ds r : List Char} (hd : ∀ c ∈ ds, c.isDigit = true) (hr : Ends r) :
    (ds ++ r).takeWhile Text.isDigit = ds ∧ (ds ++ r).dropWhile Text.isDigit = r := by
  have hds : ∀ c ∈ ds, Text.isDigit c = true := fun c hc => (Text.isDigit_iff c).2 (hd c hc)
  have hstop : r.takeWhile Text.isDigit = [] ∧ r.dropWhile Text.isDigit = r := by
    cases r with
    | nil => exact ⟨rfl, rfl⟩
    | cons c r =>
      have hc : Text.isDigit c ≠ true := by
        rw [ne_eq, Text.isDigit_iff, (hr c rfl).1]
        decide
      exact ⟨List.takeWhile_cons_of_neg hc, List.dropWhile_cons_of_neg hc⟩
  rw [List.takeWhile_append_of_pos hds, List.dropWhile_append_of_pos hds, hstop.1, hstop.2,
    List.append_nil]
  exact ⟨rfl, rfl⟩

theorem readPart_ends (n : Numeral) {r : List Char} (hr : Ends r) :
    readPart n r = (.number n, some r) := by
  cases r with
  | nil => rfl
  | cons c r =>
    have hc := (hr c rfl).2
    simp only [List.mem_cons, List.not_mem_nil, or_false, not_or] at hc
    have hpart : readPart n (c :: r) = readExponent n (c :: r) := by
      rw [readPart]
      rintro _ h
      exact hc.1 (List.cons.inj h).1
    rw [hpart, readExponent.eq_def]
    simp [hc]

def Numeral.ofNat (negative : Bool) (n : Nat) : Numeral :=
  ⟨negative, Nat.toDigits 10 n, none, none⟩

theorem readNumber_toDigits (negative : Bool) (n : Nat) {r : List Char} (hr : Ends r) :
    readNumber negative (Nat.toDigits 10 n ++ r) = (.number (.ofNat negative n), some r) := by
  by_cases hn : n = 0
  · subst hn
    have hhead : (r.head?.map Text.isDigit).getD false = false := by
      cases r with
      | nil => rfl
      | cons c r =>
        have hc := (hr c rfl).1
        rw [Bool.eq_false_iff] at hc ⊢
        exact fun h => hc ((Text.isDigit_iff c).1 h)
    rw [Nat.toDigits_zero, List.singleton_append, readNumber, hhead, readPart_ends _ hr]
    simp [Numeral.ofNat]
  · obtain ⟨ht, hd⟩ := takeWhile_digits (fun c => Text.isDigit_of_mem_toDigits (n := n) (c := c)) hr
    have hne : (Nat.toDigits 10 n).isEmpty = false := by simp
    rw [readNumber, ht, hd, hne, readPart_ends _ hr]
    · rfl
    · intro r' h
      refine Text.head?_toDigits hn ?_
      rw [← List.head?_append_of_ne_nil _ Nat.toDigits_ne_nil, h]
      rfl

theorem le_ofDigitChars (ds : List Char) (n : Nat) : n ≤ Nat.ofDigitChars 10 ds n := by
  rw [Nat.ofDigitChars_eq_ofDigitChars_zero]
  have : n ≤ 10 ^ ds.length * n := Nat.le_mul_of_pos_left n (Nat.pow_pos (by decide))
  omega

theorem wholeDigits_eq {ds : List Char} (hd : ∀ c ∈ ds, c.isDigit = true) (n : Nat)
    (h : Nat.ofDigitChars 10 ds n ≤ maxSignificand) :
    wholeDigits n ds = (Nat.ofDigitChars 10 ds n, 0) := by
  induction ds generalizing n with
  | nil => simp [wholeDigits]
  | cons c ds ih =>
    rw [Nat.ofDigitChars_cons, Nat.mul_comm,
      ← Text.digitValue_of_isDigit (hd c List.mem_cons_self)] at h ⊢
    rw [wholeDigits, if_pos (Nat.le_trans (le_ofDigitChars ds _) h),
      ih (fun d hd' => hd d (List.mem_cons_of_mem c hd')) _ h]

def Fits (n : Int) : Prop := -Int.pow 2 63 ≤ n ∧ n < Int.pow 2 64

theorem value?_ofNat {n : Int} (h : Fits n) :
    (Numeral.ofNat (decide (n < 0)) n.natAbs).value? = some (.int n) := by
  obtain ⟨hlow, hhigh⟩ := h
  have h63 : Int.pow 2 63 = 9223372036854775808 := by decide
  have h64 : Int.pow 2 64 = 18446744073709551616 := by decide
  rw [h63] at hlow
  rw [h64] at hhigh
  have hmax : maxSignificand = 18446744073709551615 := by decide
  have hpow : Nat.pow 2 63 = 9223372036854775808 := by decide
  have hwhole : wholeDigits 0 (Nat.toDigits 10 n.natAbs) = (n.natAbs, 0) := by
    rw [wholeDigits_eq (fun _ => Text.isDigit_of_mem_toDigits), Nat.ofDigitChars_ten_toDigits]
    rw [Nat.ofDigitChars_ten_toDigits]
    omega
  simp only [Numeral.value?, Numeral.ofNat, hwhole]
  by_cases hn : n < 0
  · have hpos : 0 < n.natAbs ∧ n.natAbs ≤ Nat.pow 2 63 := by omega
    have hneg : -(n.natAbs : Int) = n := by omega
    generalize n.natAbs = k at hpos hneg ⊢
    simp [hn, hpos, hneg]
  · have hpos : (n.natAbs : Int) = n := by omega
    generalize n.natAbs = k at hpos ⊢
    simp [hn, hpos]

end Reprieve.Json
