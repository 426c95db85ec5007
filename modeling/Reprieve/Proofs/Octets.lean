import Mathlib.Order.Compare
import Mathlib.Data.String.Basic
import Reprieve.Text

/-! Texts in the order of their octets. The greater of two characters has the greater octet
where their octets first differ, and none begins the other, so texts are ordered as their
octets in UTF-8 are. -/
namespace Reprieve.Text

def utf8 (s : String) : List UInt8 := s.toUTF8.data.toList

theorem utf8_eq_flatMap (s : String) : utf8 s = s.toList.flatMap String.utf8EncodeChar := by
  rw [utf8, String.toUTF8, ← String.utf8Encode_toList, List.utf8Encode,
    List.toList_data_toByteArray]

/-! ### Octets that differ -/

/-- Told apart by an octet of both, which is less in the first. -/
def Below (k l : List UInt8) : Prop :=
  ∃ p x u y w, k = p ++ x :: u ∧ l = p ++ y :: w ∧ x < y

theorem Below.append_lt {k l : List UInt8} (h : Below k l) (u w : List UInt8) :
    k ++ u < l ++ w := by
  obtain ⟨p, x, k, y, l, rfl, rfl, hlt⟩ := h
  simp only [List.append_assoc, List.cons_append]
  exact List.append_left_lt (List.cons_lt_cons_iff.2 (.inl hlt))

theorem Below.cons {k l : List UInt8} (h : Below k l) (x : UInt8) : Below (x :: k) (x :: l) := by
  obtain ⟨p, y, u, z, w, rfl, rfl, hlt⟩ := h
  exact ⟨x :: p, y, u, z, w, rfl, rfl, hlt⟩

theorem below_of_head {m n : Nat} (h : m < n) (hn : n < 256) (k l : List UInt8) :
    Below (UInt8.ofNat m :: k) (UInt8.ofNat n :: l) :=
  ⟨[], _, k, _, l, rfl, rfl, (UInt8.ofNat_lt_iff_lt (h.trans hn) hn).2 h⟩

/-! ### The octets of a character -/

/-- The last digits to the base 64, as the octets that follow the first one. -/
def trail : Nat → Nat → List UInt8
  | 0, _ => []
  | k + 1, n => UInt8.ofNat (n / 64 ^ k % 64 + 128) :: trail k n

theorem below_trail {m n : Nat} (h : m < n) (k : Nat) (hk : m / 64 ^ k = n / 64 ^ k) :
    Below (trail k m) (trail k n) := by
  induction k with
  | zero => simp only [Nat.pow_zero, Nat.div_one] at hk; omega
  | succ k ih =>
    simp only [trail]
    by_cases hd : m / 64 ^ k = n / 64 ^ k
    · rw [hd]
      exact (ih hd).cons _
    · rw [Nat.pow_succ, ← Nat.div_div_eq_div_mul, ← Nat.div_div_eq_div_mul] at hk
      have hle : m / 64 ^ k ≤ n / 64 ^ k := Nat.div_le_div_right h.le
      exact below_of_head (by omega) (by omega) _ _

def trailing (n : Nat) : Nat :=
  if n ≤ 0x7f then 0 else if n ≤ 0x7ff then 1 else if n ≤ 0xffff then 2 else 3

def lead : Nat → Nat
  | 0 => 0
  | 1 => 0xc0
  | 2 => 0xe0
  | _ => 0xf0

def octet (n : Nat) : Nat := n / 64 ^ trailing n + lead (trailing n)

theorem toNat_lt (c : Char) : c.toNat < 0x110000 := by
  have h := c.valid
  simp only [UInt32.isValidChar, Nat.isValidChar, Char.toNat_val] at h
  omega

theorem encode_eq (c : Char) : String.utf8EncodeChar c =
    UInt8.ofNat (octet c.toNat) :: trail (trailing c.toNat) c.toNat := by
  have hc := toNat_lt c
  simp only [String.utf8EncodeChar, Char.toNat_val, octet, trailing]
  split
  · simp [lead, trail]
  split
  · have hfirst : c.toNat / 64 % 32 = c.toNat / 64 := by omega
    simp [lead, trail, hfirst]
  split
  · have hfirst : c.toNat / 4096 % 16 = c.toNat / 4096 := by omega
    simp [lead, trail, hfirst]
  · have hfirst : c.toNat / 262144 % 8 = c.toNat / 262144 := by omega
    simp [lead, trail, hfirst]

theorem octet_lt {n : Nat} (h : n < 0x110000) : octet n < 256 := by
  simp only [octet, trailing]
  split_ifs <;> simp only [lead] <;> omega

theorem octet_lt_octet {m n : Nat} (h : trailing m < trailing n) : octet m < octet n := by
  simp only [octet, trailing] at h ⊢
  split_ifs at h ⊢ <;> simp only [lead] <;> omega

theorem trailing_mono {m n : Nat} (h : m ≤ n) : trailing m ≤ trailing n := by
  simp only [trailing]
  split_ifs <;> omega

theorem below_encode {c d : Char} (h : c < d) :
    Below (String.utf8EncodeChar c) (String.utf8EncodeChar d) := by
  have hlt : c.toNat < d.toNat := UInt32.lt_iff_toNat_lt.1 (Char.lt_def.1 h)
  have hd : octet d.toNat < 256 := octet_lt (toNat_lt d)
  rw [encode_eq, encode_eq]
  cases (trailing_mono hlt.le).lt_or_eq with
  | inl hmore => exact below_of_head (octet_lt_octet hmore) hd _ _
  | inr hsame =>
    -- as many octets: the first ones differ, or the numbers have the same first digit
    by_cases hfirst : octet c.toNat = octet d.toNat
    · rw [hfirst, hsame]
      refine (below_trail hlt _ ?_).cons _
      simpa only [octet, hsame, Nat.add_right_cancel_iff] using hfirst
    · have hle : octet c.toNat ≤ octet d.toNat := by
        simp only [octet, hsame]
        exact Nat.add_le_add_right (Nat.div_le_div_right hlt.le) _
      exact below_of_head (by omega) hd _ _

/-! ### The octets of a text -/

theorem flatMap_encode_lt {l m : List Char} (h : l < m) :
    l.flatMap String.utf8EncodeChar < m.flatMap String.utf8EncodeChar := by
  induction l generalizing m with
  | nil =>
    cases m with
    | nil => exact absurd h (List.not_lt_nil _)
    | cons d m =>
      rw [List.flatMap_nil, List.flatMap_cons, encode_eq]
      exact List.nil_lt_cons _ _
  | cons c l ih =>
    cases m with
    | nil => exact absurd h (List.not_lt_nil _)
    | cons d m =>
      rw [List.flatMap_cons, List.flatMap_cons]
      rcases List.cons_lt_cons_iff.1 h with hcd | ⟨rfl, hlm⟩
      · exact (below_encode hcd).append_lt _ _
      · exact List.append_left_lt (ih hlm)

theorem utf8_lt_iff (s t : String) : utf8 s < utf8 t ↔ s < t := by
  have hmono {s t : String} (h : s < t) : utf8 s < utf8 t := by
    rw [utf8_eq_flatMap, utf8_eq_flatMap]
    exact flatMap_encode_lt (String.lt_iff.1 h)
  refine ⟨fun h => ?_, hmono⟩
  rcases lt_trichotomy s t with hst | rfl | hts
  · exact hst
  · exact absurd h (List.lt_irrefl _)
  · exact absurd h (List.lt_asymm (hmono hts))

theorem compare_eq_lt_iff_utf8 (s t : String) : compare s t = .lt ↔ utf8 s < utf8 t := by
  rw [utf8_lt_iff, compare_lt_iff_lt]

end Reprieve.Text
