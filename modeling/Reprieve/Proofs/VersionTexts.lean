import Reprieve.Proofs.Identifiers
import Reprieve.Proofs.Patches

/-! The texts of a version: its three parts with points between them, and the digits of its
identifier. Both are read as the version again, with blanks around them or none. -/
namespace Reprieve
open Text

namespace Text

theorem not_isBlank_of_isDigit {c : Char} (h : c.isDigit = true) : isBlank c = false := by
  have hc : '0'.toNat ≤ c.toNat ∧ c.toNat ≤ '9'.toNat := by
    simpa [Char.isDigit, Char.le_def, UInt32.le_iff_toNat_le] using h
  have h0 : '0'.toNat = 48 := rfl
  have h9 : '9'.toNat = 57 := rfl
  simp only [isBlank, Bool.or_eq_false_iff, Bool.and_eq_false_imp, decide_eq_true_eq,
    decide_eq_false_iff_not, beq_eq_false_iff_ne]
  omega

theorem bare_of_digits {p u q : List Char} (hp : ∀ c ∈ p, isBlank c = true)
    (hq : ∀ c ∈ q, isBlank c = true) (hfirst : ∀ c ∈ u.head?, c.isDigit = true)
    (hlast : ∀ c ∈ u.getLast?, c.isDigit = true) : Bare (p ++ u ++ q) u :=
  ⟨⟨p, q, rfl, hp, hq⟩, fun c hc => not_isBlank_of_isDigit (hfirst c hc),
    fun c hc => not_isBlank_of_isDigit (hlast c hc)⟩

end Text

namespace Version

structure Fits (v : Version) : Prop where
  major : v.major < bound
  minor : v.minor < bound
  patch : v.patch < bound

/-! ### Three parts -/

theorem toList_display (v : Version) : v.display.toList = Nat.toDigits 10 v.major ++
    '.' :: (Nat.toDigits 10 v.minor ++ '.' :: Nat.toDigits 10 v.patch) := by
  simp [display, toString]

theorem Fits.extended {v : Version} (h : v.Fits) : Extended v.display.toList v [] := by
  have hparts : Extended _ v ([] : List Char) :=
    .parts (part_toDigits h.major) (part_toDigits h.minor) (part_toDigits h.patch) (by simp)
  rwa [List.append_nil, ← toList_display] at hparts

theorem bare_display (v : Version) {p q : List Char} (hp : ∀ c ∈ p, isBlank c = true)
    (hq : ∀ c ∈ q, isBlank c = true) : Bare (p ++ v.display.toList ++ q) v.display.toList := by
  refine bare_of_digits hp hq (fun c hc => ?first) fun c hc => ?last
  case first =>
    rw [toList_display, List.head?_append_of_ne_nil _ Nat.toDigits_ne_nil] at hc
    exact isDigit_of_mem_toDigits (List.mem_of_mem_head? hc)
  case last =>
    have hsplit : v.display.toList = (Nat.toDigits 10 v.major ++
        '.' :: (Nat.toDigits 10 v.minor ++ ['.'])) ++ Nat.toDigits 10 v.patch := by
      simp [toList_display]
    rw [hsplit, List.getLast?_append_of_ne_nil _ Nat.toDigits_ne_nil] at hc
    exact isDigit_of_mem_toDigits (List.mem_of_getLast? hc)

theorem Fits.parse_display {v : Version} (h : v.Fits) {p q : String}
    (hp : ∀ c ∈ p.toList, isBlank c = true) (hq : ∀ c ∈ q.toList, isBlank c = true) :
    parse (p ++ v.display ++ q) = .ok v := by
  have hbare := bare_display v hp hq
  rw [← String.toList_append, ← String.toList_append] at hbare
  exact (h.extended.parse_eq_ok_iff hbare v).2 ⟨nofun, rfl⟩

/-! ### Identifiers -/

theorem identifier_toDigits {n : Nat} (hlong : 10000 ≤ n) (h : n < bound) :
    Identifier (Nat.toDigits 10 n) n := by
  refine ⟨?_, part_toDigits h⟩
  by_contra hshort
  have hlt := (Nat.length_toDigits_le_iff (b := 10) (n := n) (k := 4) (by decide) (by decide)).1
    (by omega)
  omega

theorem parse_identifier {n : Nat} (hlong : 10000 ≤ n) (h : n < bound) {p q : String}
    (hp : ∀ c ∈ p.toList, isBlank c = true) (hq : ∀ c ∈ q.toList, isBlank c = true) :
    parse (p ++ toString n ++ q) = .ok (ofId n) := by
  have hdigits : (toString n).toList = Nat.toDigits 10 n := by simp [toString]
  have hbare : Bare (p ++ toString n ++ q).toList (Nat.toDigits 10 n) := by
    rw [String.toList_append, String.toList_append, hdigits]
    exact bare_of_digits hp hq (fun _ hc => isDigit_of_mem_toDigits (List.mem_of_mem_head? hc))
      fun _ hc => isDigit_of_mem_toDigits (List.mem_of_getLast? hc)
  rw [parse_eq_ok_iff, (trim_eq_iff _ _).2 hbare, ofTrimmed?_eq_some_iff]
  exact .inr ⟨n, identifier_toDigits hlong h, rfl⟩

theorem fits_of_id? {v : Version} {n : Nat} (h : v.id? = some n) : v.Fits := by
  obtain ⟨rfl, hn⟩ := (id?_eq_some_iff v n).1 h
  have hmajor : v.major ≤ v.id := by
    simp only [id]
    omega
  have hminor : v.minor ≤ v.id := by
    simp only [id]
    omega
  exact ⟨Nat.lt_of_le_of_lt hmajor hn, Nat.lt_of_le_of_lt hminor hn,
    Nat.lt_of_le_of_lt (Nat.le_add_left _ _) hn⟩

/-- A version is read from its three parts, and from its identifier if that has five digits and
fits and the last two parts have two digits at most. So both say the same of what it can do. -/
theorem both_texts_read :
    (∀ (v : Version) (p q : String), v.Fits → (∀ c ∈ p.toList, isBlank c = true) →
      (∀ c ∈ q.toList, isBlank c = true) → parse (p ++ v.display ++ q) = .ok v) ∧
    ∀ (v : Version) (n : Nat) (p q : String), v.minor < 100 → v.patch < 100 → v.id? = some n →
      10000 ≤ n → (∀ c ∈ p.toList, isBlank c = true) → (∀ c ∈ q.toList, isBlank c = true) →
      parse (p ++ toString n ++ q) = .ok v ∧
      (parse (p ++ toString n ++ q)).map Capabilities.ofVersion =
        (parse (p ++ v.display ++ q)).map Capabilities.ofVersion := by
  refine ⟨fun v p q h hp hq => h.parse_display hp hq,
    fun v n p q hminor hpatch hid hlong hp hq => ?_⟩
  obtain ⟨hn, hfits⟩ := (id?_eq_some_iff v n).1 hid
  have hback : ofId n = v := hn ▸ (ofId_id_iff v).2 ⟨hminor, hpatch⟩
  have hread : parse (p ++ toString n ++ q) = .ok v :=
    hback ▸ parse_identifier hlong (hn ▸ hfits) hp hq
  exact ⟨hread, by rw [hread, (fits_of_id? hid).parse_display hp hq]⟩

theorem last_version_read :
    (⟨429496, 72, 95⟩ : Version).Fits ∧ (⟨429496, 72, 95⟩ : Version).id? = some 4294967295 ∧
    parse ("\t" ++ (⟨429496, 72, 95⟩ : Version).display ++ "\r\n") = .ok ⟨429496, 72, 95⟩ ∧
    parse ("\t" ++ toString 4294967295 ++ "\r\n") = .ok ⟨429496, 72, 95⟩ := by
  have hfits : (⟨429496, 72, 95⟩ : Version).Fits := ⟨by decide, by decide, by decide⟩
  have hid : (⟨429496, 72, 95⟩ : Version).id? = some 4294967295 := by decide
  have htab : ∀ c ∈ "\t".toList, isBlank c = true := List.all_eq_true.1 rfl
  have hend : ∀ c ∈ "\r\n".toList, isBlank c = true := List.all_eq_true.1 rfl
  exact ⟨hfits, hid, both_texts_read.1 _ _ _ hfits htab hend,
    (both_texts_read.2 _ _ _ _ (by decide) (by decide) hid (by decide) htab hend).1⟩

end Version
end Reprieve
