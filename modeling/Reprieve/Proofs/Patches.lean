import Reprieve.Proofs.Versions

/-! Versions of three parts and what is attached to them. Behind a separator an addition leaves
the parts as they are. Without one it takes the digits of the third part with it, and the version
is read as one of two parts. -/
namespace Reprieve.Version
open Text

/-- Three parts with points between them, the digits of the last as far as they go, and what
follows them. -/
inductive Extended : List Char → Version → List Char → Prop
  | parts {major minor patch tail : List Char} {v : Version} (hmajor : Part major v.major)
    (hminor : Part minor v.minor) (hpatch : Part patch v.patch)
    (hend : ∀ c ∈ tail.head?, c.isDigit = false) :
    Extended (major ++ '.' :: (minor ++ '.' :: (patch ++ tail))) v tail

/-- A separator stands before what is attached, or nothing is. -/
def Detached (tail : List Char) : Prop := ∀ c ∈ tail.head?, c ∈ separators

theorem detached_cons (c : Char) (r : List Char) : Detached (c :: r) ↔ c ∈ separators := by
  simp [Detached]

instance : (tail : List Char) → Decidable (Detached tail)
  | [] => .isTrue nofun
  | c :: r => decidable_of_iff (c ∈ separators) (detached_cons c r).symm

def Attachable (tail : List Char) : Prop := ∀ c ∈ tail, c.isAlphanum = true ∨ c ∈ separators

instance (tail : List Char) : Decidable (Attachable tail) :=
  List.decidableBAll (fun c : Char => c.isAlphanum = true ∨ c ∈ separators) tail

/-- The digits of a third part are letters of the suffix as well. -/
theorem suffix_iff_attachable {patch : List Char} (hp : ∀ c ∈ patch, c.isDigit = true)
    (tail : List Char) : Suffix ('.' :: (patch ++ tail)) ↔ Attachable tail := by
  have hall : ∀ c ∈ patch, c.isAlphanum = true ∨ c ∈ separators := fun c hc => by
    simp [Char.isAlphanum, hp c hc]
  constructor
  · intro h
    cases h with
    | separated _ hr => exact (List.forall_mem_append.1 hr).2
  · exact fun h => .separated (by decide) (List.forall_mem_append.2 ⟨hall, h⟩)

theorem patch_iff_of_digits {patch tail : List Char} {n : Nat} (hp : Part patch n)
    (hend : ∀ c ∈ tail.head?, c.isDigit = false) (m : Nat) :
    Patch ('.' :: (patch ++ tail)) m ↔ m = if Detached tail then n else 0 := by
  have hdigits : digits (patch ++ tail) = (patch, tail) :=
    (digits_eq_iff _ _ _).2 ⟨rfl, hp.digits, hend⟩
  by_cases hd : Detached tail
  · have hthird : Third ('.' :: (patch ++ tail)) patch :=
      (third_iff _ _).2 ⟨hp.nonempty, tail, hdigits, hd⟩
    rw [if_pos hd]
    constructor
    · intro h
      cases h with
      | given h hm =>
        obtain rfl := third_unique hthird h
        exact hm.value.symm.trans hp.value
      | absent h => exact absurd hthird (h patch)
    · rintro rfl
      exact .given hthird hp
  · have hno (q : List Char) : ¬ Third ('.' :: (patch ++ tail)) q := by
      intro h
      obtain ⟨-, rest, hrest, hsep⟩ := (third_iff _ _).1 h
      obtain ⟨-, rfl⟩ := Prod.mk.inj (hdigits.symm.trans hrest)
      exact hd hsep
    rw [if_neg hd]
    constructor
    · intro h
      cases h with
      | given h _ => exact absurd h (hno _)
      | absent _ => rfl
    · rintro rfl
      exact .absent hno

theorem TwoParts.dotted_iff {cs a b rest : List Char} (h : TwoParts cs a b rest) (v : Version) :
    Dotted cs v ↔ Part a v.major ∧ Part b v.minor ∧ Suffix rest ∧ Patch rest v.patch := by
  rw [Version.dotted_iff, h.parts?_eq, patch_iff, ← part?_eq_some_iff h.first.1 h.first.2,
    ← part?_eq_some_iff h.second.1 h.second.2]
  constructor
  · rintro ⟨x, y, p, hp, hx, hy, hn⟩
    obtain ⟨q, hq, he⟩ := Option.map_eq_some_iff.1 hp
    cases he
    obtain ⟨hsuffix, hthird⟩ := (third?_eq_some_iff rest p).1 hq
    exact ⟨hx, hy, hsuffix, p, hthird, hn⟩
  · rintro ⟨hx, hy, hsuffix, p, hthird, hn⟩
    have hq := (third?_eq_some_iff rest p).2 ⟨hsuffix, hthird⟩
    exact ⟨a, b, p, by rw [hq, Option.map_some], hx, hy, hn⟩

theorem Part.eq_iff {ds : List Char} {n : Nat} (h : Part ds n) (m : Nat) : Part ds m ↔ m = n :=
  ⟨fun hm => hm.value.symm.trans h.value, fun he => he ▸ h⟩

theorem Extended.dotted_iff {t tail : List Char} {v : Version} (h : Extended t v tail)
    (w : Version) : Dotted t w ↔
      Attachable tail ∧ w = if Detached tail then v else { v with patch := 0 } := by
  cases h with
  | @parts major minor patch _ _ hmajor hminor hpatch hend =>
    have htwo : TwoParts _ major minor ('.' :: (patch ++ tail)) :=
      ⟨rfl, ⟨hmajor.nonempty, hmajor.digits⟩, ⟨hminor.nonempty, hminor.digits⟩, by simp⟩
    rw [htwo.dotted_iff, hmajor.eq_iff, hminor.eq_iff, suffix_iff_attachable hpatch.digits,
      patch_iff_of_digits hpatch hend]
    obtain ⟨x, y, z⟩ := w
    by_cases hd : Detached tail
    · simp only [if_pos hd, Version.ext_iff]
      tauto
    · simp only [if_neg hd, Version.ext_iff]
      tauto

/-- The points keep a text of three parts from being an identifier. -/
theorem Extended.not_identifier {t tail : List Char} {v : Version} (h : Extended t v tail)
    (n : Nat) : ¬ Identifier t n := by
  cases h with
  | parts =>
    intro hn
    have hpoint := hn.part.digits '.' (by simp)
    cases hpoint

theorem Extended.parse_eq_ok_iff {s : String} {t tail : List Char} {v : Version}
    (h : Extended t v tail) (ht : Bare s.toList t) (w : Version) : parse s = .ok w ↔
      Attachable tail ∧ w = if Detached tail then v else { v with patch := 0 } := by
  have hno : ¬ ∃ n, Identifier t n ∧ w = ofId n := fun ⟨n, hn, _⟩ => h.not_identifier n hn
  rw [Version.parse_eq_ok_iff, (trim_eq_iff _ _).2 ht, ofTrimmed?_eq_some_iff, or_iff_left hno,
    h.dotted_iff]

/-- A text of three parts, less its outer blanks, is a version exactly if only letters, digits
and separators follow. Its third part is kept if what follows is detached, and is zero if not. -/
theorem patch_kept_iff_detached (s : String) {t tail : List Char} {v : Version}
    (ht : Bare s.toList t) (h : Extended t v tail) :
    (∀ w, parse s = .ok w ↔
      Attachable tail ∧ w = if Detached tail then v else { v with patch := 0 }) ∧
    ∀ w, parse s = .ok w → (w = v ↔ Detached tail ∨ v.patch = 0) := by
  refine ⟨h.parse_eq_ok_iff ht, fun w hw => ?_⟩
  obtain ⟨-, rfl⟩ := (h.parse_eq_ok_iff ht w).1 hw
  by_cases hd : Detached tail
  · simp [hd]
  · simp [hd, Version.ext_iff, eq_comm]

theorem part_toDigits {n : Nat} (h : n < bound) : Part (Nat.toDigits 10 n) n :=
  ⟨Nat.toDigits_ne_nil, fun _ => isDigit_of_mem_toDigits, Nat.ofDigitChars_ten_toDigits, h⟩

theorem extended_candidate {c : Char} (hc : c.isDigit = false) (r : List Char) :
    Extended (['8'] ++ '.' :: (['3'] ++ '.' :: (['1'] ++ c :: r))) ⟨8, 3, 1⟩ (c :: r) :=
  .parts (part_toDigits (n := 8) (by decide)) (part_toDigits (n := 3) (by decide))
    (part_toDigits (n := 1) (by decide)) fun _ hd => Option.some.inj hd ▸ hc

theorem separated_candidate_keeps_patch :
    Bare " 8.3.1-RC1\n".toList "8.3.1-RC1".toList ∧
    Extended "8.3.1-RC1".toList ⟨8, 3, 1⟩ "-RC1".toList ∧ parse " 8.3.1-RC1\n" = .ok ⟨8, 3, 1⟩ := by
  have hbare : Bare " 8.3.1-RC1\n".toList "8.3.1-RC1".toList := (trim_eq_iff _ _).1 (by decide)
  have hextended : Extended "8.3.1-RC1".toList ⟨8, 3, 1⟩ "-RC1".toList :=
    extended_candidate rfl "RC1".toList
  exact ⟨hbare, hextended,
    ((patch_kept_iff_detached _ hbare hextended).1 _).2 ⟨by decide, by decide⟩⟩

/-- Without the separator the text is accepted as well, and the third part is lost. -/
theorem attached_candidate_takes_patch :
    Bare "8.3.1RC1".toList "8.3.1RC1".toList ∧
    Extended "8.3.1RC1".toList ⟨8, 3, 1⟩ "RC1".toList ∧
    parse "8.3.1RC1" = .ok ⟨8, 3, 0⟩ ∧ parse "8.3.1RC1" ≠ .ok ⟨8, 3, 1⟩ := by
  have hread : parse "8.3.1RC1" = .ok ⟨8, 3, 0⟩ := by decide
  exact ⟨(trim_eq_iff _ _).1 (by decide), extended_candidate rfl "C1".toList, hread,
    by simp [hread]⟩

end Reprieve.Version
