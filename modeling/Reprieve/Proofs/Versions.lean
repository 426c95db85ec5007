import Reprieve.Proofs.Decimal
import Reprieve.Proofs.Layout
import Reprieve.Version

/-! The texts of versions. Two parts with a point between them may be followed by a suffix, and
digits at its head are a third part if they go up to the end or to a separator. A text of
digits alone is an identifier. Every part has to fit, or the whole text is no version. -/
namespace Reprieve.Version
open Text

/-! ### Grammar -/

structure Part (ds : List Char) (n : Nat) : Prop where
  nonempty : ds ≠ []
  digits : ∀ c ∈ ds, c.isDigit = true
  value : Nat.ofDigitChars 10 ds 0 = n
  fits : n < UInt32.size

def separators : List Char := ['-', '+', '.', '~']

/-- What may follow two parts. -/
inductive Suffix : List Char → Prop
  | empty : Suffix []
  | separated {c : Char} {r : List Char} (hc : c ∈ separators)
    (hr : ∀ d ∈ r, d.isAlphanum = true ∨ d ∈ separators) : Suffix (c :: r)

/-- Digits behind a point that go up to the end or to a separator. -/
def Third (rest p : List Char) : Prop :=
  p ≠ [] ∧ (∀ c ∈ p, c.isDigit = true) ∧
    ∃ tail, rest = '.' :: (p ++ tail) ∧ ∀ c ∈ tail.head?, c ∈ separators

/-- The third part, which is zero where there is none. -/
inductive Patch (rest : List Char) : Nat → Prop
  | given {p : List Char} {n : Nat} (h : Third rest p) (hp : Part p n) : Patch rest n
  | absent (h : ∀ p, ¬ Third rest p) : Patch rest 0

/-- Two parts, what follows them, and the third part in it. Neither the point nor a separator is
a digit, so the digits of the two parts go as far as they can. -/
inductive Dotted : List Char → Version → Prop
  | parts {major minor rest : List Char} {v : Version} (hmajor : Part major v.major)
    (hminor : Part minor v.minor) (hrest : Suffix rest) (hpatch : Patch rest v.patch) :
    Dotted (major ++ '.' :: (minor ++ rest)) v

structure Identifier (t : List Char) (n : Nat) : Prop where
  long : 5 ≤ t.length
  part : Part t n

/-! ### Characters and digits -/

theorem isSeparator_iff (c : Char) : isSeparator c = true ↔ c ∈ separators := by
  simp [isSeparator, separators, or_assoc]

theorem isSuffixChar_iff (c : Char) :
    isSuffixChar c = true ↔ c.isAlphanum = true ∨ c ∈ separators := by
  have hupper : c.isUpper = true ↔ 'A' ≤ c ∧ c ≤ 'Z' := decide_eq_true_iff
  have hlower : c.isLower = true ↔ 'a' ≤ c ∧ c ≤ 'z' :=
    Bool.and_eq_true_iff.trans (and_congr decide_eq_true_iff decide_eq_true_iff)
  have hletter : c.isAlphanum = ((c.isUpper || c.isLower) || c.isDigit) := rfl
  rw [isSuffixChar, Bool.or_eq_true, isSeparator_iff, hletter]
  refine or_congr_left ?_
  simp only [Bool.or_eq_true, Bool.and_eq_true, decide_eq_true_eq, isDigit_iff, hupper, hlower]
  tauto

theorem isSuffix_iff (r : List Char) : isSuffix r = true ↔ Suffix r := by
  cases r with
  | nil => exact iff_of_true rfl .empty
  | cons c r =>
    simp only [isSuffix, Bool.and_eq_true, List.all_eq_true, isSeparator_iff, isSuffixChar_iff]
    constructor
    · exact fun h => .separated h.1 h.2
    · intro h
      cases h with
      | separated hc hr => exact ⟨hc, hr⟩

theorem not_isDigit_of_separator {c : Char} (h : c ∈ separators) : c.isDigit = false := by
  simp only [separators, List.mem_cons, List.not_mem_nil, or_false] at h
  rcases h with rfl | rfl | rfl | rfl <;> rfl

theorem digits_eq_iff (cs ds r : List Char) : digits cs = (ds, r) ↔
    cs = ds ++ r ∧ (∀ c ∈ ds, c.isDigit = true) ∧ ∀ c ∈ r.head?, c.isDigit = false := by
  have hdigit : isDigit = Char.isDigit := by
    funext c
    exact Bool.eq_iff_iff.2 (isDigit_iff c)
  rw [digits, Prod.mk.injEq, hdigit]
  constructor
  · rintro ⟨rfl, hr⟩
    obtain ⟨-, -, -, hhead⟩ := (dropWhile_eq_iff _ cs r).1 hr
    refine ⟨?_, fun c => List.mem_takeWhile_imp, hhead⟩
    rw [← hr, List.takeWhile_append_dropWhile]
  · rintro ⟨rfl, hds, hr⟩
    refine ⟨?_, (dropWhile_eq_iff _ _ r).2 ⟨ds, rfl, hds, hr⟩⟩
    rw [List.takeWhile_append_of_pos hds]
    cases r with
    | nil => simp
    | cons c r => simp [hr c rfl]

theorem part?_eq_some_iff {ds : List Char} (hne : ds ≠ []) (hds : ∀ c ∈ ds, c.isDigit = true)
    (n : Nat) : part? ds = some n ↔ Part ds n := by
  have hbound : bound = UInt32.size := rfl
  rw [part?, bounded?, numeral_digits hds, Option.ite_none_right_eq_some, Option.some.injEq, hbound]
  constructor
  · rintro ⟨hlt, rfl⟩
    exact ⟨hne, hds, rfl, hlt⟩
  · intro h
    obtain ⟨-, -, rfl, hlt⟩ := h
    exact ⟨hlt, rfl⟩

/-! ### The third part -/

theorem third_iff (r p : List Char) : Third ('.' :: r) p ↔
    p ≠ [] ∧ ∃ tail, digits r = (p, tail) ∧ ∀ c ∈ tail.head?, c ∈ separators := by
  simp only [Third, digits_eq_iff, List.cons.injEq, true_and]
  constructor
  · rintro ⟨hne, hp, tail, rfl, htail⟩
    exact ⟨hne, tail, ⟨rfl, hp, fun c hc => not_isDigit_of_separator (htail c hc)⟩, htail⟩
  · rintro ⟨hne, tail, ⟨rfl, hp, -⟩, htail⟩
    exact ⟨hne, hp, tail, rfl, htail⟩

theorem suffix_iff_of_digits {p : List Char} (hp : ∀ c ∈ p, c.isDigit = true)
    (tail : List Char) :
    Suffix ('.' :: (p ++ tail)) ∧ (∀ c ∈ tail.head?, c ∈ separators) ↔ Suffix tail := by
  have hall : ∀ c ∈ p, c.isAlphanum = true ∨ c ∈ separators := fun c hc => by
    simp [Char.isAlphanum, hp c hc]
  constructor
  · rintro ⟨h, hhead⟩
    cases h with
    | separated _ hr =>
      cases tail with
      | nil => exact .empty
      | cons c r => exact .separated (hhead c rfl) fun d hd => hr d (by simp [hd])
  · intro h
    cases h with
    | empty => exact ⟨.separated (by decide) (by simpa using hall), nofun⟩
    | separated hc hr =>
      refine ⟨.separated (by decide) fun d hd => ?_, by simpa using hc⟩
      rcases List.mem_append.1 hd with hd | hd
      · exact hall d hd
      · rcases List.mem_cons.1 hd with rfl | hd
        · exact .inr hc
        · exact hr d hd

def third? : List Char → Option (List Char)
  | '.' :: r =>
    let (p, tail) := digits r
    if p ≠ [] && isSuffix tail then some p
    else if isSuffix ('.' :: r) then some [] else none
  | r => if isSuffix r then some [] else none

theorem third?_of_third {rest p : List Char} (h : Third rest p) :
    third? rest = if isSuffix rest then some p else none := by
  obtain ⟨hne, hp, tail, rfl, htail⟩ := h
  have hd : digits (p ++ tail) = (p, tail) :=
    (digits_eq_iff _ p tail).2 ⟨rfl, hp, fun c hc => not_isDigit_of_separator (htail c hc)⟩
  have hsuffix : isSuffix ('.' :: (p ++ tail)) = isSuffix tail := by
    rw [Bool.eq_iff_iff, isSuffix_iff, isSuffix_iff, ← suffix_iff_of_digits hp tail,
      and_iff_left htail]
  simp only [third?, hd, hsuffix]
  cases isSuffix tail <;> simp [hne]

theorem third?_of_no_third {rest : List Char} (h : ∀ p, ¬ Third rest p) :
    third? rest = if isSuffix rest then some [] else none := by
  by_cases hhead : rest.head? = some '.'
  · obtain ⟨r, rfl⟩ := List.head?_eq_some_iff.1 hhead
    rcases hd : digits r with ⟨p, tail⟩
    have hnone : ¬ (p ≠ [] ∧ isSuffix tail = true) := by
      rintro ⟨hne, htail⟩
      have hp := ((digits_eq_iff r p tail).1 hd).2.1
      have hsep := ((suffix_iff_of_digits hp tail).2 ((isSuffix_iff tail).1 htail)).2
      exact h p ((third_iff r p).2 ⟨hne, tail, hd, hsep⟩)
    simp only [third?, hd]
    rw [if_neg (by simpa using hnone)]
  · rw [third?]
    rintro r rfl
    exact hhead rfl

theorem third_unique {rest p q : List Char} (hp : Third rest p) (hq : Third rest q) : p = q := by
  obtain ⟨r, rfl⟩ : ∃ r, rest = '.' :: r := by
    obtain ⟨-, -, tail, rfl, -⟩ := hp
    exact ⟨_, rfl⟩
  obtain ⟨-, _, hdp, -⟩ := (third_iff r p).1 hp
  obtain ⟨-, _, hdq, -⟩ := (third_iff r q).1 hq
  exact congrArg Prod.fst (hdp.symm.trans hdq)

theorem third?_eq_some_iff (rest p : List Char) : third? rest = some p ↔
    Suffix rest ∧ (Third rest p ∨ p = [] ∧ ∀ q, ¬ Third rest q) := by
  by_cases h : ∃ q, Third rest q
  · obtain ⟨q, hq⟩ := h
    rw [third?_of_third hq, Option.ite_none_right_eq_some, isSuffix_iff, Option.some.injEq]
    refine and_congr_right fun _ => ⟨fun he => .inl (he ▸ hq), fun h => ?_⟩
    cases h with
    | inl hp => exact third_unique hq hp
    | inr hno => exact absurd hq (hno.2 q)
  · have hno := not_exists.1 h
    rw [third?_of_no_third hno, Option.ite_none_right_eq_some, isSuffix_iff, Option.some.injEq]
    refine and_congr_right fun _ => ⟨fun he => .inr ⟨he.symm, hno⟩, fun h => ?_⟩
    cases h with
    | inl hp => exact absurd hp (hno p)
    | inr hp => exact hp.1.symm

/-! ### All parts -/

/-- Two runs of digits with a point between them, and what follows the second. -/
structure TwoParts (cs a b rest : List Char) : Prop where
  text : cs = a ++ '.' :: (b ++ rest)
  first : a ≠ [] ∧ ∀ c ∈ a, c.isDigit = true
  second : b ≠ [] ∧ ∀ c ∈ b, c.isDigit = true
  ended : ∀ c ∈ rest.head?, c.isDigit = false

theorem TwoParts.parts?_eq {cs a b rest : List Char} (h : TwoParts cs a b rest) :
    parts? cs = (third? rest).map fun p => (a, b, p) := by
  have hfirst : digits cs = (a, '.' :: (b ++ rest)) :=
    (digits_eq_iff _ _ _).2 ⟨h.text, h.first.2, by simp⟩
  have hsecond : digits (b ++ rest) = (b, rest) :=
    (digits_eq_iff _ _ _).2 ⟨rfl, h.second.2, h.ended⟩
  obtain ⟨c, a, rfl⟩ := List.exists_cons_of_ne_nil h.first.1
  obtain ⟨d, b, rfl⟩ := List.exists_cons_of_ne_nil h.second.1
  rw [parts?, hfirst]
  simp only [hsecond]
  split
  · rename_i heq
    cases heq
  · rename_i heq
    cases heq
    simp only [third?, apply_ite (Option.map _), Option.map_some, Option.map_none]
  · rename_i hpoint heq
    cases heq
    rw [third?, apply_ite (Option.map _), Option.map_some, Option.map_none]
    exact hpoint

theorem exists_twoParts {cs : List Char} {x : List Char × List Char × List Char}
    (h : parts? cs = some x) : ∃ a b rest, TwoParts cs a b rest := by
  have htwo {a r b rest : List Char} (ha : a ≠ []) (hcs : digits cs = (a, '.' :: r))
      (hb : b ≠ []) (hr : digits r = (b, rest)) : TwoParts cs a b rest := by
    obtain ⟨rfl, hda, -⟩ := (digits_eq_iff _ _ _).1 hcs
    obtain ⟨rfl, hdb, hrest⟩ := (digits_eq_iff _ _ _).1 hr
    exact ⟨rfl, ⟨ha, hda⟩, ⟨hb, hdb⟩, hrest⟩
  rw [parts?] at h
  split at h
  · cases h
  · rename_i ha hcs
    split at h
    · cases h
    · rename_i hb hr
      exact ⟨_, _, _, htwo ha hcs hb hr⟩
    · rename_i hb _ hr
      exact ⟨_, _, _, htwo ha hcs hb hr⟩
  · cases h

theorem parts?_eq_some_iff (cs a b p : List Char) : parts? cs = some (a, b, p) ↔
    ∃ rest, TwoParts cs a b rest ∧ third? rest = some p := by
  constructor
  · intro h
    obtain ⟨a', b', rest, htwo⟩ := exists_twoParts h
    rw [htwo.parts?_eq, Option.map_eq_some_iff] at h
    obtain ⟨q, hq, he⟩ := h
    cases he
    exact ⟨rest, htwo, hq⟩
  · rintro ⟨rest, htwo, hp⟩
    rw [htwo.parts?_eq, hp, Option.map_some]

theorem ended_of_suffix {rest : List Char} (h : Suffix rest) :
    ∀ c ∈ rest.head?, c.isDigit = false := by
  cases h with
  | empty => exact nofun
  | separated hc _ => simpa using not_isDigit_of_separator hc

theorem patch_iff (rest : List Char) (n : Nat) : Patch rest n ↔
    ∃ p, (Third rest p ∨ p = [] ∧ ∀ q, ¬ Third rest q) ∧ part? p = some n := by
  constructor
  · intro h
    cases h with
    | given h hp => exact ⟨_, .inl h, (part?_eq_some_iff hp.nonempty hp.digits n).2 hp⟩
    | absent h => exact ⟨[], .inr ⟨rfl, h⟩, rfl⟩
  · rintro ⟨p, h | ⟨rfl, h⟩, hn⟩
    · exact .given h ((part?_eq_some_iff h.1 h.2.1 n).1 hn)
    · obtain rfl : n = 0 := (Option.some.inj hn).symm
      exact .absent h

theorem dotted_iff (t : List Char) (v : Version) : Dotted t v ↔
    ∃ a b p, parts? t = some (a, b, p) ∧ part? a = some v.major ∧ part? b = some v.minor ∧
      part? p = some v.patch := by
  simp only [parts?_eq_some_iff, third?_eq_some_iff]
  constructor
  · intro h
    cases h with
    | parts hmajor hminor hrest hpatch =>
      obtain ⟨p, hp, hn⟩ := (patch_iff _ _).1 hpatch
      refine ⟨_, _, p, ⟨_, ⟨rfl, ⟨hmajor.nonempty, hmajor.digits⟩,
        ⟨hminor.nonempty, hminor.digits⟩, ended_of_suffix hrest⟩, hrest, hp⟩,
        (part?_eq_some_iff hmajor.nonempty hmajor.digits _).2 hmajor,
        (part?_eq_some_iff hminor.nonempty hminor.digits _).2 hminor, hn⟩
  · rintro ⟨a, b, p, ⟨rest, ⟨rfl, ha, hb, -⟩, hrest, hp⟩, hmajor, hminor, hn⟩
    exact .parts ((part?_eq_some_iff ha.1 ha.2 _).1 hmajor)
      ((part?_eq_some_iff hb.1 hb.2 _).1 hminor) hrest ((patch_iff _ _).2 ⟨p, hp, hn⟩)

/-! ### Identifiers -/

theorem isId_iff (t : List Char) : isId t = true ↔ 5 ≤ t.length ∧ ∀ c ∈ t, c.isDigit = true := by
  simp only [isId, Bool.and_eq_true, decide_eq_true_eq, List.all_eq_true, isDigit_iff]

theorem Identifier.parts?_eq_none {t : List Char} {n : Nat} (h : Identifier t n) :
    parts? t = none := by
  by_contra hne
  obtain ⟨x, hx⟩ := Option.ne_none_iff_exists'.1 hne
  obtain ⟨a, b, rest, htwo⟩ := exists_twoParts hx
  have hpoint := h.part.digits '.' (by simp [htwo.text])
  cases hpoint

theorem identifier_iff (t : List Char) (n : Nat) :
    Identifier t n ↔ isId t = true ∧ part? t = some n := by
  rw [isId_iff]
  constructor
  · intro h
    exact ⟨⟨h.long, h.part.digits⟩, (part?_eq_some_iff h.part.nonempty h.part.digits n).2 h.part⟩
  · rintro ⟨⟨hlong, hdigits⟩, hn⟩
    have hne : t ≠ [] := by
      rintro rfl
      cases hlong
    exact ⟨hlong, (part?_eq_some_iff hne hdigits n).1 hn⟩

/-! ### The whole text -/

theorem ofTrimmed?_eq_some_iff (t : List Char) (v : Version) : ofTrimmed? t = some v ↔
    Dotted t v ∨ ∃ n, Identifier t n ∧ v = ofId n := by
  rw [ofTrimmed?]
  cases hparts : parts? t with
  | some x =>
    obtain ⟨a, b, p⟩ := x
    have hid : ¬ ∃ n, Identifier t n ∧ v = ofId n := by
      rintro ⟨n, hn, -⟩
      cases hn.parts?_eq_none.symm.trans hparts
    rw [or_iff_left hid, dotted_iff, hparts]
    obtain ⟨major, minor, patch⟩ := v
    simp [Option.bind_eq_some_iff]
  | none =>
    have hdot : ¬ Dotted t v := by
      rw [dotted_iff, hparts]
      simp
    simp only [or_iff_right hdot, identifier_iff, Option.ite_none_right_eq_some,
      Option.map_eq_some_iff, and_assoc, exists_and_left, eq_comm (a := v)]

theorem parse_eq_ok_iff (s : String) (v : Version) :
    parse s = .ok v ↔ ofTrimmed? (trim s.toList) = some v := by
  rw [parse]
  cases ofTrimmed? (trim s.toList) <;> simp

theorem parse_eq_error_iff (w e : String) :
    parse w = .error e ↔ e = w ∧ ∀ v, parse w ≠ .ok v := by
  rw [parse]
  cases ofTrimmed? (Text.trim w.toList) with
  | none => simp [eq_comm]
  | some v => simp

theorem declarative_iff_major (v : Version) :
    (Capabilities.ofVersion v).declarativeMetadata = true ↔ 8 ≤ v.major := by
  have hzero (n : Nat) : (compare n 0).isGE = true := Nat.isGE_compare.2 (Nat.zero_le n)
  change ((compare v.major 8).then ((compare v.minor 0).then (compare v.patch 0))).isGE = true ↔ _
  rw [← Nat.isGE_compare]
  cases compare v.major 8 with
  | lt => exact Iff.rfl
  | gt => exact Iff.rfl
  | eq =>
    refine iff_of_true ?_ rfl
    cases hminor : compare v.minor 0 with
    | lt => cases hminor ▸ hzero v.minor
    | gt => rfl
    | eq => exact hzero v.patch

theorem declarative_ofId_iff (n : Nat) :
    (Capabilities.ofVersion (ofId n)).declarativeMetadata = true ↔ 80000 ≤ n := by
  rw [declarative_iff_major]
  simp only [ofId]
  omega

/-- A text is a version exactly if, without its outer blanks, it has two parts and a suffix
or is an identifier, and every part of it fits. All other texts are given back as they came.
Two parts make the capabilities those of the first, and an identifier those of its number. -/
theorem parse_iff_grammar (s : String) :
    (∀ v, parse s = .ok v ↔
      ∃ t, Bare s.toList t ∧ (Dotted t v ∨ ∃ n, Identifier t n ∧ v = ofId n)) ∧
    (∀ e, parse s = .error e ↔
      e = s ∧ ¬ ∃ t, Bare s.toList t ∧ ((∃ v, Dotted t v) ∨ ∃ n, Identifier t n)) ∧
    (∀ v, (Capabilities.ofVersion v).declarativeMetadata = true ↔ 8 ≤ v.major) ∧
    ∀ n, (Capabilities.ofVersion (ofId n)).declarativeMetadata = true ↔ 80000 ≤ n := by
  have hok (v : Version) : parse s = .ok v ↔
      ∃ t, Bare s.toList t ∧ (Dotted t v ∨ ∃ n, Identifier t n ∧ v = ofId n) := by
    simp only [parse_eq_ok_iff, ofTrimmed?_eq_some_iff, ← trim_eq_iff, exists_eq_left']
  refine ⟨hok, fun e => ?error, declarative_iff_major, declarative_ofId_iff⟩
  case error =>
    have hex : (∃ v, parse s = .ok v) ↔
        ∃ t, Bare s.toList t ∧ ((∃ v, Dotted t v) ∨ ∃ n, Identifier t n) := by
      simp only [hok]
      constructor
      · rintro ⟨v, t, ht, h | ⟨n, hn, -⟩⟩
        · exact ⟨t, ht, .inl ⟨v, h⟩⟩
        · exact ⟨t, ht, .inr ⟨n, hn⟩⟩
      · rintro ⟨t, ht, ⟨v, h⟩ | ⟨n, hn⟩⟩
        · exact ⟨v, t, ht, .inl h⟩
        · exact ⟨ofId n, t, ht, .inr ⟨n, hn, rfl⟩⟩
    rw [parse_eq_error_iff, ← hex, not_exists]

end Reprieve.Version
