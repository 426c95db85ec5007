import Mathlib.Data.List.Forall2
import Reprieve.Candidate
import Reprieve.Proofs.Layout
import Reprieve.Proofs.Outcomes

/-! A text of findings, line by line. All lines that are neither blank nor a comment are
findings, or the first that is none is reported with its number. Blank lines and comments
that are put in move that number and change nothing else. -/
namespace Reprieve.Candidate
open Text

/-! ### One line -/

def Relevant (l : List Char) : Prop := trim l ≠ [] ∧ (trim l).head? ≠ some '#'

instance (l : List Char) : Decidable (Relevant l) := inferInstanceAs (Decidable (_ ∧ _))

theorem isRelevant_iff (l : List Char) : isRelevant l = true ↔ Relevant l := by
  rw [isRelevant, Relevant]
  cases trim l <;> simp

def Faulty (l : List Char) : Prop := Relevant l ∧ parse? (.ofList l) = none

theorem parseLines_skip {l : List Char} (h : ¬ Relevant l) (n : Nat) (ls : List (List Char)) :
    parseLines n (l :: ls) = parseLines (n + 1) ls := by
  rw [parseLines, if_neg ((isRelevant_iff l).not.2 h)]

theorem parseLines_faulty {l : List Char} (h : Faulty l) (n : Nat) (ls : List (List Char)) :
    parseLines n (l :: ls) = .error ⟨n, .ofList (trim l)⟩ := by
  rw [parseLines, if_pos ((isRelevant_iff l).2 h.1), parseLine, h.2]
  rfl

theorem parseLines_finding {l : List Char} {f : Candidate} (h : Relevant l)
    (hf : parse? (.ofList l) = some f) (n : Nat) (ls : List (List Char)) :
    parseLines n (l :: ls) = (parseLines (n + 1) ls).map (f :: ·) := by
  rw [parseLines, if_pos ((isRelevant_iff l).2 h), parseLine, hf]
  cases parseLines (n + 1) ls <;> rfl

/-! ### All lines -/

/-- The first line that should be a finding and is none, behind those before it. -/
structure FirstFault (ls before : List (List Char)) (l : List Char) : Prop where
  here : before ++ [l] <+: ls
  faulty : Faulty l
  first : ∀ m ∈ before, ¬ Faulty m

theorem not_firstFault_nil (before : List (List Char)) (l : List Char) :
    ¬ FirstFault [] before l :=
  fun h => by simpa using h.here

theorem firstFault_cons_iff (k : List Char) (ls before : List (List Char)) (l : List Char) :
    FirstFault (k :: ls) before l ↔ before = [] ∧ l = k ∧ Faulty k ∨
      ∃ rest, before = k :: rest ∧ ¬ Faulty k ∧ FirstFault ls rest l := by
  constructor
  · intro h
    obtain ⟨here, faulty, first⟩ := h
    cases before with
    | nil =>
      obtain ⟨rfl, -⟩ := List.cons_prefix_cons.1 here
      exact .inl ⟨rfl, rfl, faulty⟩
    | cons m rest =>
      obtain ⟨rfl, hrest⟩ := List.cons_prefix_cons.1 here
      obtain ⟨hm, hclean⟩ := List.forall_mem_cons.1 first
      exact .inr ⟨rest, rfl, hm, hrest, faulty, hclean⟩
  · rintro (⟨rfl, rfl, faulty⟩ | ⟨rest, rfl, hk, here, faulty, first⟩)
    · exact ⟨by simp, faulty, nofun⟩
    · exact ⟨(List.prefix_cons_inj k).2 here, faulty, List.forall_mem_cons.2 ⟨hk, first⟩⟩

theorem parseLines_eq_ok_iff (ls : List (List Char)) (n : Nat) (fs : List Candidate) :
    parseLines n ls = .ok fs ↔
      List.Forall₂ (fun l f => parse? (.ofList l) = some f) (ls.filter (Relevant ·)) fs := by
  induction ls generalizing n fs with
  | nil => simp [parseLines, eq_comm]
  | cons l ls ih =>
    by_cases hl : Relevant l
    · rw [List.filter_cons_of_pos (by simpa using hl), List.forall₂_cons_left_iff]
      cases hf : parse? (.ofList l) with
      | none =>
        rw [parseLines_faulty ⟨hl, hf⟩]
        simp
      | some f =>
        rw [parseLines_finding hl hf, Except.map_eq_ok_iff]
        simp only [ih, Option.some.injEq, exists_and_left, exists_eq_left', eq_comm (a := fs)]
    · rw [parseLines_skip hl, ih, List.filter_cons_of_neg (by simpa using hl)]

theorem parseLines_cons_eq_error_iff {l : List Char} (h : ¬ Faulty l) (ls : List (List Char))
    (n : Nat) (e : Malformed) :
    parseLines n (l :: ls) = .error e ↔ parseLines (n + 1) ls = .error e := by
  by_cases hl : Relevant l
  · obtain ⟨f, hf⟩ := Option.ne_none_iff_exists'.1 fun hf => h ⟨hl, hf⟩
    rw [parseLines_finding hl hf, Except.map_eq_error_iff]
  · rw [parseLines_skip hl]

theorem parseLines_eq_error_iff (ls : List (List Char)) (n : Nat) (e : Malformed) :
    parseLines n ls = .error e ↔
      ∃ before l, FirstFault ls before l ∧ e = ⟨n + before.length, .ofList (trim l)⟩ := by
  induction ls generalizing n with
  | nil => simp [parseLines, not_firstFault_nil]
  | cons k ls ih =>
    simp only [firstFault_cons_iff]
    by_cases hk : Faulty k
    · rw [parseLines_faulty hk]
      simp [hk, eq_comm]
    · rw [parseLines_cons_eq_error_iff hk, ih]
      constructor
      · intro h
        obtain ⟨before, l, hl, rfl⟩ := h
        exact ⟨k :: before, l, .inr ⟨before, rfl, hk, hl⟩,
          by simp [Nat.add_comm, Nat.add_left_comm]⟩
      · intro h
        obtain ⟨before, l, ⟨-, -, hf⟩ | ⟨rest, rfl, -, hl⟩, rfl⟩ := h
        · exact absurd hf hk
        · exact ⟨rest, l, hl, by simp [Nat.add_comm, Nat.add_left_comm]⟩

/-! ### Lines that are put in -/

/-- A line of a text, and whether it was put in. -/
structure Placed where
  line : List Char
  added : Bool

def kept (ms : List Placed) : List (List Char) := (ms.filter (!·.added)).map (·.line)

theorem length_kept (ms : List Placed) :
    (kept ms).length + ms.countP (·.added) = ms.length := by
  rw [kept, List.length_map, ← List.countP_eq_length_filter, Nat.add_comm,
    List.length_eq_countP_add_countP (·.added)]
  simp

theorem mem_kept {m : Placed} {ms : List Placed} (h : m ∈ ms) (hm : m.added = false) :
    m.line ∈ kept ms :=
  List.mem_map_of_mem (List.mem_filter.2 ⟨h, by simp [hm]⟩)

/-- A line that was there before has its place by the number of such lines before it. -/
theorem prefix_of_kept {fs gs bs cs : List Placed} {l m : List Char}
    (h : fs ++ ⟨l, false⟩ :: bs = gs ++ ⟨m, false⟩ :: cs)
    (hk : (kept fs).length = (kept gs).length) : fs = gs := by
  have hnil {as : List Placed} {k : List Char} {ds es : List Placed}
      (ha : ⟨k, false⟩ :: ds = as ++ es) (hlen : (kept as).length = 0) : as = [] := by
    cases as with
    | nil => rfl
    | cons a as =>
      obtain ⟨rfl, -⟩ := List.cons.inj ha
      simp [kept] at hlen
  have hadd (as bs : List Placed) :
      (kept (as ++ bs)).length = (kept as).length + (kept bs).length := by
    simp [kept]
  obtain ⟨as, rfl, has⟩ | ⟨as, rfl, has⟩ := List.append_eq_append_iff.1 h
  · rw [hnil has (by rw [hadd] at hk; omega), List.append_nil]
  · rw [hnil has (by rw [hadd] at hk; omega), List.append_nil]

/-- Only blank lines and comments are put in. -/
def Remarks (ms : List Placed) : Prop := ∀ m ∈ ms, m.added = true → ¬ Relevant m.line

instance (ms : List Placed) : Decidable (Remarks ms) :=
  inferInstanceAs (Decidable (∀ m ∈ ms, m.added = true → ¬ Relevant m.line))

theorem Remarks.relevant_kept {ms : List Placed} (h : Remarks ms) :
    (kept ms).filter (Relevant ·) = (ms.map (·.line)).filter (Relevant ·) := by
  rw [kept, List.filter_map, List.filter_map, List.filter_filter]
  refine congrArg _ (List.filter_congr fun m hm => ?_)
  cases ha : m.added with
  | false => simp
  | true => simp [h m hm ha]

/-- The first fault stays the first, and what is put in before it only counts. -/
theorem Remarks.firstFault {ms : List Placed} (h : Remarks ms) {before : List (List Char)}
    {l : List Char} (hl : FirstFault (kept ms) before l) :
    ∃ front back, ms = front ++ ⟨l, false⟩ :: back ∧ kept front = before ∧
      FirstFault (ms.map (·.line)) (front.map (·.line)) l := by
  obtain ⟨⟨after, hafter⟩, faulty, first⟩ := hl
  rw [List.append_assoc, kept] at hafter
  obtain ⟨fs, gs, hfilter, rfl, hgs⟩ := List.map_eq_append_iff.1 hafter.symm
  obtain ⟨g, gs, rfl, rfl, -⟩ := List.map_eq_cons_iff.1 hgs
  obtain ⟨ps, qs, rfl, rfl, hqs⟩ := List.filter_eq_append_iff.1 hfilter
  obtain ⟨qs, rs, rfl, hqs, hg, -⟩ := List.filter_eq_cons_iff.1 hqs
  have hold : g.added = false := by simpa using hg
  have hkept : kept (ps ++ qs) = (ps.filter (!·.added)).map (·.line) := by
    rw [kept, List.filter_append, List.filter_eq_nil_iff.2 hqs, List.append_nil]
  refine ⟨ps ++ qs, rs, by simp [← hold], hkept, ⟨by simp, faulty, fun m hm => ?_⟩⟩
  obtain ⟨p, hp, rfl⟩ := List.mem_map.1 hm
  cases ha : p.added with
  | false => exact first _ (hkept ▸ mem_kept hp ha)
  | true =>
    have hmem : p ∈ ps ++ (qs ++ g :: rs) := by
      rw [← List.append_assoc]
      exact List.mem_append_left _ hp
    exact fun hf => h p hmem ha hf.1

/-! ### A text of findings -/

/-- The findings of a text are those of its relevant lines, one for each, in their order. If
a relevant line is no finding, the first such line is reported instead, with its number among
all lines. Blank lines and comments that are put in anywhere leave the findings as they are,
and move the number on by as many as stand before the line. -/
theorem parseAll_all_or_first (text : String) : ∃ ls,
    (∀ ls', Laid text.toList ls' ↔ ls' = ls) ∧
    (∀ fs, parseAll text = .ok fs ↔
      List.Forall₂ (fun l f => parse? (.ofList l) = some f) (ls.filter (Relevant ·)) fs) ∧
    (∀ e, parseAll text = .error e ↔
      ∃ before l, FirstFault ls before l ∧ e = ⟨before.length + 1, .ofList (trim l)⟩) ∧
    ∀ (text' : String) (ms : List Placed), Remarks ms → kept ms = ls →
      Laid text'.toList (ms.map (·.line)) →
      (∀ fs, parseAll text' = .ok fs ↔ parseAll text = .ok fs) ∧
      ∀ e, parseAll text = .error e → ∃ front l back, ms = front ++ ⟨l, false⟩ :: back ∧
        e.line = (kept front).length + 1 ∧
        parseAll text' = .error { e with line := e.line + front.countP (·.added) } := by
  have herror (e : Malformed) : parseAll text = .error e ↔ ∃ before l,
      FirstFault (lines text.toList) before l ∧
        e = ⟨before.length + 1, .ofList (trim l)⟩ := by
    simp only [parseAll, parseLines_eq_error_iff, Nat.add_comm 1]
  refine ⟨lines text.toList, laid_iff _, parseLines_eq_ok_iff _ 1, herror,
    fun text' ms hms hkept hlaid => ⟨fun fs => ?same, fun e he => ?moved⟩⟩
  case same =>
    rw [parseAll, parseAll, hlaid.lines_eq, parseLines_eq_ok_iff, parseLines_eq_ok_iff,
      ← hkept, hms.relevant_kept]
  case moved =>
    obtain ⟨before, l, hl, rfl⟩ := (herror e).1 he
    obtain ⟨front, back, rfl, rfl, hfault⟩ := hms.firstFault (hkept ▸ hl)
    refine ⟨front, l, back, rfl, rfl, ?_⟩
    rw [parseAll, hlaid.lines_eq, parseLines_eq_error_iff]
    refine ⟨_, l, hfault, ?_⟩
    simp only [List.length_map, ← length_kept front, Malformed.mk.injEq, and_true]
    omega

/-- A comment and a blank line among two lines, of which the second is at fault. -/
def noted : List Placed :=
  [⟨"# list".toList, true⟩, ⟨"App\\A::run".toList, false⟩, ⟨" ".toList, true⟩,
    ⟨"no finding".toList, false⟩]

theorem noted_fault_moves : Remarks noted ∧
    parseAll "App\\A::run\r\nno finding" = .error ⟨2, "no finding"⟩ ∧
    parseAll "# list\nApp\\A::run\n \r\nno finding\n" = .error ⟨4, "no finding"⟩ := by
  have hnoted : Remarks noted := by decide
  have hfault : parseAll "App\\A::run\r\nno finding" = .error ⟨2, "no finding"⟩ := by decide
  obtain ⟨ls, hls, -, -, hput⟩ := parseAll_all_or_first "App\\A::run\r\nno finding"
  have hkept : kept noted = ls := (hls _).1 ((laid_iff _ _).2 (by decide))
  obtain ⟨front, l, back, hfront, hline, hmoved⟩ :=
    (hput "# list\nApp\\A::run\n \r\nno finding\n" noted hnoted hkept
      ((laid_iff _ _).2 (by decide))).2 _ hfault
  have hsame : front ++ ⟨l, false⟩ :: back =
      noted.take 3 ++ ⟨"no finding".toList, false⟩ :: [] := hfront.symm
  rw [prefix_of_kept hsame (Nat.succ.inj hline.symm)] at hmoved
  exact ⟨hnoted, hfault, hmoved⟩

end Reprieve.Candidate
