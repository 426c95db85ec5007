import Reprieve.Proofs.PlainScalars
import Reprieve.Toml.Read

/-! What comes before the first entry of a TOML text: blank lines and comments. YAML passes over
the same characters if no comment holds a break that only YAML knows. -/
namespace Reprieve.Toml
open Yaml (Cursor Scan startsWith isBreak byteOrderMark)

def withoutMark : List Char → List Char
  | '\ufeff' :: r => r
  | cs => cs

/-! ### The first entry -/

/-- The first entry: a header, or a key with a point or an equals sign behind it. -/
inductive Opening : List Char → Prop
  | header (r : List Char) : Opening ('[' :: r)
  | key {cs r q : List Char} {key : String} {c : Char} (hk : simpleKey cs = some (key, r))
    (hr : skipBlanks r = c :: q) (hc : c = '.' ∨ c = '=') : Opening cs

theorem skipBlanks_skipBlanks (cs : List Char) : skipBlanks (skipBlanks cs) = skipBlanks cs := by
  cases h : skipBlanks cs with
  | nil => rfl
  | cons c r =>
    have hc := List.head?_dropWhile_not isBlank cs
    rw [skipBlanks] at h
    rw [h] at hc
    rw [skipBlanks, List.dropWhile_cons_of_neg (by simpa using hc)]

theorem expect_eq_some {c : Char} {cs r : List Char} (h : expect c cs = some r) : cs = c :: r := by
  cases cs with
  | nil => cases h
  | cons d cs =>
    rw [expect] at h
    split at h
    · rename_i hc
      cases h
      rw [hc]
    · cases h

theorem opening_of_keyValue {d d' : Draft} {cs r : List Char}
    (h : keyValue d (skipBlanks cs) = some (d', r)) : Opening (skipBlanks cs) := by
  obtain ⟨⟨keys, r⟩, hp, h⟩ := Option.bind_eq_some_iff.1 h
  obtain ⟨_, -, h⟩ := Option.bind_eq_some_iff.1 h
  obtain ⟨_, he, -⟩ := Option.bind_eq_some_iff.1 h
  have hequals := expect_eq_some he
  obtain ⟨⟨keys', r'⟩, hd, hp⟩ := Option.bind_eq_some_iff.1 hp
  dsimp only at hp
  split at hp
  · cases hp
    obtain ⟨⟨key, q⟩, hk, hd⟩ := Option.bind_eq_some_iff.1 hd
    rw [skipBlanks_skipBlanks] at hk
    dsimp only at hd
    split at hd
    · rename_i hq
      exact .key hk hq (.inl rfl)
    · cases hd
      exact .key hk hequals (.inr rfl)
  · cases hp

theorem lines_nil {n : Nat} {d d' : Draft} (h : lines n d [] = some d') : d' = d := by
  cases n with
  | zero => cases h
  | succ n =>
    cases h
    rfl

/-- Lines that are read lead to an entry, or there is none. -/
theorem opening_of_lines {n : Nat} {cs : List Char} {d : Draft} (h : lines n {} cs = some d) :
    skipLines n cs = [] ∧ d = {} ∨ Opening (skipLines n cs) := by
  induction n generalizing cs with
  | zero => cases h
  | succ n ih =>
    rw [lines] at h
    rw [skipLines]
    split at h
    · rename_i hb
      cases h
      rw [hb]
      exact .inl ⟨rfl, rfl⟩
    · rename_i t hb
      obtain ⟨r, hend, h⟩ := Option.bind_eq_some_iff.1 h
      rw [hb]
      have hstay : skipBlanks ('#' :: t) = '#' :: t := rfl
      rw [endLine?, hstay] at hend
      cases hx : skipComment ('#' :: t) with
      | nil =>
        rw [hx] at hend
        cases hend
        exact .inl ⟨rfl, lines_nil h⟩
      | cons c x =>
        rw [hx] at hend
        dsimp only at hend
        rw [hend]
        exact ih h
    · rename_i t hb
      rw [hb]
      exact .inr (.header t)
    · rename_i hcomment hheader
      have hskip : skipComment (skipBlanks cs) = skipBlanks cs := by
        rw [skipComment.eq_def]
        split
        · rename_i hb
          exact absurd hb (hcomment _)
        · rfl
      rw [hskip]
      cases hn : newline? (skipBlanks cs) with
      | some y =>
        simp only [hn] at h ⊢
        exact ih h
      | none =>
        simp only [hn] at h ⊢
        obtain ⟨⟨d', r⟩, hk, -⟩ := Option.bind_eq_some_iff.1 h
        exact .inr (opening_of_keyValue hk)

/-! ### The lines before it -/

def isOpener (c : Char) : Bool := c == '[' || c == '"' || c == '\'' || isBareChar c

theorem isOpener_range {c : Char} (h : isOpener c = true) : 0x22 ≤ c.toNat ∧ c.toNat ≤ 0x7A := by
  simp only [isOpener, isBareChar, Text.isDigit, Bool.or_eq_true, Bool.and_eq_true, beq_iff_eq,
    decide_eq_true_eq, Char.le_def, UInt32.le_iff_toNat_le] at h
  simp only [Char.toNat]
  rcases h with ((rfl | rfl) | rfl) | ((((h | h) | h) | rfl) | rfl)
  all_goals first | decide | exact ⟨Nat.le_trans (by decide) h.1, Nat.le_trans h.2 (by decide)⟩

theorem isOpener_printable {c : Char} (h : isOpener c = true) : isPrintable c = true := by
  obtain ⟨hlow, hhigh⟩ := isOpener_range h
  simp only [isPrintable, Bool.or_eq_true, Bool.and_eq_true, decide_eq_true_eq]
  exact .inr ⟨by omega, by omega⟩

theorem isOpener_isBreak {c : Char} (h : isOpener c = true) : isBreak c = false := by
  rw [Bool.eq_false_iff]
  intro hb
  simp only [isBreak, Bool.or_eq_true, beq_iff_eq] at hb
  rcases hb with (((rfl | rfl) | rfl) | rfl) | rfl <;> cases h

theorem Opening.head {cs : List Char} (h : Opening cs) :
    ∃ c r, cs = c :: r ∧ isOpener c = true := by
  cases h with
  | header r => exact ⟨_, r, rfl, rfl⟩
  | key hk =>
    rw [simpleKey.eq_def] at hk
    split at hk
    · exact ⟨_, _, rfl, rfl⟩
    · exact ⟨_, _, rfl, rfl⟩
    · cases cs with
      | nil => cases hk
      | cons c r =>
        refine ⟨c, r, rfl, ?_⟩
        cases hc : isBareChar c
        · simp [hc] at hk
        · rw [isOpener, hc, Bool.or_true]

/-- The breaks that end a comment in YAML and not in TOML. -/
def isForeignBreak (c : Char) : Bool := c == '\u0085' || c == '\u2028' || c == '\u2029'

theorem isBreak_eq_false {c : Char} (hp : isPrintable c = true) (hf : isForeignBreak c = false) :
    isBreak c = false := by
  rw [Bool.eq_false_iff]
  intro h
  simp only [isBreak, Bool.or_eq_true, beq_iff_eq] at h
  rcases h with (((rfl | rfl) | rfl) | rfl) | rfl
  · cases hp
  · cases hp
  all_goals cases hf

theorem newline?_eq_some {x y : List Char} (h : newline? x = some y) :
    x = '\n' :: y ∨ x = '\r' :: '\n' :: y := by
  rw [newline?.eq_def] at h
  split at h
  · cases h
    exact .inl rfl
  · cases h
    exact .inr rfl
  · cases h

theorem skipComment_suffix (cs : List Char) : skipComment cs <:+ cs := by
  rw [skipComment.eq_def]
  split
  · exact (List.dropWhile_suffix _).trans (List.suffix_cons _ _)
  · exact List.suffix_rfl

theorem skipLine_suffix (cs : List Char) : skipComment (skipBlanks cs) <:+ cs :=
  (skipComment_suffix _).trans (List.dropWhile_suffix _)

theorem newline?_suffix {x y : List Char} (h : newline? x = some y) :
    y <:+ x ∧ y.length < x.length := by
  rcases newline?_eq_some h with rfl | rfl
  · exact ⟨List.suffix_cons _ _, Nat.lt_succ_self _⟩
  · have hlength : y.length < y.length + 1 + 1 := by omega
    exact ⟨(List.suffix_cons _ _).trans (List.suffix_cons _ _), hlength⟩

theorem skipLines_suffix (n : Nat) (cs : List Char) : skipLines n cs <:+ cs := by
  induction n generalizing cs with
  | zero => exact List.suffix_rfl
  | succ n ih =>
    rw [skipLines]
    split
    · rename_i hn
      exact ((ih _).trans (newline?_suffix hn).1).trans (skipLine_suffix cs)
    · exact skipLine_suffix cs

/-- A comment without such breaks is the same in both. -/
theorem dropWhile_comment {t : List Char}
    (hfree : ∀ c ∈ t.takeWhile isPrintable, isForeignBreak c = false)
    (hend : t.dropWhile isPrintable = [] ∨ startsWith isBreak (t.dropWhile isPrintable) = true) :
    ('#' :: t).dropWhile (!isBreak ·) = t.dropWhile isPrintable := by
  have hcomment : ∀ c ∈ '#' :: t.takeWhile isPrintable, (!isBreak c) = true := by
    refine List.forall_mem_cons.2 ⟨rfl, fun c hc => ?_⟩
    rw [isBreak_eq_false (List.all_eq_true.1 List.all_takeWhile c hc) (hfree c hc)]
    rfl
  have hsplit : '#' :: t = ('#' :: t.takeWhile isPrintable) ++ t.dropWhile isPrintable := by
    rw [List.cons_append, List.takeWhile_append_dropWhile]
  rw [hsplit, List.dropWhile_append_of_pos hcomment]
  rcases hend with h | h
  · rw [h]
    rfl
  · match hx : t.dropWhile isPrintable, h with
    | c :: x, h => rw [List.dropWhile_cons_of_neg (by simpa [startsWith] using h)]

/-- Of the blanks YAML passes over as many, or it stops at a tab. -/
theorem dropWhile_skipsBlank (s : Scan) (cs : List Char) :
    cs.dropWhile s.skipsBlank = skipBlanks cs ∨
      startsWith (· == '\t') (cs.dropWhile s.skipsBlank) = true := by
  induction cs with
  | nil => exact .inl rfl
  | cons c cs ih =>
    cases hc : s.skipsBlank c with
    | true =>
      have hblank : isBlank c = true := by
        simp only [Scan.skipsBlank, Bool.or_eq_true, Bool.and_eq_true] at hc
        rw [isBlank, Bool.or_eq_true]
        exact hc.imp_right And.left
      rw [List.dropWhile_cons_of_pos hc, skipBlanks, List.dropWhile_cons_of_pos hblank]
      exact ih
    | false =>
      rw [List.dropWhile_cons_of_neg (by simp [hc])]
      cases hblank : isBlank c with
      | true =>
        simp only [Scan.skipsBlank, Bool.or_eq_false_iff] at hc
        rw [isBlank, hc.1, Bool.false_or] at hblank
        exact .inr hblank
      | false => exact .inl (by rw [skipBlanks, List.dropWhile_cons_of_neg (by simp [hblank])])

theorem startsWith_isBreak {x y : List Char} (h : newline? x = some y) :
    startsWith isBreak x = true := by
  rcases newline?_eq_some h with rfl | rfl <;> rfl

theorem newline_eq_some {c : Cursor} {y : List Char} (h : newline? c.rest = some y) :
    ∃ b d, c.newline = some (b, d) ∧ d.rest = y := by
  rcases newline?_eq_some h with hr | hr
  · refine ⟨'\n', { c.skip 1 with line := c.line + 1, column := 0 }, ?_, ?_⟩
    · rw [Cursor.newline, hr]
      rfl
    · simp [Cursor.skip, hr]
  · refine ⟨'\n', { c.skip 2 with line := c.line + 1, column := 0 }, ?_, ?_⟩
    · rw [Cursor.newline, hr]
      rfl
    · simp [Cursor.skip, hr]

/-- What the lines before an entry lead to. -/
def Reached (x : List Char) : Prop := x = [] ∨ Opening x

theorem Reached.head {c : Char} {r : List Char} (h : Reached (c :: r)) : isOpener c = true := by
  obtain ⟨_, _, he, hc⟩ := (h.resolve_left nofun).head
  cases he
  exact hc

theorem Reached.not_startsWith {p : Char → Bool} {x : List Char} (h : Reached x)
    (hp : ∀ c, isOpener c = true → p c = false) : startsWith p x = false := by
  cases x with
  | nil => rfl
  | cons c r => exact hp c h.head

theorem rest_afterMark (c : Cursor) (hc : c.column = 0) :
    (Scan.afterMark c).rest = withoutMark c.rest := by
  rw [Scan.afterMark, hc, withoutMark.eq_def]
  split
  · rename_i h
    cases hr : c.rest with
    | nil =>
      rw [hr] at h
      cases h
    | cons x r =>
      rw [hr] at h
      obtain rfl : x = byteOrderMark := beq_iff_eq.1 h
      simp [Cursor.skip, hr, byteOrderMark]
  · rename_i h
    split
    · rename_i hr
      rw [hr] at h
      exact absurd rfl h
    · rfl

theorem length_withoutMark (cs : List Char) : (withoutMark cs).length ≤ cs.length := by
  rw [withoutMark.eq_def]
  split
  · exact Nat.le_succ _
  · exact Nat.le_refl _

theorem Reached.not_mark {n : Nat} {cs : List Char} (h : Reached (skipLines n cs)) (hn : 0 < n) :
    startsWith (· == byteOrderMark) cs = false := by
  rw [Bool.eq_false_iff]
  intro hm
  match n, cs, hm with
  | n + 1, c :: r, hm =>
    obtain rfl : c = byteOrderMark := beq_iff_eq.1 hm
    have hstay : skipLines (n + 1) (byteOrderMark :: r) = byteOrderMark :: r := rfl
    rw [hstay] at h
    cases h.head

section Lead
variable {n : Nat} {cs x : List Char}

/-- On a line before the first entry both pass over the same characters, or YAML stops at a tab. -/
theorem rest_pastBlanks {s : Scan} (hs : (Scan.afterMark s.cursor).rest = cs)
    (hx : skipComment (skipBlanks cs) = x) (hend : Reached x ∨ startsWith isBreak x = true)
    (hfree : ∀ p, cs = p ++ x → ∀ c ∈ p, isForeignBreak c = false) :
    s.pastBlanks.rest = x ∨ startsWith (· == '\t') s.pastBlanks.rest = true := by
  rw [Scan.rest_pastBlanks, hs]
  rcases dropWhile_skipsBlank s cs with hq | hq
  · left
    rw [hq]
    rw [skipComment.eq_def] at hx
    split at hx
    · rename_i t ht
      rw [ht]
      change ('#' :: t).dropWhile (!isBreak ·) = x
      have hsplit : cs = (cs.takeWhile isBlank ++ '#' :: t.takeWhile isPrintable) ++ x := by
        rw [← hx, List.append_assoc, List.cons_append, List.takeWhile_append_dropWhile, ← ht,
          skipBlanks, List.takeWhile_append_dropWhile]
      have hcomment : ∀ c ∈ t.takeWhile isPrintable, isForeignBreak c = false := fun c hc =>
        hfree _ hsplit c (List.mem_append_right _ (List.mem_cons_of_mem _ hc))
      rw [← hx]
      refine dropWhile_comment hcomment ?_
      rw [hx]
      refine hend.imp_left fun hr => ?_
      -- no entry begins where a comment ends
      cases hcase : x with
      | nil => rfl
      | cons c r =>
        rw [hcase] at hx hr
        have hnot := List.head?_dropWhile_not isPrintable t
        rw [hx] at hnot
        cases (isOpener_printable hr.head).symm.trans (by simpa using hnot)
    · rename_i ht
      rw [hx]
      dsimp only
      split
      · rename_i hhash
        match x, hhash with
        | c :: r, hhash =>
          obtain rfl : c = '#' := beq_iff_eq.1 hhash
          exact absurd hx (ht r)
      · rfl
  · right
    match hr : cs.dropWhile s.skipsBlank, hq with
    | c :: r, hq =>
      obtain rfl : c = '\t' := beq_iff_eq.1 hq
      rfl

theorem toNextToken_lead {m : Nat} {s : Scan} (hs : (Scan.afterMark s.cursor).rest = cs)
    (hn : cs.length < n) (hm : n ≤ m) (hr : Reached (skipLines n cs))
    (hfree : ∀ p, cs = p ++ skipLines n cs → ∀ c ∈ p, isForeignBreak c = false) :
    (s.toNextToken m).cursor.rest = skipLines n cs ∨
      startsWith (· == '\t') (s.toNextToken m).cursor.rest = true := by
  induction n generalizing cs s m with
  | zero => cases hn
  | succ n ih =>
    obtain ⟨m, rfl⟩ : ∃ k, m = k + 1 := ⟨m - 1, by omega⟩
    rw [Scan.toNextToken_succ]
    rw [skipLines] at hr hfree ⊢
    have hsuffix := skipLine_suffix cs
    generalize hx : skipComment (skipBlanks cs) = x at hr hfree hsuffix ⊢
    have htab (u : Scan) (h : startsWith (· == '\t') u.pastBlanks.rest = true) :
        u.pastBlanks.newline = none := by
      rw [Cursor.newline_eq_none_iff]
      match hu : u.pastBlanks.rest, h with
      | c :: r, h =>
        obtain rfl : c = '\t' := beq_iff_eq.1 h
        rfl
    cases hnew : newline? x with
    | some y =>
      simp only [hnew] at hr hfree ⊢
      obtain ⟨hy, hlt⟩ := newline?_suffix hnew
      have hpiece (p : List Char) (hp : cs = p ++ x) : ∀ c ∈ p, isForeignBreak c = false := by
        obtain ⟨z, hz⟩ := (skipLines_suffix n y).trans hy
        intro c hc
        exact hfree (p ++ z) (by rw [List.append_assoc, hz, hp]) c (List.mem_append_left _ hc)
      rcases rest_pastBlanks hs hx (.inr (startsWith_isBreak hnew)) hpiece with hp | hp
      · obtain ⟨b, d, hd, hrest⟩ := newline_eq_some (c := s.pastBlanks) (hp ▸ hnew)
        simp only [hd]
        have hlen := hsuffix.length_le
        refine ih ?_ (by omega) (by omega) hr fun p hp c hc => ?_
        · rw [← hrest] at hr ⊢
          exact Scan.rest_afterMark_of_ne (hr.not_mark (by omega))
        · obtain ⟨z, hz⟩ := hy.trans hsuffix
          exact hfree (z ++ p) (by rw [List.append_assoc, ← hp, hz]) c (List.mem_append_right _ hc)
      · rw [htab s hp]
        exact .inr hp
    | none =>
      simp only [hnew] at hr hfree ⊢
      have hp := rest_pastBlanks hs hx (.inl hr) hfree
      have hnone : s.pastBlanks.newline = none := by
        rcases hp with hp | hp
        · rw [Cursor.newline_eq_none_iff, hp]
          exact hr.not_startsWith fun _ => isOpener_isBreak
        · exact htab s hp
      rw [hnone]
      exact hp

end Lead

end Reprieve.Toml
