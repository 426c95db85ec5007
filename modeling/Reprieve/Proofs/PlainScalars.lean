import Reprieve.Yaml.Token

/-! Plain scalars and the line on which they begin. Outside flow collections a plain scalar goes on
to the end of its line unless a colon makes a key of it, so without such a colon the next token
lies on a later line. -/
namespace Reprieve.Yaml

/-- On the first line, before a comment, a colon comes before a blank or at the end. -/
def keyed : List Char → Bool
  | [] => false
  | c :: r =>
    !isBreak c && (c == ':' && atSpace r || !(isBlank c && startsWith (· == '#') r) && keyed r)

theorem keyed_cons {c : Char} {r : List Char} (hc : isSpace c = false) :
    keyed (c :: r) = (c == ':' && atSpace r || keyed r) := by
  rw [isSpace, Bool.or_eq_false_iff] at hc
  simp [keyed, hc.1, hc.2]

theorem keyed_colon {r : List Char} (hr : atSpace r = true) : keyed (':' :: r) = true := by
  rw [keyed_cons (by decide), hr]
  rfl

theorem not_keyed_append {p q : List Char} (hp : ∀ c ∈ p, isSpace c = false)
    (h : keyed (p ++ q) = false) : keyed q = false := by
  induction p with
  | nil => exact h
  | cons c p ih =>
    rw [List.cons_append, keyed_cons (hp c List.mem_cons_self), Bool.or_eq_false_iff] at h
    exact ih (fun d hd => hp d (List.mem_cons_of_mem c hd)) h.2

theorem not_keyed_dropWhile {q : List Char} (h : keyed q = false) :
    startsWith (· == '#') (q.dropWhile isBlank) = true ∨ keyed (q.dropWhile isBlank) = false := by
  induction q with
  | nil => exact .inr rfl
  | cons c r ih =>
    rw [List.dropWhile_cons]
    split
    · rename_i hc
      have hbreak : isBreak c = false := by
        simp only [isBlank, Bool.or_eq_true, beq_iff_eq] at hc
        rcases hc with rfl | rfl <;> rfl
      by_cases hcomment : startsWith (· == '#') r = true
      · cases r with
        | nil => cases hcomment
        | cons d r =>
          obtain rfl : d = '#' := beq_iff_eq.1 hcomment
          exact .inl rfl
      · refine ih ?_
        simp only [keyed, hbreak, hc, Bool.eq_false_iff.2 hcomment] at h
        simpa using (Bool.or_eq_false_iff.1 h).2
    · exact .inr h

namespace Plain

theorem run_outside_flow (cs : List Char) : ∃ p q, run false cs = some p ∧ cs = p ++ q ∧
    (∀ c ∈ p, isSpace c = false) ∧
    (q = [] ∨ startsWith isSpace q = true ∨ ∃ r, q = ':' :: r ∧ atSpace r = true) := by
  induction cs with
  | nil => exact ⟨[], [], rfl, rfl, nofun, .inl rfl⟩
  | cons c r ih =>
    obtain ⟨p, q, hp, rfl, hspace, hq⟩ := ih
    by_cases hc : isSpace c = true
    · exact ⟨[], _, by simp [run, hc], rfl, nofun, .inr (.inl hc)⟩
    · by_cases hk : c = ':' ∧ atSpace (p ++ q) = true
      · obtain ⟨rfl, hk⟩ := hk
        exact ⟨[], _, by simp [run, hk], rfl, nofun, .inr (.inr ⟨_, rfl, hk⟩)⟩
      · refine ⟨c :: p, q, by simp [run, hc, hk, hp], rfl, ?_, hq⟩
        exact List.forall_mem_cons.2 ⟨Bool.eq_false_iff.2 hc, hspace⟩

end Plain

namespace Cursor

theorem newline_eq_some {c d : Cursor} {b : Char} (h : c.newline = some (b, d)) :
    d.line = c.line + 1 ∧ d.column = 0 := by
  rw [newline] at h
  split at h
  all_goals try cases h
  all_goals try exact ⟨rfl, rfl⟩
  split at h
  · cases h
    exact ⟨rfl, rfl⟩
  · cases h

theorem isSome_newline (c : Cursor) : c.newline.isSome = startsWith isBreak c.rest := by
  rw [newline]
  split
  · rename_i hr
    rw [hr]
    rfl
  · rename_i hr
    rw [hr]
    rfl
  · rename_i hr
    rw [hr]
    rfl
  · rename_i b _ _ _ _ hr
    rw [hr, startsWith]
    cases isBreak b <;> rfl
  · rename_i hr
    rw [hr]
    rfl

theorem newline_eq_none_iff {c : Cursor} :
    c.newline = none ↔ startsWith isBreak c.rest = false := by
  rw [← isSome_newline, Option.isSome_eq_false_iff, Option.isNone_iff_eq_none]

end Cursor

theorem Gap.read_line {edge fuel : Nat} {g g' : Gap} {c d : Cursor}
    (h : Gap.read edge fuel g c = some (g', d)) :
    startsWith isSpace d.rest = false ∧ c.line ≤ d.line ∧
      (d.line = c.line → d.rest = c.rest.dropWhile isBlank ∧ c.column ≤ d.column) := by
  induction fuel generalizing g c with
  | zero => cases h
  | succ fuel ih =>
    rw [Gap.read] at h
    split at h
    · rename_i b e hn
      obtain ⟨hline, -⟩ := Cursor.newline_eq_some hn
      obtain ⟨hspace, hle, -⟩ := ih h
      exact ⟨hspace, by omega, by omega⟩
    · rename_i hn
      have hbreak := Cursor.newline_eq_none_iff.1 hn
      split at h
      · rename_i ch r hr
        have hskip (g : Gap) (hb : isBlank ch = true)
            (h : Gap.read edge fuel g (c.skip 1) = some (g', d)) :
            startsWith isSpace d.rest = false ∧ c.line ≤ d.line ∧
              (d.line = c.line → d.rest = c.rest.dropWhile isBlank ∧ c.column ≤ d.column) := by
          obtain ⟨hspace, hle, hsame⟩ := ih h
          refine ⟨hspace, hle, fun he => ?_⟩
          obtain ⟨hrest, hcol⟩ := hsame he
          refine ⟨?_, Nat.le_trans (Nat.le_succ _) hcol⟩
          rw [hrest, hr, List.dropWhile_cons_of_pos hb]
          simp [Cursor.skip, hr]
        split at h
        · rename_i hblank
          cases h
          rw [Bool.not_eq_true'] at hblank
          rw [hr] at hbreak ⊢
          refine ⟨?_, Nat.le_refl _, fun _ => ⟨?_, Nat.le_refl _⟩⟩
          · exact Bool.or_eq_false_iff.2 ⟨hblank, hbreak⟩
          · rw [List.dropWhile_cons_of_neg (by simp [hblank])]
        · rename_i hblank
          rw [Bool.not_eq_true', Bool.not_eq_false] at hblank
          split at h
          · split at h
            · cases h
            · exact hskip _ hblank h
          · exact hskip _ hblank h
      · rename_i hr
        cases h
        rw [hr]
        exact ⟨rfl, Nat.le_refl _, fun _ => ⟨rfl, Nat.le_refl _⟩⟩

namespace Plain

/-- The text of a plain scalar, piece by piece, and the place where it ends. -/
inductive Reads (flow : Bool) (edge : Nat) :
    List Char → Gap → Cursor → List Char → Cursor → Prop
  | stop {text gap c} (h : (c.atDocumentMark || startsWith (· == '#') c.rest) = true) :
    Reads flow edge text gap c text c
  | none {text gap c} (h : (c.atDocumentMark || startsWith (· == '#') c.rest) = false)
    (hp : run flow c.rest = some []) : Reads flow edge text gap c text c
  | last {text gap c p} (h : (c.atDocumentMark || startsWith (· == '#') c.rest) = false)
    (hp : run flow c.rest = some p) (hne : p ≠ [])
    (hs : startsWith isSpace (c.skip p.length).rest = false) :
    Reads flow edge text gap c (text ++ gap.text ++ p) (c.skip p.length)
  | outdented {text gap gap' c d p}
    (h : (c.atDocumentMark || startsWith (· == '#') c.rest) = false)
    (hp : run flow c.rest = some p) (hne : p ≠ [])
    (hgap : Gap.read edge (c.size + 1) {} (c.skip p.length) = some (gap', d))
    (hd : d.column < edge) : Reads flow edge text gap c (text ++ gap.text ++ p) d
  | more {text gap gap' c d e p t}
    (h : (c.atDocumentMark || startsWith (· == '#') c.rest) = false)
    (hp : run flow c.rest = some p) (hne : p ≠ [])
    (hgap : Gap.read edge (c.size + 1) {} (c.skip p.length) = some (gap', d))
    (hr : Reads flow edge (text ++ gap.text ++ p) gap' d t e) : Reads flow edge text gap c t e

theorem reads_of_read {flow : Bool} {edge fuel : Nat} {text t : List Char} {gap : Gap} {b : Bool}
    {c d : Cursor} (h : read flow edge fuel text gap c = some (t, b, d)) :
    Reads flow edge text gap c t d := by
  induction fuel generalizing text gap c with
  | zero => cases h
  | succ fuel ih =>
    rw [read] at h
    split at h
    · rename_i hstop
      cases h
      exact .stop hstop
    rename_i hgo
    rw [Bool.not_eq_true] at hgo
    obtain ⟨p, hp, h⟩ := Option.bind_eq_some_iff.1 h
    split at h
    · rename_i hempty
      cases h
      exact .none hgo (List.isEmpty_iff.1 hempty ▸ hp)
    rename_i hne
    rw [List.isEmpty_iff] at hne
    dsimp only at h
    split at h
    · rename_i hs
      cases h
      exact .last hgo hp hne (by simpa using hs)
    obtain ⟨⟨gap', e⟩, hgap, h⟩ := Option.bind_eq_some_iff.1 h
    dsimp only at h
    split at h
    · rename_i hd
      cases h
      exact .outdented hgo hp hne hgap (of_decide_eq_true (Bool.and_eq_true_iff.1 hd).2)
    · exact .more hgo hp hne hgap (ih h)

theorem Reads.begins {flow : Bool} {edge : Nat} {text t : List Char} {gap : Gap} {c d : Cursor}
    (h : Reads flow edge text gap c t d) : text <+: t := by
  have hpiece (text gap p : List Char) : text <+: text ++ gap ++ p := by
    rw [List.append_assoc]
    exact List.prefix_append _ _
  induction h with
  | stop => exact List.prefix_rfl
  | none => exact List.prefix_rfl
  | last => exact hpiece _ _ _
  | outdented => exact hpiece _ _ _
  | more _ _ _ _ _ ih => exact (hpiece _ _ _).trans ih

theorem Reads.ne_nil {edge : Nat} {text t : List Char} {gap : Gap} {c d : Cursor} {x : Char}
    {r : List Char} (h : Reads false edge text gap c t d) (hr : c.rest = x :: r)
    (hm : c.atDocumentMark = false) (hx : isSpace x = false ∧ x ≠ '#' ∧ x ≠ ':') : t ≠ [] := by
  cases h with
  | stop h => simp [hm, hr, startsWith, hx.2.1] at h
  | none _ hp => simp [hr, run, hx.1, hx.2.2] at hp
  | last _ _ hne => simp [hne]
  | outdented _ _ hne => simp [hne]
  | more _ _ hne _ hr =>
    intro ht
    have hp := hr.begins
    rw [ht, List.prefix_nil] at hp
    simp [hne] at hp

/-! ### The line of a plain scalar -/

/-- On this line, if it is still this line, neither a mark of the document nor a key comes. -/
structure Unkeyed (line : Nat) (c : Cursor) : Prop where
  reached : line ≤ c.line
  mark : c.line = line → c.atDocumentMark = false
  space : c.line = line → startsWith isSpace c.rest = false
  key : c.line = line → startsWith (· == '#') c.rest = true ∨ keyed c.rest = false

/-- The line is left but for a comment. -/
def Over (line : Nat) (c : Cursor) : Prop :=
  line < c.line ∨ c.line = line ∧ (c.rest = [] ∨ startsWith (· == '#') c.rest = true)

theorem atDocumentMark_of_column {c : Cursor} (h : c.column ≠ 0) : c.atDocumentMark = false := by
  simp [Cursor.atDocumentMark, h]

section Piece
variable {line : Nat} {c : Cursor} {p : List Char} (hc : Unkeyed line c)
  (hstop : (c.atDocumentMark || startsWith (· == '#') c.rest) = false)
  (hp : run false c.rest = some p)
include hc hstop hp

theorem Unkeyed.ends (hl : c.line = line) : ∃ q, c.rest = p ++ q ∧
    (q = [] ∨ startsWith isSpace q = true) ∧ keyed q = false := by
  obtain ⟨p', q, hp', hr, hspace, hq⟩ := run_outside_flow c.rest
  obtain rfl := Option.some.inj (hp.symm.trans hp')
  have hkey : keyed q = false := by
    refine not_keyed_append hspace ?_
    rw [← hr]
    exact (hc.key hl).resolve_left (by simp [(Bool.or_eq_false_iff.1 hstop).2])
  refine ⟨q, hr, ?_, hkey⟩
  rcases hq with hq | hq | ⟨r, rfl, hcolon⟩
  · exact .inl hq
  · exact .inr hq
  · cases (keyed_colon hcolon).symm.trans hkey

theorem Unkeyed.next {edge fuel : Nat} {d : Cursor} {gap : Gap} (hne : p ≠ [])
    (h : Gap.read edge fuel {} (c.skip p.length) = some (gap, d)) : Unkeyed line d := by
  obtain ⟨hd, hle, hsame⟩ := Gap.read_line h
  have hline : (c.skip p.length).line = c.line := rfl
  have hcol : (c.skip p.length).column = c.column + p.length := rfl
  rw [hline] at hle hsame
  have hreached := hc.reached
  have hback (he : d.line = line) : c.line = line ∧ d.line = c.line := by omega
  refine ⟨by omega, fun he => ?mark, fun _ => hd, fun he => ?key⟩
  case mark =>
    have hpos := List.length_pos_iff.2 hne
    obtain ⟨-, hge⟩ := hsame (hback he).2
    exact atDocumentMark_of_column (by omega)
  case key =>
    obtain ⟨hcl, hdl⟩ := hback he
    obtain ⟨q, hr, -, hkey⟩ := hc.ends hstop hp hcl
    have hrest : (c.skip p.length).rest = q := by simp [Cursor.skip, hr]
    rw [(hsame hdl).1, hrest]
    exact not_keyed_dropWhile hkey

end Piece

/-- A plain scalar leaves its line if there is no key on it. -/
theorem Reads.over {line : Nat} {text t : List Char} {gap : Gap} {c d : Cursor}
    (h : Reads false 0 text gap c t d) (hc : Unkeyed line c) : Over line d := by
  have hlater {c : Cursor} (hc : Unkeyed line c) (hl : c.line ≠ line) : line < c.line :=
    Nat.lt_of_le_of_ne hc.reached (Ne.symm hl)
  induction h with
  | @stop _ _ c h =>
    by_cases hl : c.line = line
    · rw [hc.mark hl, Bool.false_or] at h
      exact .inr ⟨hl, .inr h⟩
    · exact .inl (hlater hc hl)
  | @none _ _ c h hp =>
    by_cases hl : c.line = line
    · obtain ⟨q, hr, hq, -⟩ := hc.ends h hp hl
      have hs := hc.space hl
      rw [hr, List.nil_append] at hs
      exact .inr ⟨hl, .inl (hr.trans (hq.resolve_right (by simp [hs])))⟩
    · exact .inl (hlater hc hl)
  | @last _ _ c p h hp hne hs =>
    by_cases hl : c.line = line
    · obtain ⟨q, hr, hq, -⟩ := hc.ends h hp hl
      have hrest : (c.skip p.length).rest = q := by simp [Cursor.skip, hr]
      rw [hrest] at hs
      exact .inr ⟨hl, .inl (hrest.trans (hq.resolve_right (by simp [hs])))⟩
    · exact .inl (Nat.lt_of_le_of_ne hc.reached (Ne.symm hl))
  | outdented _ _ _ _ hd => cases hd
  | more h hp hne hgap _ ih => exact ih (hc.next h hp hne hgap)

end Plain

namespace Scan

def afterMark (c : Cursor) : Cursor :=
  if c.column == 0 && startsWith (· == byteOrderMark) c.rest then c.skip 1 else c

def skipsBlank (s : Scan) (c : Char) : Bool := c == ' ' || (c == '\t' && (s.flow || !s.keyAllowed))

def pastBlanks (s : Scan) : Cursor :=
  let c := (afterMark s.cursor).skipWhile s.skipsBlank
  if startsWith (· == '#') c.rest then c.skipWhile (!isBreak ·) else c

theorem toNextToken_succ (fuel : Nat) (s : Scan) : s.toNextToken (fuel + 1) =
    match s.pastBlanks.newline with
    | some (_, c) =>
      toNextToken fuel { s with cursor := c, keyAllowed := s.keyAllowed || !s.flow }
    | none => { s with cursor := s.pastBlanks } := rfl

theorem line_afterMark (c : Cursor) : (afterMark c).line = c.line := by
  rw [afterMark]
  split <;> rfl

theorem line_pastBlanks (s : Scan) : s.pastBlanks.line = s.cursor.line := by
  have hline := line_afterMark s.cursor
  rw [pastBlanks]
  split <;> exact hline

theorem drop_takeWhile_length {α : Type} (p : α → Bool) (l : List α) :
    l.drop (l.takeWhile p).length = l.dropWhile p := by
  induction l with
  | nil => rfl
  | cons a l ih => cases h : p a <;> simp [h, ih]

theorem rest_afterMark_of_ne {c : Cursor} (h : startsWith (· == byteOrderMark) c.rest = false) :
    (afterMark c).rest = c.rest := by
  rw [afterMark, h, Bool.and_false]
  rfl

theorem eq_nil_of_dropWhile {l : List Char}
    (h : startsWith isBreak (l.dropWhile (!isBreak ·)) = false) :
    l.dropWhile (!isBreak ·) = [] := by
  cases hl : l.dropWhile (!isBreak ·) with
  | nil => rfl
  | cons c r =>
    have hc := List.head?_dropWhile_not (!isBreak ·) l
    rw [hl] at h hc
    simp [show isBreak c = false from h] at hc

theorem rest_skipWhile (c : Cursor) (p : Char → Bool) :
    (c.skipWhile p).rest = c.rest.dropWhile p :=
  drop_takeWhile_length p c.rest

theorem rest_pastBlanks (s : Scan) : s.pastBlanks.rest =
    let r := (afterMark s.cursor).rest.dropWhile s.skipsBlank
    if startsWith (· == '#') r then r.dropWhile (!isBreak ·) else r := by
  simp only [pastBlanks, apply_ite Cursor.rest, rest_skipWhile]

theorem line_le_toNextToken (fuel : Nat) (s : Scan) :
    s.cursor.line ≤ (s.toNextToken fuel).cursor.line := by
  induction fuel generalizing s with
  | zero => exact Nat.le_refl _
  | succ fuel ih =>
    have hline := line_pastBlanks s
    rw [toNextToken_succ]
    split
    · rename_i c hn
      obtain ⟨hnext, -⟩ := Cursor.newline_eq_some hn
      have hle : s.cursor.line ≤ c.line := by omega
      exact Nat.le_trans hle (ih { s with cursor := c, keyAllowed := s.keyAllowed || !s.flow })
    · exact Nat.le_of_eq hline.symm

/-- Where a line is over, the next token lies on a later one, or there is none. -/
theorem toNextToken_over {line : Nat} {s : Scan} (h : Plain.Over line s.cursor) (fuel : Nat) :
    line < (s.toNextToken (fuel + 1)).cursor.line ∨
      (s.toNextToken (fuel + 1)).cursor.rest = [] := by
  rcases h with h | ⟨hl, hr⟩
  · exact .inl (Nat.lt_of_lt_of_le h (line_le_toNextToken _ s))
  have hline := line_pastBlanks s
  rw [toNextToken_succ]
  split
  · rename_i c hn
    obtain ⟨hnext, -⟩ := Cursor.newline_eq_some hn
    have hlt : line < c.line := by omega
    exact .inl (Nat.lt_of_lt_of_le hlt
      (line_le_toNextToken fuel { s with cursor := c, keyAllowed := s.keyAllowed || !s.flow }))
  · rename_i hn
    refine .inr (?_ : s.pastBlanks.rest = [])
    have hbreak := Cursor.newline_eq_none_iff.1 hn
    rw [rest_pastBlanks] at hbreak ⊢
    match hrest : s.cursor.rest, hr with
    | [], _ =>
      rw [rest_afterMark_of_ne (by simp [hrest, startsWith]), hrest]
      rfl
    | c :: r, hr =>
      obtain rfl : c = '#' := beq_iff_eq.1 (hr.resolve_left nofun)
      rw [rest_afterMark_of_ne (by simp [hrest, startsWith, byteOrderMark]), hrest] at hbreak ⊢
      have hstay : ('#' :: r).dropWhile s.skipsBlank = '#' :: r := rfl
      simp only [hstay, startsWith, beq_self_eq_true, if_true] at hbreak ⊢
      exact eq_nil_of_dropWhile hbreak

end Scan
end Reprieve.Yaml
