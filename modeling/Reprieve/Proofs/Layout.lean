import Mathlib.Data.List.Basic
import Mathlib.Data.List.TakeWhile
import Reprieve.Text

/-! How a text lies between its blanks and its line ends: trimming leaves the one part that
neither begins nor ends with a blank, and the lines are the one way to take the text apart
at its ends of lines. -/
namespace Reprieve

theorem dropWhile_eq_iff {α : Type} (p : α → Bool) (l u : List α) : l.dropWhile p = u ↔
    ∃ w, l = w ++ u ∧ (∀ a ∈ w, p a = true) ∧ ∀ a ∈ u.head?, p a = false := by
  constructor
  · rintro rfl
    refine ⟨l.takeWhile p, List.takeWhile_append_dropWhile.symm,
      fun a => List.mem_takeWhile_imp, ?_⟩
    intro a ha
    have hd := List.head?_dropWhile_not p l
    rwa [ha] at hd
  · intro h
    obtain ⟨w, rfl, hw, hu⟩ := h
    rw [List.dropWhile_append_of_pos hw]
    cases u with
    | nil => rfl
    | cons a u => exact List.dropWhile_cons_of_neg (by simp [hu a rfl])

namespace Text

/-! ### Outer blanks -/

/-- The text with blanks around it or none, and itself without. -/
structure Bare (cs u : List Char) : Prop where
  within : ∃ p q, cs = p ++ u ++ q ∧ (∀ c ∈ p, isBlank c = true) ∧ ∀ c ∈ q, isBlank c = true
  first : ∀ c ∈ u.head?, isBlank c = false
  last : ∀ c ∈ u.getLast?, isBlank c = false

theorem trimStart_eq_iff (cs u : List Char) : trimStart cs = u ↔
    ∃ p, cs = p ++ u ∧ (∀ c ∈ p, isBlank c = true) ∧ ∀ c ∈ u.head?, isBlank c = false :=
  dropWhile_eq_iff isBlank cs u

theorem trimEnd_eq_iff (cs u : List Char) : trimEnd cs = u ↔
    ∃ q, cs = u ++ q ∧ (∀ c ∈ q, isBlank c = true) ∧ ∀ c ∈ u.getLast?, isBlank c = false := by
  rw [trimEnd, List.reverse_eq_iff, dropWhile_eq_iff]
  constructor
  · intro h
    obtain ⟨w, hw, hb, hu⟩ := h
    refine ⟨w.reverse, ?_, fun c hc => hb c (List.mem_reverse.1 hc), ?_⟩
    · simpa using congrArg List.reverse hw
    · simpa using hu
  · intro h
    obtain ⟨q, rfl, hb, hu⟩ := h
    exact ⟨q.reverse, List.reverse_append, fun c hc => hb c (List.mem_reverse.1 hc),
      by simpa using hu⟩

theorem trim_eq_iff (cs u : List Char) : trim cs = u ↔ Bare cs u := by
  rw [trim, trimEnd_eq_iff]
  constructor
  · intro h
    obtain ⟨q, hq, hb, hu⟩ := h
    obtain ⟨p, hp, hpb, hhead⟩ := (trimStart_eq_iff cs _).1 hq
    refine ⟨⟨p, q, by rw [hp, List.append_assoc], hpb, hb⟩, fun c hc => hhead c ?_, hu⟩
    rw [List.head?_append, Option.mem_def.1 hc]
    rfl
  · intro h
    obtain ⟨⟨p, q, rfl, hp, hq⟩, hhead, hlast⟩ := h
    cases u with
    | nil =>
      refine ⟨[], ?_, nofun, hlast⟩
      exact List.dropWhile_eq_nil_iff.2 (by simpa [or_imp, forall_and] using ⟨hp, hq⟩)
    | cons c u =>
      exact ⟨q, (trimStart_eq_iff _ _).2 ⟨p, by simp, hp, hhead⟩, hq, hlast⟩

theorem bare_trim (cs : List Char) : Bare cs (trim cs) := (trim_eq_iff cs _).1 rfl

theorem trim_within (cs : List Char) : trim cs <:+: cs := by
  obtain ⟨p, q, hcs, -⟩ := (bare_trim cs).within
  exact ⟨p, q, hcs.symm⟩

theorem trim_eq_self_iff (cs : List Char) : trim cs = cs ↔
    (∀ c ∈ cs.head?, isBlank c = false) ∧ ∀ c ∈ cs.getLast?, isBlank c = false := by
  rw [trim_eq_iff]
  exact ⟨fun h => ⟨h.first, h.last⟩, fun h => ⟨⟨[], [], by simp, nofun, nofun⟩, h.1, h.2⟩⟩

/-! ### Lines -/

/-- A text and its lines. A line ends with a line feed, or with a carriage return and a line
feed, and only the last one may go without an end. -/
inductive Laid : List Char → List (List Char) → Prop
  | empty : Laid [] []
  | last {l : List Char} (hne : l ≠ []) (hl : '\n' ∉ l) : Laid l [l]
  | fed {l r : List Char} {ls : List (List Char)} (hl : '\n' ∉ l)
    (hr : l.getLast? ≠ some '\r') (h : Laid r ls) : Laid (l ++ '\n' :: r) (l :: ls)
  | returned {l r : List Char} {ls : List (List Char)} (hl : '\n' ∉ l) (h : Laid r ls) :
    Laid (l ++ '\r' :: '\n' :: r) (l :: ls)

theorem lines_cons {c : Char} {r : List Char} (hc : c ≠ '\n')
    (hr : c = '\r' → r.head? ≠ some '\n') :
    lines (c :: r) = ((lines r).head?.elim [c] (c :: ·)) :: (lines r).tail := by
  rw [lines]
  · cases lines r <;> rfl
  · exact hc
  · rintro r rfl rfl
    exact hr rfl rfl

theorem lines_append {l r m : List Char} {ms : List (List Char)} (hl : '\n' ∉ l)
    (hr : l.getLast? = some '\r' → r.head? ≠ some '\n') (hm : lines r = m :: ms) :
    lines (l ++ r) = (l ++ m) :: ms := by
  induction l with
  | nil => exact hm
  | cons c l ih =>
    have hc : c ≠ '\n' := fun h => hl (h ▸ List.mem_cons_self)
    have hl' : '\n' ∉ l := fun h => hl (List.mem_cons_of_mem c h)
    have hnext : c = '\r' → (l ++ r).head? ≠ some '\n' := by
      rintro rfl
      cases l with
      | nil => exact hr rfl
      | cons d l => simpa using fun h : d = '\n' => hl' (h ▸ List.mem_cons_self)
    have hlast : l.getLast? = some '\r' → r.head? ≠ some '\n' := by
      intro h
      cases l with
      | nil => cases h
      | cons d l => exact hr (by rwa [List.getLast?_cons_cons])
    rw [List.cons_append, lines_cons hc hnext, ih hl' hlast]
    rfl

theorem lines_last {l : List Char} (hne : l ≠ []) (hl : '\n' ∉ l) : lines l = [l] := by
  obtain ⟨m, c, rfl⟩ := (List.eq_nil_or_concat' l).resolve_left hne
  have hc : c ≠ '\n' := by
    rintro rfl
    exact hl (by simp)
  have hlast : lines [c] = [[c]] := lines_cons hc (by simp)
  exact lines_append (fun h => hl (by simp [h])) (by simp [hc]) hlast

theorem Laid.lines_eq {cs : List Char} {ls : List (List Char)} (h : Laid cs ls) :
    lines cs = ls := by
  induction h with
  | empty => rfl
  | last hne hl => exact lines_last hne hl
  | @fed l r ls hl hr _ ih =>
    have hfeed : lines ('\n' :: r) = [] :: ls := by rw [lines, ih]
    rw [lines_append hl (fun h => absurd h hr) hfeed, List.append_nil]
  | @returned l r ls hl _ ih =>
    have hfeed : lines ('\r' :: '\n' :: r) = [] :: ls := by rw [lines, ih]
    rw [lines_append hl (by simp) hfeed, List.append_nil]

theorem Laid.cons {c : Char} {r l : List Char} {ls : List (List Char)} (hc : c ≠ '\n')
    (hr : c = '\r' → r.head? ≠ some '\n') (h : Laid r (l :: ls)) :
    Laid (c :: r) ((c :: l) :: ls) := by
  have hmem {l : List Char} (hl : '\n' ∉ l) : '\n' ∉ c :: l := by simp [hl, hc.symm]
  cases h with
  | last hne hl => exact .last (List.cons_ne_nil c _) (hmem hl)
  | @fed _ r _ hl hlast h =>
    refine .fed (hmem hl) ?_ h
    cases l with
    | nil =>
      intro he
      exact hr (Option.some.inj he) rfl
    | cons d l => rwa [List.getLast?_cons_cons]
  | returned hl h => exact .returned (hmem hl) h

theorem laid_lines (cs : List Char) : Laid cs (lines cs) := by
  fun_induction lines cs with
  | case1 => exact .empty
  | case2 r ih => exact .fed (l := []) (by simp) (by simp) ih
  | case3 r ih => exact .returned (l := []) (by simp) ih
  | case4 c r hc hr hnil ih =>
    rw [hnil] at ih
    cases ih
    exact .last (by simp) (by simpa using fun h => hc h.symm)
  | case5 c r hc hr l ls hcons ih =>
    rw [hcons] at ih
    refine ih.cons hc fun hcr hhead => ?_
    obtain ⟨r', rfl⟩ := List.head?_eq_some_iff.1 hhead
    exact hr r' hcr rfl

theorem Laid.no_feed {cs : List Char} {ls : List (List Char)} (h : Laid cs ls) :
    ∀ l ∈ ls, '\n' ∉ l := by
  induction h with
  | empty => exact nofun
  | last _ hl => exact List.forall_mem_singleton.2 hl
  | fed hl _ _ ih => exact List.forall_mem_cons.2 ⟨hl, ih⟩
  | returned hl _ ih => exact List.forall_mem_cons.2 ⟨hl, ih⟩

theorem laid_iff (cs : List Char) (ls : List (List Char)) : Laid cs ls ↔ ls = lines cs :=
  ⟨fun h => h.lines_eq.symm, fun h => h ▸ laid_lines cs⟩

end Text
end Reprieve
