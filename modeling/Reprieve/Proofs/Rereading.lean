import Reprieve.Analysis
import Reprieve.Proofs.Grammar
import Reprieve.Proofs.Listing

/-! A finding that was read, printed and read again. Backslashes are dropped after the outer
blanks, so what they hid comes first in print. A blank there is trimmed when the print is
read, and a number sign makes a comment of the line; every other finding returns. -/
namespace Reprieve.Candidate
open Text

def Indented (f : Candidate) : Prop := ∃ c, f.className.toList.head? = some c ∧ isBlank c = true

theorem Spells.display_length_le {u : List Char} {f : Candidate} (h : Spells u f) :
    f.display.toList.length ≤ u.length := by
  obtain ⟨-, k, j, rfl⟩ := h
  simp only [toList_display, List.length_append, List.length_cons, List.length_nil]
  omega

theorem Spells.className_subset {u : List Char} {f : Candidate} (h : Spells u f) :
    f.className.toList ⊆ u := by
  obtain ⟨-, k, j, rfl⟩ := h
  intro c hc
  simp [hc]

theorem Spells.head?_of_indented {u : List Char} {f : Candidate} (h : Spells u f)
    (hu : ∀ c ∈ u.head?, isBlank c = false) (hi : f.Indented) : u.head? = some '\\' := by
  obtain ⟨hf, k, j, rfl⟩ := h
  obtain ⟨c, hc, hb⟩ := hi
  cases k with
  | zero =>
    refine absurd (hu c ?_) (by simp [hb])
    simp [List.head?_append, hc]
  | succ k => rfl

namespace Proper
variable {f : Candidate} (hf : f.Proper)
include hf

theorem head?_display : f.display.toList.head? = f.className.toList.head? := by
  rw [toList_display, List.head?_append_of_ne_nil _ (by simpa using hf.className)]

/-- The print of a finding can have a blank outside only before the class. -/
theorem trim_display_iff : trim f.display.toList = f.display.toList ↔ ¬ f.Indented := by
  have hm : f.method.toList ≠ [] := by simpa using hf.method
  have hlast : ∀ c ∈ f.display.toList.getLast?, isBlank c = false := by
    intro c hc
    rw [toList_display, List.append_cons, List.append_cons,
      List.getLast?_append_of_ne_nil _ hm] at hc
    exact hf.unbroken c (List.mem_of_mem_getLast? hc)
  rw [trim_eq_self_iff, hf.head?_display, and_iff_left hlast]
  simp [Indented]

theorem parse?_display_iff : parse? f.display = some f ↔ ¬ f.Indented := by
  rw [parse?_eq_some_iff, ← hf.trim_display_iff]
  constructor
  · exact fun h => (trim_within _).eq_of_length_le h.display_length_le
  · intro h
    rw [h]
    exact spells_display hf

theorem relevant_display_iff (h : ¬ f.Indented) :
    Relevant f.display.toList ↔ f.className.toList.head? ≠ some '#' := by
  rw [Relevant, hf.trim_display_iff.2 h, hf.head?_display]
  exact and_iff_right f.display_ne_nil

theorem lines_display (h : '\n' ∉ f.className.toList) :
    lines f.display.toList = [f.display.toList] := by
  refine lines_last f.display_ne_nil ?_
  have hm : '\n' ∉ f.method.toList := fun hn =>
    absurd (hf.unbroken _ hn) (by decide)
  simp [toList_display, h, hm]

theorem parseAll_display_iff : parseAll f.display = .ok [f] ↔
    ¬ f.Indented ∧ f.className.toList.head? ≠ some '#' ∧ '\n' ∉ f.className.toList := by
  rw [parseAll, parseLines_eq_ok_iff]
  constructor
  · intro h
    obtain ⟨l, ls, hl, -, hls⟩ := List.forall₂_cons_right_iff.1 h
    have hmem : l ∈ (lines f.display.toList).filter (Relevant ·) := hls ▸ List.mem_cons_self
    -- the finding comes from one line, so its class has no end of a line
    have hfeed : '\n' ∉ f.className.toList := by
      intro hn
      have hspell := (parse?_eq_some_iff _ _).1 hl
      rw [String.toList_ofList] at hspell
      exact (laid_lines _).no_feed l (List.mem_of_mem_filter hmem)
        ((trim_within l).subset (hspell.className_subset hn))
    rw [hf.lines_display hfeed, List.mem_filter, List.mem_singleton] at hmem
    obtain ⟨rfl, hrel⟩ := hmem
    rw [String.ofList_toList] at hl
    have hi := hf.parse?_display_iff.1 hl
    exact ⟨hi, (hf.relevant_display_iff hi).1 (by simpa using hrel), hfeed⟩
  · intro h
    obtain ⟨hi, hhead, hfeed⟩ := h
    have hrel := (hf.relevant_display_iff hi).2 hhead
    rw [hf.lines_display hfeed, List.filter_cons_of_pos (by simpa using hrel), List.filter_nil]
    refine .cons ?_ .nil
    rw [String.ofList_toList]
    exact hf.parse?_display_iff.2 hi

end Proper

/-- A finding that was read returns from its print exactly if its class does not begin with
a blank. Fed back as a line by itself, as the report of an unresolved finding has it, it
returns exactly if the class does not begin with a number sign either and has no line feed.
A class begins with a blank only where the text, without its outer blanks, begins with a
backslash. -/
theorem reread_iff {s : String} {f : Candidate} (h : parse? s = some f) :
    (parse? f.display = some f ↔ ¬ f.Indented) ∧
    (parseAll (MemberVerdict.unresolved f).display = .ok [f] ↔
      ¬ f.Indented ∧ f.className.toList.head? ≠ some '#' ∧ '\n' ∉ f.className.toList) ∧
    (f.Indented → (trim s.toList).head? = some '\\') := by
  have hs := (parse?_eq_some_iff s f).1 h
  exact ⟨hs.1.parse?_display_iff, hs.1.parseAll_display_iff,
    hs.head?_of_indented (bare_trim s.toList).first⟩

theorem called_twice_rereads :
    parse? " \\App\\User::postLoad()()" = some ⟨"App\\User", "postLoad"⟩ ∧
    parse? (display ⟨"App\\User", "postLoad"⟩) = some ⟨"App\\User", "postLoad"⟩ := by
  have h : parse? " \\App\\User::postLoad()()" = some ⟨"App\\User", "postLoad"⟩ := by decide
  refine ⟨h, (reread_iff h).1.2 ?_⟩
  rintro ⟨c, hc, hb⟩
  cases hc
  cases hb

/-- A blank or a number sign behind a backslash comes first in print. The blank is lost when
the print is read, and the line with the number sign counts as a comment. -/
theorem hidden_by_backslash :
    parse? "\\ App::run" = some ⟨" App", "run"⟩ ∧
    parse? (display ⟨" App", "run"⟩) = some ⟨"App", "run"⟩ ∧
    parseAll (MemberVerdict.unresolved ⟨" App", "run"⟩).display = .ok [⟨"App", "run"⟩] ∧
    (⟨"App", "run"⟩ : Candidate) ≠ ⟨" App", "run"⟩ ∧
    parse? "\\#App::run" = some ⟨"#App", "run"⟩ ∧
    parseAll (MemberVerdict.unresolved ⟨"#App", "run"⟩).display = .ok [] := by
  decide

end Reprieve.Candidate
