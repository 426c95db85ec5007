import Mathlib.Data.Set.Subsingleton
import Reprieve.Candidate
import Reprieve.Proofs.Layout
import Reprieve.Proofs.Spelling

/-! How a finding may be written. Outer blanks, backslashes before the class and calls behind
the method say nothing, and the last double colon separates the two. So a text spells one
finding at most, and reading finds it exactly if there is one. -/
namespace Reprieve.Candidate
open Text

/-! ### The last double colon -/

theorem splitLast?_cons_of_some {r l m : List Char} (h : splitLast? r = some (l, m)) (c : Char) :
    splitLast? (c :: r) = some (c :: l, m) := by
  rw [splitLast?.eq_def]
  split
  · rename_i heq
    obtain ⟨rfl, rfl⟩ := List.cons.inj heq
    rw [h]
  · rename_i heq
    obtain ⟨rfl, rfl⟩ := List.cons.inj heq
    rw [h, Option.map_some]
  · rename_i heq
    cases heq

theorem splitLast?_cons_of_none {r : List Char} (h : splitLast? r = none) (c : Char) :
    splitLast? (c :: r) =
      if c = ':' ∧ r.head? = some ':' then some ([], r.tail) else none := by
  rw [splitLast?.eq_def]
  split
  · rename_i heq
    obtain ⟨rfl, rfl⟩ := List.cons.inj heq
    rw [h, if_pos ⟨rfl, rfl⟩]
    rfl
  · rename_i hnot heq
    obtain ⟨rfl, rfl⟩ := List.cons.inj heq
    rw [h, Option.map_none, if_neg]
    rintro ⟨rfl, hhead⟩
    obtain ⟨r', rfl⟩ := List.head?_eq_some_iff.1 hhead
    exact hnot r' rfl rfl
  · rename_i heq
    cases heq

theorem separator_cons_iff (c : Char) (r : List Char) : [':', ':'] <:+: c :: r ↔
    c = ':' ∧ r.head? = some ':' ∨ [':', ':'] <:+: r := by
  rw [List.infix_cons_iff, List.cons_prefix_cons, eq_comm]
  cases r with
  | nil => simp
  | cons d r => simp [eq_comm]

theorem splitLast?_eq_none_iff (cs : List Char) :
    splitLast? cs = none ↔ ¬ [':', ':'] <:+: cs := by
  induction cs with
  | nil => simp [splitLast?]
  | cons c r ih =>
    rw [separator_cons_iff]
    cases h : splitLast? r with
    | none =>
      have hr := ih.1 h
      rw [splitLast?_cons_of_none h]
      simp [hr]
    | some lm =>
      have hr : [':', ':'] <:+: r := by
        by_contra hn
        cases (ih.2 hn).symm.trans h
      rw [splitLast?_cons_of_some h]
      simp [hr]

/-- Of several double colons the last one separates, of three colons the last two. -/
theorem splitLast?_eq_some_iff (cs l m : List Char) : splitLast? cs = some (l, m) ↔
    cs = l ++ ':' :: ':' :: m ∧ ¬ [':', ':'] <:+: ':' :: m := by
  constructor
  · intro h
    induction cs generalizing l with
    | nil => cases h
    | cons c r ih =>
      cases hr : splitLast? r with
      | none =>
        rw [splitLast?_cons_of_none hr] at h
        split at h
        · rename_i hc
          obtain ⟨rfl, hhead⟩ := hc
          obtain ⟨r', rfl⟩ := List.head?_eq_some_iff.1 hhead
          cases h
          exact ⟨rfl, (splitLast?_eq_none_iff _).1 hr⟩
        · cases h
      | some lm =>
        rw [splitLast?_cons_of_some hr] at h
        cases h
        obtain ⟨hcs, hlater⟩ := ih lm.1 hr
        exact ⟨congrArg (c :: ·) hcs, hlater⟩
  · intro h
    obtain ⟨rfl, hlater⟩ := h
    induction l with
    | nil =>
      rw [List.nil_append, splitLast?_cons_of_none ((splitLast?_eq_none_iff _).2 hlater)]
      rfl
    | cons c l ih => exact splitLast?_cons_of_some ih c

/-! ### Calls behind a method -/

def calls (j : Nat) : List Char := (List.replicate j ['(', ')']).flatten

theorem calls_succ (j : Nat) : calls (j + 1) = calls j ++ ['(', ')'] := by
  simp [calls, List.replicate_succ']

theorem noColon_calls (j : Nat) : ':' ∉ calls j := by
  simp [calls, List.mem_flatten, List.mem_replicate]

theorem dropCalls_eq_self {cs : List Char} (h : ¬ [')', '('] <+: cs) :
    dropCalls cs = cs := by
  rw [dropCalls]
  rintro r rfl
  exact h ⟨r, rfl⟩

theorem dropCalls_calls (j : Nat) (cs : List Char) :
    dropCalls ((calls j).reverse ++ cs) = dropCalls cs := by
  induction j with
  | zero => rfl
  | succ j ih =>
    rw [calls_succ, List.reverse_append]
    exact ih

theorem exists_calls_dropCalls (cs : List Char) :
    (∃ j, cs = (calls j).reverse ++ dropCalls cs) ∧ ¬ [')', '('] <+: dropCalls cs := by
  fun_induction dropCalls cs with
  | case1 r ih =>
    obtain ⟨⟨j, hj⟩, hp⟩ := ih
    refine ⟨⟨j + 1, ?_⟩, hp⟩
    rw [calls_succ, List.reverse_append, List.append_assoc, ← hj]
    rfl
  | case2 cs hcs =>
    refine ⟨⟨0, rfl⟩, fun h => ?_⟩
    obtain ⟨r, rfl⟩ := h
    exact hcs r rfl

theorem withoutCalls_eq_iff (cs u : List Char) :
    withoutCalls cs = u ↔ (∃ j, cs = u ++ calls j) ∧ ¬ ['(', ')'] <:+ u := by
  rw [withoutCalls, List.reverse_eq_iff, ← List.reverse_prefix]
  constructor
  · intro h
    obtain ⟨⟨j, hj⟩, hp⟩ := exists_calls_dropCalls cs.reverse
    rw [h] at hj hp
    exact ⟨⟨j, by simpa using congrArg List.reverse hj⟩, hp⟩
  · intro h
    obtain ⟨⟨j, rfl⟩, hp⟩ := h
    rw [List.reverse_append, dropCalls_calls, dropCalls_eq_self hp]

/-! ### Texts that spell a finding -/

/-- A class and a method that reading can find. -/
structure Proper (f : Candidate) : Prop where
  className : f.className ≠ ""
  bare : f.className.toList.head? ≠ some '\\'
  method : f.method ≠ ""
  unbroken : ∀ c ∈ f.method.toList, isBlank c = false
  noCall : ¬ ['(', ')'] <:+ f.method.toList
  noSeparator : ¬ [':', ':'] <:+: f.method.toList
  noColon : f.method.toList.head? ≠ some ':'

/-- A text spells a finding with any backslashes before it and any calls behind it. -/
def Spells (u : List Char) (f : Candidate) : Prop :=
  f.Proper ∧ ∃ k j, u = List.replicate k '\\' ++ f.className.toList ++ [':', ':'] ++
    f.method.toList ++ calls j

theorem toList_display (f : Candidate) :
    f.display.toList = f.className.toList ++ ':' :: ':' :: f.method.toList := by
  simp [display]

theorem display_ne_nil (f : Candidate) : f.display.toList ≠ [] := by simp [toList_display]

theorem spells_display {f : Candidate} (hf : f.Proper) : Spells f.display.toList f :=
  ⟨hf, 0, 0, by simp [toList_display, calls]⟩

theorem separator_append_iff {l r : List Char} (hr : ':' ∉ r) :
    [':', ':'] <:+: l ++ r ↔ [':', ':'] <:+: l := by
  rw [List.infix_append_iff]
  refine ⟨?_, .inl⟩
  rintro (h | h | ⟨l₁, l₂, heq, h₁, h₂⟩)
  · exact h
  · exact absurd (h.subset (by simp)) hr
  · cases l₂ with
    | nil =>
      rw [List.append_nil] at heq
      exact (heq ▸ h₁).isInfix
    | cons c l₂ =>
      -- what begins in the second part begins with a colon
      have hc : c ∈ [':', ':'] := by simp [heq]
      obtain rfl : c = ':' := by simpa using hc
      exact absurd (h₂.subset List.mem_cons_self) hr

/-- Behind the method of a finding the last double colon of its text is the one before it. -/
theorem no_separator_iff {m : List Char} (hm : m ≠ []) (j : Nat) :
    ¬ [':', ':'] <:+: ':' :: (m ++ calls j) ↔
      m.head? ≠ some ':' ∧ ¬ [':', ':'] <:+: m := by
  rw [separator_cons_iff, separator_append_iff (noColon_calls j),
    List.head?_append_of_ne_nil m hm, not_or]
  simp

theorem parseChars?_eq_some_iff (cs c m : List Char) : parseChars? cs = some (c, m) ↔
    ∃ l r, splitLast? (trim cs) = some (l, r) ∧ bareName l = c ∧ withoutCalls r = m ∧
      c ≠ [] ∧ m ≠ [] ∧ ∀ x ∈ m, isBlank x = false := by
  rw [parseChars?]
  cases splitLast? (trim cs) with
  | none => simp
  | some lr =>
    obtain ⟨l, r⟩ := lr
    rw [Option.bind_eq_bind, Option.bind_some]
    change (if (bareName l).isEmpty || (withoutCalls r).isEmpty || (withoutCalls r).any isBlank
      then none else some (bareName l, withoutCalls r)) = _ ↔ _
    rw [Option.ite_none_left_eq_some]
    constructor
    · intro h
      obtain ⟨hparts, heq⟩ := h
      cases heq
      exact ⟨l, r, rfl, rfl, rfl, by simpa [and_assoc] using hparts⟩
    · intro h
      obtain ⟨_, _, heq, rfl, rfl, hparts⟩ := h
      cases heq
      exact ⟨by simpa [and_assoc] using hparts, rfl⟩

theorem parse?_eq_some_iff_parseChars? (s : String) (f : Candidate) :
    parse? s = some f ↔ parseChars? s.toList = some (f.className.toList, f.method.toList) := by
  rw [parse?, Option.map_eq_some_iff]
  constructor
  · rintro ⟨⟨c, m⟩, h, rfl⟩
    simpa using h
  · exact fun h => ⟨_, h, by simp⟩

theorem parse?_eq_some_iff (s : String) (f : Candidate) :
    parse? s = some f ↔ Spells (trim s.toList) f := by
  rw [parse?_eq_some_iff_parseChars?, parseChars?_eq_some_iff]
  simp only [splitLast?_eq_some_iff, bareName_eq_iff, withoutCalls_eq_iff]
  constructor
  · intro h
    obtain ⟨l, r, ⟨hu, hlater⟩, ⟨⟨k, rfl⟩, hbare⟩, ⟨⟨j, rfl⟩, hcall⟩, hc, hm, hblank⟩ := h
    obtain ⟨hcolon, hsep⟩ := (no_separator_iff hm j).1 hlater
    refine ⟨⟨by simpa using hc, hbare, by simpa using hm, hblank, hcall, hsep, hcolon⟩, k, j, ?_⟩
    simp [hu]
  · intro h
    obtain ⟨hf, k, j, hu⟩ := h
    have hm : f.method.toList ≠ [] := by simpa using hf.method
    refine ⟨_, _, ⟨?_, (no_separator_iff hm j).2 ⟨hf.noColon, hf.noSeparator⟩⟩,
      ⟨⟨k, rfl⟩, hf.bare⟩, ⟨⟨j, rfl⟩, hf.noCall⟩, by simpa using hf.className, hm, hf.unbroken⟩
    simp [hu]

/-- A text is read as a finding exactly if, without its outer blanks, it spells that
finding, and it spells no other. -/
theorem parse?_iff_spells (s : String) :
    (∀ f, parse? s = some f ↔ ∃ u, Bare s.toList u ∧ Spells u f) ∧
    (parse? s = none ↔ ¬ ∃ f u, Bare s.toList u ∧ Spells u f) ∧
    {f | ∃ u, Bare s.toList u ∧ Spells u f}.Subsingleton := by
  have hsome (f : Candidate) : parse? s = some f ↔ ∃ u, Bare s.toList u ∧ Spells u f := by
    simp only [← trim_eq_iff, exists_eq_left', parse?_eq_some_iff]
  refine ⟨hsome, ?_, fun f hf g hg => ?_⟩
  · simp only [← hsome, Option.eq_none_iff_forall_ne_some, not_exists]
  · exact Option.some.inj (((hsome f).2 hf).symm.trans ((hsome g).2 hg))

example : parse? "\t\\A:::m(1)()() " = some ⟨"A:", "m(1)"⟩ := by decide

end Reprieve.Candidate
