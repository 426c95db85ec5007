import Mathlib.Data.List.Forall2
import Reprieve.Rule

/-! Ordered rules against ordered statements. Where each rule applies exactly when its
statement holds, the rule that answers is that of the first statement that holds. -/
namespace Reprieve

/-- Of named statements the first that holds has this name. -/
inductive First : List (String × Prop) → String → Prop
  | here {n : String} {p : Prop} {l : List (String × Prop)} (h : p) : First ((n, p) :: l) n
  | later {e : String × Prop} {l : List (String × Prop)} {n : String} (h : ¬ e.2)
      (hl : First l n) : First (e :: l) n

namespace RuleSet

theorem firstMatch_nil (m : Member) : firstMatch ⟨[]⟩ m = none := rfl

theorem firstMatch_cons (r : Rule) (rs : List Rule) (m : Member) :
    firstMatch ⟨r :: rs⟩ m = if r.applies m then some r.name else firstMatch ⟨rs⟩ m := by
  simp only [firstMatch, search, Search.hit_run, List.findSome?_cons]
  split <;> simp_all

theorem firstMatch_congr {s : RuleSet} {m m' : Member}
    (h : ∀ r ∈ s.rules, r.applies m = r.applies m') : s.firstMatch m = s.firstMatch m' := by
  obtain ⟨rs⟩ := s
  induction rs with
  | nil => rfl
  | cons r rs ih =>
    rw [firstMatch_cons, firstMatch_cons, h r List.mem_cons_self,
      ih fun q hq => h q (List.mem_cons_of_mem r hq)]

/-- Let some rules, where they stand, apply more often. Where a rule answered one answers
still: the same, or one of those that apply more often. -/
theorem firstMatch_widen {m : Member} {wider : String → Prop} {rs rs' : List Rule}
    (h : List.Forall₂ (fun r r' => r'.name = r.name ∧
      (r'.applies m = r.applies m ∨ r.applies m = false ∧ wider r.name)) rs rs') {n : String}
    (hn : firstMatch ⟨rs⟩ m = some n) :
    ∃ n', firstMatch ⟨rs'⟩ m = some n' ∧ (n' = n ∨ wider n') := by
  induction h with
  | nil => cases hn
  | @cons r r' rs rs' hr _ ih =>
    obtain ⟨hname, happ⟩ := hr
    rw [firstMatch_cons] at hn ⊢
    cases happ with
    | inl hsame =>
      rw [hsame]
      split at hn
      · rename_i ha
        exact ⟨n, by rw [if_pos ha, hname]; exact hn, .inl rfl⟩
      · rename_i ha
        rw [if_neg ha]
        exact ih hn
    | inr hwider =>
      obtain ⟨hnot, hw⟩ := hwider
      rw [hnot] at hn
      by_cases ha : r'.applies m = true
      · exact ⟨r'.name, by rw [if_pos ha], .inr (hname ▸ hw)⟩
      · rw [if_neg ha]
        exact ih hn

/-- A rule for each statement, of its name, that applies when it holds. -/
def Decides (s : RuleSet) (m : Member) (l : List (String × Prop)) : Prop :=
  List.Forall₂ (fun r e => r.name = e.1 ∧ (r.applies m = true ↔ e.2)) s.rules l

theorem Decides.firstMatch_eq_some_iff {s : RuleSet} {m : Member} {l : List (String × Prop)}
    (h : s.Decides m l) (n : String) : s.firstMatch m = some n ↔ First l n := by
  obtain ⟨rs⟩ := s
  change List.Forall₂ _ rs l at h
  induction h with
  | nil =>
    rw [firstMatch_nil]
    exact ⟨nofun, nofun⟩
  | @cons r e rs l hre _ ih =>
    obtain ⟨k, p⟩ := e
    obtain ⟨rfl, hp⟩ := hre
    rw [firstMatch_cons]
    split
    · rename_i hr
      constructor
      · intro he
        obtain rfl := Option.some.inj he
        exact .here (hp.1 hr)
      · intro hf
        cases hf with
        | here => rfl
        | later hn => exact absurd (hp.1 hr) hn
    · rename_i hr
      rw [ih]
      constructor
      · exact .later fun h => hr (hp.2 h)
      · intro hf
        cases hf with
        | here h => exact absurd (hp.2 h) hr
        | later _ hl => exact hl

theorem Decides.firstMatch_eq_none_iff {s : RuleSet} {m : Member} {l : List (String × Prop)}
    (h : s.Decides m l) : s.firstMatch m = none ↔ ∀ e ∈ l, ¬ e.2 := by
  obtain ⟨rs⟩ := s
  change List.Forall₂ _ rs l at h
  induction h with
  | nil => simp [firstMatch_nil]
  | @cons r e rs l hre _ ih =>
    rw [firstMatch_cons, List.forall_mem_cons, ← hre.2, ← ih]
    split <;> simp_all

end RuleSet
end Reprieve
