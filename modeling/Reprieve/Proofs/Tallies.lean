import Mathlib.Data.List.Basic
import Reprieve.Proofs.SortedMaps
import Reprieve.Summary

/-! What a summary counts. Every figure is the number of verdicts with a property, so a
list has one summary, whatever the order of its verdicts. -/
namespace Reprieve

namespace MemberVerdict

def isUsedBy (v : MemberVerdict) (rule : String) : Bool :=
  v.isUsed && v.verdict.rule == some rule

theorem rule?_beq_some (v : MemberVerdict) (rule : String) :
    (v.rule? == some rule) = v.isUsedBy rule := by
  rw [rule?, isUsedBy, isUsed]
  cases v.verdict.used <;> rfl

end MemberVerdict

namespace Summary

/-- A rule that counted nothing has no entry. -/
def figure? (n : Nat) : Option Nat := if n = 0 then none else some n

theorem getD_figure? (n : Nat) : (figure? n).getD 0 = n := by
  unfold figure?
  split <;> simp [*]

structure Of (vs : List MemberVerdict) (s : Summary) : Prop where
  total : s.total = vs.length
  used : s.used = vs.countP (·.rule?.isSome)
  unused : s.unused = vs.countP (·.rule?.isNone)
  unresolved : s.unresolved = vs.countP (!·.resolved)
  byRule : ∀ rule, s.byRule.get? rule = figure? (vs.countP (·.rule? == some rule))

theorem Of.unique {vs : List MemberVerdict} {s t : Summary} (hs : Of vs s) (ht : Of vs t) :
    s = t := by
  have hbyRule : s.byRule = t.byRule :=
    SortedMap.ext_get? fun rule => (hs.byRule rule).trans (ht.byRule rule).symm
  cases s
  cases t
  simp only [mk.injEq]
  exact ⟨hs.total.trans ht.total.symm, hs.used.trans ht.used.symm,
    hs.unused.trans ht.unused.symm, hs.unresolved.trans ht.unresolved.symm, hbyRule⟩

theorem Of.perm {vs ws : List MemberVerdict} {s : Summary} (h : Of vs s) (hp : vs.Perm ws) :
    Of ws s :=
  ⟨h.total.trans hp.length_eq, h.used.trans (hp.countP_eq _), h.unused.trans (hp.countP_eq _),
    h.unresolved.trans (hp.countP_eq _),
    fun rule => (h.byRule rule).trans (by rw [hp.countP_eq])⟩

/-! ### One verdict more -/

theorem count_of_rule (s : Summary) {v : MemberVerdict} {rule : String} (h : v.rule? = some rule) :
    s.count v =
      { total := s.total + 1
        used := s.used + 1
        unused := s.unused
        unresolved := s.unresolved + if v.resolved then 0 else 1
        byRule := s.byRule.insert rule ((s.byRule.get? rule).getD 0 + 1) } := by
  simp only [count, h]

theorem count_of_no_rule (s : Summary) {v : MemberVerdict} (h : v.rule? = none) :
    s.count v =
      { total := s.total + 1
        used := s.used
        unused := s.unused + 1
        unresolved := s.unresolved + if v.resolved then 0 else 1
        byRule := s.byRule } := by
  simp only [count, h]

theorem of_empty : Of [] {} := ⟨rfl, rfl, rfl, rfl, fun _ => rfl⟩

theorem Of.count {vs : List MemberVerdict} {s : Summary} (h : Of vs s) (v : MemberVerdict) :
    Of (vs ++ [v]) (s.count v) := by
  have hunresolved : (s.unresolved + if v.resolved then 0 else 1) =
      (vs ++ [v]).countP (!·.resolved) := by
    rw [h.unresolved, List.countP_append, List.countP_singleton]
    cases v.resolved <;> rfl
  cases hv : v.rule? with
  | none =>
    rw [count_of_no_rule s hv]
    exact ⟨by simp [h.total], by simp [h.used, hv], by simp [h.unused, hv], hunresolved,
      fun rule => by simp [h.byRule, hv]⟩
  | some r =>
    rw [count_of_rule s hv]
    refine ⟨by simp [h.total], by simp [h.used, hv], by simp [h.unused, hv], hunresolved,
      fun rule => ?_⟩
    rw [SortedMap.get?_insert, List.countP_append, List.countP_singleton, hv, h.byRule, h.byRule]
    by_cases hr : r = rule
    · subst hr
      rw [if_pos (beq_self_eq_true r), getD_figure?]
      simp [figure?]
    · simp [hr, Ne.symm hr]

theorem Of.foldl_count (ws : List MemberVerdict) : ∀ {vs : List MemberVerdict} {s : Summary},
    Of vs s → Of (vs ++ ws) (ws.foldl Summary.count s) := by
  induction ws with
  | nil =>
    intro vs s h
    rwa [List.append_nil]
  | cons w ws ih =>
    intro vs s h
    rw [List.append_cons]
    exact ih (h.count w)

theorem of_ofVerdicts (vs : List MemberVerdict) : Of vs (ofVerdicts vs) := of_empty.foldl_count vs

theorem ofVerdicts_perm {vs ws : List MemberVerdict} (h : vs.Perm ws) :
    ofVerdicts vs = ofVerdicts ws :=
  ((of_ofVerdicts vs).perm h).unique (of_ofVerdicts ws)

/-! ### The account -/

theorem figure?_eq_some_iff (m n : Nat) : figure? m = some n ↔ n = m ∧ 0 < m := by
  rw [figure?]
  split <;> simp [eq_comm] <;> omega

theorem figure?_add (m n : Nat) :
    figure? (m + n) = Option.merge (· + ·) (figure? m) (figure? n) := by
  simp only [figure?]
  split <;> split <;> split <;> simp <;> omega

/-- No member is left out and none counts twice, neither in the figures nor among the rules. -/
structure Balanced (s : Summary) : Prop where
  members : s.used + s.unused = s.total
  rules : s.byRule.values.sum = s.used
  positive : ∀ n ∈ s.byRule.values, 0 < n

theorem balanced_empty : Balanced {} := ⟨rfl, rfl, nofun⟩

theorem Balanced.count {s : Summary} (h : s.Balanced) (v : MemberVerdict) :
    (s.count v).Balanced := by
  cases hv : v.rule? with
  | none =>
    rw [count_of_no_rule s hv]
    refine ⟨?_, h.rules, h.positive⟩
    simp only [← h.members, Nat.add_assoc]
  | some rule =>
    have hsum := SortedMap.sum_values_insert s.byRule rule ((s.byRule.get? rule).getD 0 + 1)
    rw [count_of_rule s hv]
    refine ⟨?members, ?rules, fun n hn => ?positive⟩
    case members =>
      simp only [← h.members]
      omega
    case rules =>
      rw [h.rules] at hsum
      simp only
      omega
    case positive =>
      cases SortedMap.mem_values_insert hn with
      | inl hn => omega
      | inr hn => exact h.positive n hn

theorem Balanced.foldl_count (vs : List MemberVerdict) :
    ∀ {s : Summary}, s.Balanced → (vs.foldl Summary.count s).Balanced := by
  induction vs with
  | nil => exact fun h => h
  | cons v vs ih => exact fun h => ih (h.count v)

theorem balanced_ofVerdicts (vs : List MemberVerdict) : (ofVerdicts vs).Balanced :=
  balanced_empty.foldl_count vs

/-- Figure by figure and rule by rule, the third summary is the first and the second together. -/
structure Adds (s t u : Summary) : Prop where
  total : u.total = s.total + t.total
  used : u.used = s.used + t.used
  unused : u.unused = s.unused + t.unused
  unresolved : u.unresolved = s.unresolved + t.unresolved
  byRule : ∀ rule, u.byRule.get? rule =
    Option.merge (· + ·) (s.byRule.get? rule) (t.byRule.get? rule)

theorem Of.adds {vs ws : List MemberVerdict} {s t u : Summary} (hs : Of vs s) (ht : Of ws t)
    (hu : Of (vs ++ ws) u) : Adds s t u := by
  refine ⟨?_, ?_, ?_, ?_, fun rule => ?_⟩
  · rw [hu.total, hs.total, ht.total, List.length_append]
  · rw [hu.used, hs.used, ht.used, List.countP_append]
  · rw [hu.unused, hs.unused, ht.unused, List.countP_append]
  · rw [hu.unresolved, hs.unresolved, ht.unresolved, List.countP_append]
  · rw [hu.byRule, hs.byRule, ht.byRule, List.countP_append, figure?_add]

theorem Of.mem_byRule_iff {vs : List MemberVerdict} {s : Summary} (h : Of vs s) (rule : String)
    (n : Nat) : (rule, n) ∈ s.byRule.entries ↔
      n = vs.countP (·.isUsedBy rule) ∧ ∃ v ∈ vs, v.isUsedBy rule = true := by
  rw [SortedMap.mem_entries_iff, h.byRule, figure?_eq_some_iff, List.countP_pos_iff]
  simp only [MemberVerdict.rule?_beq_some]

/-- Used and unused members make up the total, which is the length of the list, and the rules
share the used ones among them: a rule has an entry exactly if it used some member, and the
entry says how many. The summary of two lists together is the sum of theirs, and the order
of a list does not matter. -/
theorem ofVerdicts_accounts (vs : List MemberVerdict) :
    (ofVerdicts vs).total = vs.length ∧ (ofVerdicts vs).Balanced ∧
    (∀ rule n, (rule, n) ∈ (ofVerdicts vs).byRule.entries ↔
      n = vs.countP (·.isUsedBy rule) ∧ ∃ v ∈ vs, v.isUsedBy rule = true) ∧
    (ofVerdicts vs).unresolved = vs.countP (!·.resolved) ∧
    (∀ ws, Adds (ofVerdicts vs) (ofVerdicts ws) (ofVerdicts (vs ++ ws))) ∧
    ∀ ws, vs.Perm ws → ofVerdicts ws = ofVerdicts vs := by
  have hof := of_ofVerdicts vs
  refine ⟨hof.total, balanced_ofVerdicts vs, hof.mem_byRule_iff, hof.unresolved, fun ws => ?sum,
    fun ws hp => (ofVerdicts_perm hp).symm⟩
  case sum => exact hof.adds (of_ofVerdicts ws) (of_ofVerdicts (vs ++ ws))

/-- Two members that one rule uses, and a finding that nobody knows between them. -/
def interleaved : List MemberVerdict :=
  [⟨"App\\Post", some .class, "postLoad", false, true, .usedBy "doctrine" "listener-naming"⟩,
    ⟨"App\\Gone", none, "run", false, false, .unused⟩,
    ⟨"App\\Post", some .class, "onFlush", false, true, .usedBy "doctrine" "listener-naming"⟩]

theorem interleaved_accounts :
    interleaved.Perm interleaved.reverse ∧
    ofVerdicts interleaved.reverse = ofVerdicts interleaved ∧
    (ofVerdicts interleaved).Balanced ∧
    ("listener-naming", 2) ∈ (ofVerdicts interleaved).byRule.entries := by
  obtain ⟨-, hbalanced, hrules, -, -, hperm⟩ := ofVerdicts_accounts interleaved
  have hp : interleaved.Perm interleaved.reverse := (List.reverse_perm _).symm
  exact ⟨hp, hperm _ hp, hbalanced, (hrules _ _).2 ⟨by decide, _, List.mem_cons_self, by decide⟩⟩

end Summary
end Reprieve
