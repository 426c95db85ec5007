import Reprieve.Doctrine
import Reprieve.Proofs.Descriptor
import Reprieve.Proofs.Rules
import Reprieve.Proofs.Searches

/-! Rules and providers are alternatives in order. The first that answers decides what is
reported, any of them decides whether a method is used, and what comes in behind the others
changes no answer that they give. -/
namespace Reprieve

namespace RuleSet

theorem firstMatch_append (rs ss : List Rule) (m : Member) :
    firstMatch ⟨rs ++ ss⟩ m = (firstMatch ⟨rs⟩ m).or (firstMatch ⟨ss⟩ m) := by
  induction rs with
  | nil => rfl
  | cons r rs ih =>
    rw [List.cons_append, firstMatch_cons, firstMatch_cons, ih]
    split <;> rfl

theorem isMatch_iff (s : RuleSet) (m : Member) :
    s.isMatch m = true ↔ ∃ r ∈ s.rules, r.applies m = true := by
  rw [isMatch, firstMatch, search, Search.hit_run]
  simp [List.findSome?_isSome_iff]

theorem isMatch_perm {s t : RuleSet} (h : s.rules.Perm t.rules) (m : Member) :
    s.isMatch m = t.isMatch m := by
  rw [Bool.eq_iff_iff, isMatch_iff, isMatch_iff]
  simp only [h.mem_iff]

theorem firstMatch_add {s : RuleSet} {m : Member} (h : s.isMatch m = true) (r : Rule) :
    (s.add r).firstMatch m = s.firstMatch m := by
  rw [add, firstMatch_append]
  exact Option.or_of_isSome h

end RuleSet

namespace Registry

theorem verdict_cons (p : Provider) (ps : List Provider) (m : Member) :
    verdict ⟨p :: ps⟩ m = if (p.verdict m).used then p.verdict m else verdict ⟨ps⟩ m := by
  cases h : (p.verdict m).used with
  | true =>
    rw [if_pos rfl, verdict, search, Search.run_cons_hit (b := p.verdict m) (by simp [h])]
    rfl
  | false =>
    rw [if_neg Bool.false_ne_true, verdict, search, Search.run_cons_miss (by simp [h])]
    rfl

theorem verdict_append (ps qs : List Provider) (m : Member) :
    verdict ⟨ps ++ qs⟩ m =
      if (verdict ⟨ps⟩ m).used then verdict ⟨ps⟩ m else verdict ⟨qs⟩ m := by
  induction ps with
  | nil => rfl
  | cons p ps ih =>
    rw [List.cons_append, verdict_cons, verdict_cons, ih]
    by_cases hp : (p.verdict m).used = true
    · rw [if_pos hp, if_pos hp, if_pos hp]
    · rw [if_neg hp, if_neg hp]

variable (r : Registry)

theorem used_verdict (m : Member) : (r.verdict m).used = r.isUsed m := by
  obtain ⟨last, hasked, hhit⟩ := r.search_stops m
  rw [(r.queries_alike m).2, verdict, hhit]
  cases last with
  | none => rfl
  | some p => exact hasked.last_hits

theorem isUsed_iff (m : Member) :
    r.isUsed m = true ↔ ∃ p ∈ r.providers, (p.verdict m).used = true := by
  rw [← used_verdict]
  obtain ⟨ps⟩ := r
  induction ps with
  | nil => exact ⟨nofun, nofun⟩
  | cons p ps ih =>
    rw [verdict_cons]
    by_cases hp : (p.verdict m).used = true
    · simp [hp]
    · simp [hp, ih]

theorem used_verdict_perm {r r' : Registry} (h : r.providers.Perm r'.providers) (m : Member) :
    (r.verdict m).used = (r'.verdict m).used := by
  rw [used_verdict, used_verdict, Bool.eq_iff_iff, isUsed_iff, isUsed_iff]
  simp only [h.mem_iff]

theorem verdict_add {r : Registry} {m : Member} (h : (r.verdict m).used = true) (p : Provider) :
    (r.add p).verdict m = r.verdict m := by
  rw [add, verdict_append]
  exact if_pos h

theorem isMemberUsed_of_firstNamed {c : Descriptor} {name : String} {m : Method}
    (h : c.FirstNamed name m) : r.isMemberUsed c name = (r.verdict ⟨c, m⟩).used := by
  rw [isMemberUsed, (c.member?_eq_some_iff name ⟨c, m⟩).2 ⟨rfl, h⟩, used_verdict]

theorem isMemberUsed_of_not_named {c : Descriptor} {name : String}
    (h : ∀ m ∈ c.methods, m.name ≠ name) : r.isMemberUsed c name = false := by
  rw [isMemberUsed, (c.member?_eq_none_iff name).2 h]

end Registry

/-- Of two lists of providers the second is asked where the first has no verdict that is used;
the three queries of a registry agree on usage, which is that of any provider, whatever their
order. Of two lists of rules the second is asked where no rule of the first applies, and whether
one does is the same in any order. So a provider or a rule more leaves what was used as it was. -/
theorem alternatives_combine :
    (∀ (ps qs : List Provider) (m : Member), Registry.verdict ⟨ps ++ qs⟩ m =
      if (Registry.verdict ⟨ps⟩ m).used then Registry.verdict ⟨ps⟩ m
      else Registry.verdict ⟨qs⟩ m) ∧
    (∀ (r : Registry) (m : Member), (r.verdict m).used = r.isUsed m ∧
      (r.isUsed m = true ↔ ∃ p ∈ r.providers, (p.verdict m).used = true)) ∧
    (∀ (r r' : Registry) (m : Member), r.providers.Perm r'.providers →
      (r.verdict m).used = (r'.verdict m).used) ∧
    (∀ (r : Registry) (c : Descriptor) (name : String),
      (∀ m, c.FirstNamed name m → r.isMemberUsed c name = (r.verdict ⟨c, m⟩).used) ∧
      ((∀ m ∈ c.methods, m.name ≠ name) → r.isMemberUsed c name = false)) ∧
    (∀ (rs ss : List Rule) (m : Member), RuleSet.firstMatch ⟨rs ++ ss⟩ m =
      (RuleSet.firstMatch ⟨rs⟩ m).or (RuleSet.firstMatch ⟨ss⟩ m)) ∧
    (∀ (s t : RuleSet) (m : Member), s.rules.Perm t.rules → s.isMatch m = t.isMatch m) ∧
    (∀ (r : Registry) (m : Member), (r.verdict m).used = true →
      ∀ p, (r.add p).verdict m = r.verdict m) ∧
    ∀ (s : RuleSet) (m : Member), s.isMatch m = true →
      ∀ q, (s.add q).firstMatch m = s.firstMatch m :=
  ⟨Registry.verdict_append, fun r m => ⟨r.used_verdict m, r.isUsed_iff m⟩,
    fun _ _ m h => Registry.used_verdict_perm h m,
    fun r _ _ => ⟨fun _ => r.isMemberUsed_of_firstNamed, r.isMemberUsed_of_not_named⟩,
    RuleSet.firstMatch_append, fun _ _ m h => RuleSet.isMatch_perm h m,
    fun _ _ => Registry.verdict_add, fun _ _ => RuleSet.firstMatch_add⟩

def doctrine : Provider := Doctrine.provider (some true) .modern {}

def greedy : Provider := ⟨"greedy", true, fun _ => .usedBy "greedy" "any"⟩

/-- Of the two methods of one name the first is the one that is found. -/
def mailer : Descriptor :=
  { name := .ofText "App\\Mailer"
    methods := [⟨"postLoad", false, []⟩, ⟨"send", false, []⟩, ⟨"send", true, []⟩] }

def loader : Member := ⟨mailer, ⟨"postLoad", false, []⟩⟩

theorem mailer_alternatives :
    [doctrine, greedy].Perm [greedy, doctrine] ∧
    (Registry.verdict ⟨[doctrine, greedy]⟩ loader).used =
      (Registry.verdict ⟨[greedy, doctrine]⟩ loader).used ∧
    mailer.FirstNamed "send" ⟨"send", false, []⟩ ∧
    Registry.isMemberUsed ⟨[doctrine]⟩ mailer "send" =
      (Registry.verdict ⟨[doctrine]⟩ ⟨mailer, ⟨"send", false, []⟩⟩).used ∧
    (∀ m ∈ mailer.methods, m.name ≠ "stop") ∧
    Registry.isMemberUsed ⟨[greedy]⟩ mailer "stop" = false ∧
    (Doctrine.rules .modern).rules.Perm (Doctrine.rules .modern).rules.reverse ∧
    (Doctrine.rules .modern).isMatch loader =
      RuleSet.isMatch ⟨(Doctrine.rules .modern).rules.reverse⟩ loader ∧
    (Registry.verdict ⟨[doctrine]⟩ loader).used = true ∧
    (Registry.add ⟨[doctrine]⟩ greedy).verdict loader = Registry.verdict ⟨[doctrine]⟩ loader ∧
    (Doctrine.rules .modern).isMatch loader = true ∧
    ((Doctrine.rules .modern).add ⟨"any", fun _ => true⟩).firstMatch loader =
      (Doctrine.rules .modern).firstMatch loader := by
  obtain ⟨-, -, hperm, hnamed, -, hrules, hprovider, hrule⟩ := alternatives_combine
  have hswap : [doctrine, greedy].Perm [greedy, doctrine] := .swap _ _ _
  have hfirst : mailer.FirstNamed "send" ⟨"send", false, []⟩ :=
    ⟨[⟨"postLoad", false, []⟩], [⟨"send", true, []⟩], rfl, rfl, by decide⟩
  have hnone : ∀ m ∈ mailer.methods, m.name ≠ "stop" := by decide
  have hreverse := (List.reverse_perm (Doctrine.rules .modern).rules).symm
  have hused : (Registry.verdict ⟨[doctrine]⟩ loader).used = true := by decide
  have hmatch : (Doctrine.rules .modern).isMatch loader = true := by decide
  exact ⟨hswap, hperm _ _ loader hswap, hfirst, (hnamed _ _ _).1 _ hfirst, hnone,
    (hnamed _ _ _).2 hnone, hreverse, hrules _ ⟨_⟩ loader hreverse, hused,
    hprovider _ _ hused greedy, hmatch, hrule _ _ hmatch _⟩

end Reprieve
