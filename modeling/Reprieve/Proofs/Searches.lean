import Reprieve.Provider

/-! Whom a search asks: all those before the first hit, then the hit, and nobody behind it.
What is seen of a search from outside is what is seen of those, one after the other. -/
namespace Reprieve

/-- Of a list those up to the first that hits, and that one; the whole list if none does. -/
inductive UpToFirst {α : Type} (hits : α → Prop) : List α → List α → Option α → Prop
  | hit {l : List α} {a : α} (before : ∀ b ∈ l, ¬ hits b) (here : hits a) (r : List α) :
    UpToFirst hits (l ++ a :: r) (l ++ [a]) (some a)
  | miss {as : List α} (all : ∀ a ∈ as, ¬ hits a) : UpToFirst hits as as none

namespace UpToFirst
variable {α : Type} {hits : α → Prop} {as asked : List α} {last : Option α}

theorem head {a : α} (ha : hits a) (as : List α) : UpToFirst hits (a :: as) [a] (some a) :=
  .hit (l := []) nofun ha as

theorem cons {a : α} (ha : ¬ hits a) (h : UpToFirst hits as asked last) :
    UpToFirst hits (a :: as) (a :: asked) last := by
  cases h with
  | hit before here r => exact .hit (List.forall_mem_cons.2 ⟨ha, before⟩) here r
  | miss all => exact .miss (List.forall_mem_cons.2 ⟨ha, all⟩)

theorem last_hits {a : α} (h : UpToFirst hits as asked (some a)) : hits a := by
  cases h with
  | hit _ here _ => exact here

end UpToFirst

namespace Search
variable {α β γ : Type}

theorem run_cons_hit {p : α → Option β} {a : α} {b : β} (h : p a = some b) (as : List α) :
    run p (a :: as) = ⟨[a], some b⟩ := by
  rw [run, h]

theorem run_cons_miss {p : α → Option β} {a : α} (h : p a = none) (as : List α) :
    run p (a :: as) = ⟨a :: (run p as).asked, (run p as).hit⟩ := by
  rw [run, h]

theorem run_stops (p : α → Option β) (as : List α) : ∃ last,
    UpToFirst (fun a => (p a).isSome = true) as (run p as).asked last ∧
      (run p as).hit = last.bind p := by
  induction as with
  | nil => exact ⟨none, .miss nofun, rfl⟩
  | cons a as ih =>
    cases h : p a with
    | some b =>
      rw [run_cons_hit h]
      exact ⟨some a, .head (by rw [h]; rfl) as, h.symm⟩
    | none =>
      obtain ⟨last, hasked, hhit⟩ := ih
      rw [run_cons_miss h]
      exact ⟨last, hasked.cons (by rw [h]; exact Bool.false_ne_true), hhit⟩

theorem run_alike {p : α → Option β} {q : α → Option γ} (as : List α)
    (h : ∀ a ∈ as, (p a).isSome = (q a).isSome) :
    (run p as).asked = (run q as).asked ∧ (run p as).hit.isSome = (run q as).hit.isSome := by
  induction as with
  | nil => exact ⟨rfl, rfl⟩
  | cons a as ih =>
    obtain ⟨ha, has⟩ := List.forall_mem_cons.1 h
    cases hp : p a with
    | none =>
      have hq : q a = none := Option.not_isSome_iff_eq_none.1 (by rw [← ha, hp]; nofun)
      rw [run_cons_miss hp, run_cons_miss hq]
      exact ⟨congrArg (a :: ·) (ih has).1, (ih has).2⟩
    | some b =>
      obtain ⟨c, hq⟩ := Option.isSome_iff_exists.1 (show (q a).isSome = true by rw [← ha, hp]; rfl)
      rw [run_cons_hit hp, run_cons_hit hq]
      exact ⟨rfl, rfl⟩

/-- Let every question have an effect. Then the effects are those of the asked, in order. -/
theorem findSomeM?_eq {μ : Type → Type} [Monad μ] [LawfulMonad μ] (see : α → μ Unit)
    (p : α → Option β) (as : List α) :
    (as.findSomeM? fun a => do see a; return p a) = do
      (run p as).asked.forM see
      return (run p as).hit := by
  induction as with
  | nil => simp [run]
  | cons a as ih =>
    rw [List.findSomeM?_cons]
    cases h : p a with
    | none =>
      rw [run_cons_miss h]
      simp only [bind_assoc, pure_bind, ih, List.forM_eq_forM, List.forM_cons]
    | some b =>
      rw [run_cons_hit h]
      simp only [bind_assoc, pure_bind, List.forM_eq_forM, List.forM_cons, List.forM_nil]

end Search

/-! ### Queries -/

theorem RuleSet.search_stops (s : RuleSet) (m : Member) : ∃ last,
    UpToFirst (fun q => q.applies m = true) s.rules (s.search m).asked last ∧
      s.firstMatch m = last.map (·.name) := by
  obtain ⟨last, hasked, hhit⟩ :=
    Search.run_stops (fun q : Rule => if q.applies m then some q.name else none) s.rules
  simp only [Option.isSome_ite] at hasked
  refine ⟨last, hasked, hhit.trans ?_⟩
  cases last with
  | none => rfl
  | some q => exact if_pos hasked.last_hits

theorem Registry.search_stops (r : Registry) (m : Member) : ∃ last,
    UpToFirst (fun p => (p.verdict m).used = true) r.providers (r.search m).asked last ∧
      (r.search m).hit = last.map (·.verdict m) := by
  obtain ⟨last, hasked, hhit⟩ := Search.run_stops
    (fun p : Provider => let v := p.verdict m; if v.used then some v else none) r.providers
  simp only [Option.isSome_ite] at hasked
  refine ⟨last, hasked, hhit.trans ?_⟩
  cases last with
  | none => rfl
  | some p => exact if_pos hasked.last_hits

/-- The query for mere usage is the query for the verdict, the answer left out. -/
theorem Registry.queries_alike (r : Registry) (m : Member) :
    (r.usageSearch m).asked = (r.search m).asked ∧ r.isUsed m = (r.search m).hit.isSome :=
  Search.run_alike r.providers fun p _ => by
    cases h : (p.verdict m).used <;> simp [Provider.marksUsed, h]

/-- A query asks up to the first that answers, each once and nobody behind it, and gives the
answer of the last that it asked. Both queries of a registry ask the same providers. Whatever
is to be seen of the rules and the providers while they are asked, is seen of these alone and
in their order. -/
theorem queries_stop_at_first :
    (∀ (s : RuleSet) (m : Member), ∃ last,
      UpToFirst (fun q => q.applies m = true) s.rules (s.search m).asked last ∧
      s.firstMatch m = last.map (·.name)) ∧
    (∀ (r : Registry) (m : Member), ∃ last,
      UpToFirst (fun p => (p.verdict m).used = true) r.providers (r.search m).asked last ∧
      (r.usageSearch m).asked = (r.search m).asked ∧
      r.verdict m = (last.map (·.verdict m)).getD .unused ∧ r.isUsed m = last.isSome) ∧
    ∀ (μ : Type → Type) [Monad μ] [LawfulMonad μ],
      (∀ (see : Rule → μ Unit) (s : RuleSet) (m : Member),
        (s.rules.findSomeM? fun q => do
          see q
          return if q.applies m then some q.name else none) = do
            (s.search m).asked.forM see
            return s.firstMatch m) ∧
      ∀ (see : Provider → μ Unit) (r : Registry) (m : Member),
        (r.providers.findSomeM? fun p => do
          see p
          return if (p.verdict m).used then some (p.verdict m) else none) = do
            (r.search m).asked.forM see
            return (r.search m).hit := by
  refine ⟨RuleSet.search_stops, fun r m => ?providers, fun μ _ _ =>
    ⟨fun see s m => Search.findSomeM?_eq see _ s.rules,
      fun see r m => Search.findSomeM?_eq see _ r.providers⟩⟩
  case providers =>
    obtain ⟨last, hasked, hhit⟩ := r.search_stops m
    obtain ⟨hsame, hused⟩ := r.queries_alike m
    refine ⟨last, hasked, hsame, by rw [Registry.verdict, hhit], ?_⟩
    rw [hused, hhit, Option.isSome_map]

/-- Of three rules the second is the first that applies to a method `run`. -/
def jobRules : RuleSet :=
  ⟨[⟨"stop", fun m => m.method.name == "stop"⟩, ⟨"run", fun m => m.method.name == "run"⟩,
    ⟨"all", fun _ => true⟩]⟩

def job : Member := ⟨{ name := .ofText "App\\Job" }, { name := "run", isConstructor := false }⟩

/-- A log of the rules has the two that are asked. -/
theorem job_rules_logged :
    LawfulMonad (StateM (List String)) ∧
    (jobRules.rules.findSomeM? (m := StateM (List String)) fun q => do
      modify (· ++ [q.name])
      return if q.applies job then some q.name else none).run [] =
        (some "run", ["stop", "run"]) := by
  have hlog := (queries_stop_at_first.2.2 (StateM (List String))).1
    (fun q => modify (· ++ [q.name])) jobRules job
  refine ⟨inferInstance, ?_⟩
  rw [hlog]
  rfl

end Reprieve
