import Reprieve.Proofs.Alternatives
import Reprieve.Proofs.Conventions
import Reprieve.Proofs.Judgements

/-! When every finding stands. A registry asks all its providers and leaves it to each of
them to heed its own switch. So while none is enabled nothing is used exactly if no
provider marks a method in spite of its switch. The provider for Doctrine never does. -/
namespace Reprieve

/-- While it is disabled it marks nothing. -/
def Provider.HeedsSwitch (p : Provider) : Prop :=
  p.enabled = false → ∀ m, p.marksUsed m = false

theorem Doctrine.provider_heedsSwitch (setting : Option Bool) (caps : Capabilities)
    (installed : Packages) : (provider setting caps installed).HeedsSwitch := by
  intro h m
  rw [Provider.marksUsed, verdict_disabled caps m h]
  rfl

namespace Registry

def ofProviders (ps : List Provider) : Registry := ps.foldl add {}

theorem providers_foldl_add (ps : List Provider) : ∀ r : Registry,
    (ps.foldl add r).providers = r.providers ++ ps := by
  induction ps with
  | nil => simp
  | cons p ps ih =>
    intro r
    rw [List.foldl_cons, ih]
    simp [add]

theorem providers_ofProviders (ps : List Provider) : (ofProviders ps).providers = ps :=
  providers_foldl_add ps {}

variable (r : Registry)

theorem enabledCount_eq_zero_iff :
    r.enabledCount = 0 ↔ ∀ p ∈ r.providers, p.enabled = false := by
  simp [enabledCount, List.countP_eq_zero]

/-! ### What a registry answers, from what its providers mark -/

theorem verdict_eq_unused_iff (m : Member) :
    r.verdict m = .unused ↔ ∀ p ∈ r.providers, p.marksUsed m = false := by
  obtain ⟨ps⟩ := r
  induction ps with
  | nil => exact ⟨fun _ => nofun, fun _ => rfl⟩
  | cons p ps ih =>
    rw [verdict_cons, List.forall_mem_cons, Provider.marksUsed]
    cases hp : (p.verdict m).used with
    | false =>
      rw [if_neg Bool.false_ne_true, ih]
      simp
    | true =>
      rw [if_pos rfl]
      refine iff_of_false (fun hv => ?_) (by simp)
      rw [hv] at hp
      cases hp

theorem isUsed_eq_false_iff (m : Member) :
    r.isUsed m = false ↔ ∀ p ∈ r.providers, p.marksUsed m = false := by
  rw [← Bool.not_eq_true, isUsed_iff]
  simp [Provider.marksUsed]

/-- No query and no analysis has a member that is used. -/
structure Stands : Prop where
  verdict : ∀ m, r.verdict m = .unused
  usage : ∀ m, r.isUsed m = false
  named : ∀ c method, r.isMemberUsed c method = false
  ofClass : ∀ c, ∀ v ∈ r.analyzeClass c, v.isUsed = false
  analysis : ∀ ix cs, ∀ v ∈ r.analyze ix cs, v.isUsed = false

theorem stands_of_verdict (h : ∀ m, r.verdict m = .unused) : r.Stands := by
  have hmark : ∀ m, ∀ p ∈ r.providers, p.marksUsed m = false :=
    fun m => (r.verdict_eq_unused_iff m).1 (h m)
  have husage : ∀ m, r.isUsed m = false := fun m => (r.isUsed_eq_false_iff m).2 (hmark m)
  have hjudge : ∀ m, (r.judge m).isUsed = false := by
    intro m
    rw [judge, h]
    rfl
  refine ⟨h, husage, ?named, ?ofClass, ?analysis⟩
  case named =>
    intro c method
    rw [isMemberUsed]
    cases c.member? method with
    | none => rfl
    | some m => exact husage m
  case ofClass =>
    intro c v hv
    obtain ⟨m, rfl⟩ := r.judged_of_mem_analyzeClass hv
    exact hjudge m
  case analysis =>
    intro ix cs v hv
    obtain ⟨m, rfl⟩ | ⟨f, rfl⟩ := r.judged_or_unresolved_of_mem_analyze hv
    · exact hjudge m
    · rfl

/-- While no provider is enabled every finding stands, exactly if each provider heeds its
switch, as the provider for Doctrine does. -/
theorem stands_iff_heedsSwitch {ps : List Provider} (h : (ofProviders ps).enabledCount = 0) :
    ((ofProviders ps).Stands ↔ ∀ p ∈ ps, p.HeedsSwitch) ∧
      ∀ setting caps installed, (Doctrine.provider setting caps installed).HeedsSwitch := by
  rw [enabledCount_eq_zero_iff, providers_ofProviders] at h
  refine ⟨⟨?marks, ?stands⟩, Doctrine.provider_heedsSwitch⟩
  case marks =>
    intro hs p hp _ m
    have hmark := (verdict_eq_unused_iff _ m).1 (hs.verdict m)
    rw [providers_ofProviders] at hmark
    exact hmark p hp
  case stands =>
    intro hh
    refine stands_of_verdict _ fun m => (verdict_eq_unused_iff _ m).2 fun p hp => ?_
    rw [providers_ofProviders] at hp
    exact hh p hp (h p hp) m

def handlers (heedsSwitch : Bool) : Provider :=
  ⟨"messenger", false, fun m =>
    if !heedsSwitch && m.method.name == "handle" then .usedBy "messenger" "handler-name"
    else .unused⟩

def handler : Descriptor :=
  { name := .ofText "App\\Mailer", methods := [⟨"handle", false, []⟩] }

theorem handlers_stand :
    (ofProviders [Doctrine.provider (some false) .modern {}, handlers true]).enabledCount = 0 ∧
      (ofProviders [Doctrine.provider (some false) .modern {}, handlers true]).Stands := by
  have h : (ofProviders [Doctrine.provider (some false) .modern {}, handlers true]).enabledCount
      = 0 := by decide
  refine ⟨h, (stands_iff_heedsSwitch h).1.2 fun p hp => ?_⟩
  obtain rfl | rfl := List.mem_pair.1 hp
  · exact Doctrine.provider_heedsSwitch _ _ _
  · exact fun _ _ => rfl

/-- Nobody asks a provider for its switch: one that marks a method in spite of it is
believed by every query and every analysis. -/
theorem handlers_do_not_stand :
    (ofProviders [handlers false]).enabledCount = 0 ∧
      ∃ m, handler.member? "handle" = some m ∧
        (ofProviders [handlers false]).verdict m = .usedBy "messenger" "handler-name" ∧
        (ofProviders [handlers false]).isUsed m = true ∧
        (ofProviders [handlers false]).isMemberUsed handler "handle" = true ∧
        ∃ v ∈ (ofProviders [handlers false]).analyzeAll (.ofClasses [handler]),
          v.isUsed = true := by
  refine ⟨by decide, ⟨handler, ⟨"handle", false, []⟩⟩, rfl, by decide, by decide, by decide, ?_⟩
  exact ⟨_, List.mem_singleton_self _, rfl⟩

end Registry
end Reprieve
