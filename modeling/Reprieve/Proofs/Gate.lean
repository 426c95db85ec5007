import Reprieve.Proofs.Alternatives
import Reprieve.Proofs.Conventions
import Reprieve.Proofs.Untagged

/-! The gate of declarative metadata. While it is closed no verdict reads a tag, so what
an analysis answers does not depend on tags. Opening it takes no method away, and changes
the reported rule only to one of the two that read tags. -/
namespace Reprieve

theorem Capabilities.ofVersion_of_lt {v : Version}
    (h : compare v Version.declarativeSince = .lt) : ofVersion v = .legacy := by
  rw [ofVersion, h]
  rfl

namespace Doctrine

theorem verdict_registry (setting : Option Bool) (caps : Capabilities) (installed : Packages)
    (m : Member) : (registry setting caps installed).verdict m =
      (provider setting caps installed).verdict m := by
  have hv : ((provider setting caps installed).verdict m).used = true ∨
      (provider setting caps installed).verdict m = .unused := by
    cases he : (provider setting caps installed).enabled with
    | false => exact .inr (verdict_disabled caps m he)
    | true =>
      rw [verdict_enabled caps m he]
      cases (rules caps).firstMatch m with
      | none => exact .inr rfl
      | some rule => exact .inl rfl
  refine (Registry.verdict_cons _ [] m).trans ?_
  cases hv with
  | inl hu => exact if_pos hu
  | inr hu =>
    rw [hu]
    rfl

/-! ### The closed gate -/

theorem firstMatch_legacy_untagged (m : Member) :
    (rules .legacy).firstMatch m.untagged = (rules .legacy).firstMatch m := by
  refine RuleSet.firstMatch_congr ?_
  simp only [rules, List.forall_mem_cons]
  exact ⟨rfl, rfl, rfl, rfl, rfl, nofun⟩

theorem tagBlind_legacy (setting : Option Bool) (installed : Packages) :
    (registry setting .legacy installed).TagBlind := by
  intro m
  rw [verdict_registry, verdict_registry]
  simp only [provider, verdict, firstMatch_legacy_untagged]

theorem analysis_untagged (setting : Option Bool) (installed : Packages)
    (cs : Option (List Candidate)) (s : Snapshot) :
    (Index.ofSnapshot s.untagged).map
        (fun ix => (registry setting .legacy installed).analyze ix cs) =
      (Index.ofSnapshot s).map fun ix => (registry setting .legacy installed).analyze ix cs := by
  rw [Index.ofSnapshot_untagged]
  cases Index.ofSnapshot s with
  | error name => rfl
  | ok ix => exact congrArg Except.ok ((tagBlind_legacy setting installed).analyze_untagged ix cs)

/-! ### The gate opens -/

def ReadsTags (rule : String) : Prop := rule = "lifecycle-callback" ∨ rule = "entity-listener"

/-- With the gate two rules begin to apply, and the others stay. -/
theorem rules_widen (m : Member) :
    List.Forall₂ (fun r r' => r'.name = r.name ∧
      (r'.applies m = r.applies m ∨ r.applies m = false ∧ ReadsTags r.name))
      (rules .legacy).rules (rules .modern).rules := by
  refine .cons ⟨rfl, ?subscriber⟩ (.cons ⟨rfl, ?lifecycle⟩ (.cons ⟨rfl, ?repository⟩
    (.cons ⟨rfl, ?listener⟩ (.cons ⟨rfl, ?naming⟩ .nil))))
  case subscriber => exact .inl rfl
  case lifecycle => exact .inr ⟨rfl, .inl rfl⟩
  case repository => exact .inl rfl
  case listener => exact .inr ⟨rfl, .inr rfl⟩
  case naming => exact .inl rfl

theorem verdict_modern_of_legacy (setting : Option Bool) (installed : Packages) (m : Member)
    (h : ((registry setting .legacy installed).verdict m).used = true) :
    ∃ rule rule', (registry setting .legacy installed).verdict m = .usedBy name rule ∧
      (registry setting .modern installed).verdict m = .usedBy name rule' ∧
      (rule' = rule ∨ ReadsTags rule') := by
  rw [verdict_registry] at h ⊢
  rw [verdict_registry]
  cases he : isEnabled setting installed with
  | false =>
    rw [verdict_disabled .legacy m he] at h
    cases h
  | true =>
    rw [verdict_enabled .legacy m he] at h ⊢
    rw [verdict_enabled .modern m he]
    cases hf : (rules .legacy).firstMatch m with
    | none =>
      rw [hf] at h
      cases h
    | some rule =>
      obtain ⟨rule', hf', hr⟩ := RuleSet.firstMatch_widen (rules_widen m) hf
      exact ⟨rule, rule', rfl, by rw [hf']; rfl, hr⟩

/-- Before declarative metadata exists, snapshots that differ in tags only fare alike: they
are refused alike or have the same verdicts, for all members and for every list of findings.
And a method that is used without declarative metadata is used with it, by the same rule or
by one that reads tags. -/
theorem gate_isolates_tags :
    (∀ s s' : Snapshot, s.untagged = s'.untagged → ∀ v : Version,
      compare v Version.declarativeSince = .lt → ∀ setting installed cs,
      (Index.ofSnapshot s).map
          (fun ix => (registry setting (.ofVersion v) installed).analyze ix cs) =
        (Index.ofSnapshot s').map
          fun ix => (registry setting (.ofVersion v) installed).analyze ix cs) ∧
    ∀ setting installed (m : Member),
      ((registry setting .legacy installed).verdict m).used = true →
      ((registry setting .modern installed).verdict m).used = true ∧
      ∃ rule rule', (registry setting .legacy installed).verdict m = .usedBy "doctrine" rule ∧
        (registry setting .modern installed).verdict m = .usedBy "doctrine" rule' ∧
        (rule' = rule ∨ rule' = "lifecycle-callback" ∨ rule' = "entity-listener") := by
  constructor
  · intro s s' hs v hv setting installed cs
    rw [Capabilities.ofVersion_of_lt hv, ← analysis_untagged, hs, analysis_untagged]
  · intro setting installed m hm
    obtain ⟨rule, rule', hl, hn, hr⟩ := verdict_modern_of_legacy setting installed m hm
    exact ⟨by rw [hn]; rfl, rule, rule', hl, hn, hr⟩

/-- A method that is called by its name, and under a gate that is open by its tag. -/
def loading (tags : List Tag) : Snapshot :=
  { classes := [{ name := "App\\Post", tags, methods := [{ name := "postLoad", tags }] }] }

def loadingMember : Member :=
  ⟨{ name := .ofText "App\\Post" },
    { name := "postLoad", isConstructor := false
      tags := [{ name := .ofText "Doctrine\\ORM\\Mapping\\PostLoad" }] }⟩

theorem loading_isolated :
    (loading loadingMember.method.tags).untagged = (loading []).untagged ∧
      compare ⟨7, 4, 33⟩ Version.declarativeSince = .lt ∧
      (Index.ofSnapshot (loading loadingMember.method.tags)).map
          (fun ix => (registry (some true) (.ofVersion ⟨7, 4, 33⟩) {}).analyze ix none) =
        (Index.ofSnapshot (loading [])).map
          (fun ix => (registry (some true) (.ofVersion ⟨7, 4, 33⟩) {}).analyze ix none) ∧
      ((registry (some true) .legacy {}).verdict loadingMember).used = true ∧
      ((registry (some true) .modern {}).verdict loadingMember).used = true := by
  have hs : (loading loadingMember.method.tags).untagged = (loading []).untagged := rfl
  have hv : compare ⟨7, 4, 33⟩ Version.declarativeSince = .lt := by decide
  have hu : ((registry (some true) .legacy {}).verdict loadingMember).used = true := by decide
  exact ⟨hs, hv, gate_isolates_tags.1 _ _ hs _ hv (some true) {} none, hu,
    (gate_isolates_tags.2 (some true) {} loadingMember hu).1⟩

end Doctrine
end Reprieve
