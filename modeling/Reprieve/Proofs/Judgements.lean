import Reprieve.Proofs.Descriptor
import Reprieve.Proofs.History
import Reprieve.Proofs.Tallies

/-! What an analysis says of a finding. A finding is known where the class of its key
declares its method; it then gets the verdict of the first such method, under the name that
the class was declared with. Any other finding is given back as it came, and it stands. -/
namespace Reprieve

namespace Registry

/-! ### One finding -/

structure Answers (r : Registry) (ix : Index) (f : Candidate) (v : MemberVerdict) : Prop where
  resolved : v.resolved = true ↔
    ∃ c ∈ ix.classes, c.name.key = ClassName.keyOf f.className ∧
      ∃ m ∈ c.methods, m.name = f.method
  known : ∀ c ∈ ix.classes, c.name.key = ClassName.keyOf f.className →
    ∀ m, c.FirstNamed f.method m →
      v = ⟨c.name.declared, some c.kind, f.method, m.isConstructor, true, r.verdict ⟨c, m⟩⟩
  unknown : v.resolved = false → v = ⟨f.className, none, f.method, false, false, .unused⟩

variable (r : Registry) {ix : Index}

theorem answers_judge (h : ix.Aligned) {f : Candidate} {m : Member}
    (hm : ix.member? f.className f.method = some m) : r.Answers ix f (r.judge m) := by
  refine ⟨⟨fun _ => ?resolved, fun _ => rfl⟩, fun c hc hk q hq => ?known, nofun⟩
  case resolved =>
    obtain ⟨hc, hk, hfirst⟩ := (h.member?_eq_some_iff _ _ m).1 hm
    exact ⟨m.owner, hc, hk, m.method, hfirst.mem, hfirst.name_eq⟩
  case known =>
    -- a key has one class, and a name one first method
    have hcq := (h.member?_eq_some_iff f.className f.method ⟨c, q⟩).2 ⟨hc, hk, hq⟩
    obtain rfl := Option.some.inj (hm.symm.trans hcq)
    rw [judge, MemberVerdict.ofMember, hq.name_eq]

theorem answers_unresolved (h : ix.Aligned) {f : Candidate}
    (hm : ix.member? f.className f.method = none) : r.Answers ix f (.unresolved f) := by
  have hnone := (h.member?_eq_none_iff _ _).1 hm
  refine ⟨⟨nofun, fun hex => ?resolved⟩, fun c hc hk q hq => ?known, fun _ => rfl⟩
  case resolved =>
    obtain ⟨c, hc, hk, m, hmem, hname⟩ := hex
    exact absurd hname (hnone c hc hk m hmem)
  case known => exact absurd hq.name_eq (hnone c hc hk q hq.mem)

theorem answers_analyzeCandidate (h : ix.Aligned) (f : Candidate) :
    r.Answers ix f (r.analyzeCandidate ix f) := by
  rw [analyzeCandidate]
  cases hm : ix.member? f.className f.method with
  | some m => exact r.answers_judge h hm
  | none => exact r.answers_unresolved h hm

theorem answers_analyzeCandidates (h : ix.Aligned) (fs : List Candidate) :
    List.Forall₂ (r.Answers ix) fs (r.analyzeCandidates ix fs) := by
  induction fs with
  | nil => exact .nil
  | cons f fs ih => exact .cons (r.answers_analyzeCandidate h f) ih

end Registry

/-! ### Whole results -/

/-- Only what is known has a kind, and only what is known is used. -/
structure MemberVerdict.Coherent (v : MemberVerdict) : Prop where
  used : v.verdict.used = true → v.resolved = true
  kind : v.kind.isSome = v.resolved

theorem MemberVerdict.coherent_ofMember (m : Member) (v : Verdict) : (ofMember m v).Coherent :=
  ⟨fun _ => rfl, rfl⟩

theorem MemberVerdict.coherent_unresolved (f : Candidate) : (unresolved f).Coherent :=
  ⟨nofun, rfl⟩

theorem MemberVerdict.Coherent.rule?_eq_none {v : MemberVerdict} (h : v.Coherent)
    (hv : v.resolved = false) : v.rule? = none :=
  if_neg fun hused => Bool.false_ne_true (hv.symm.trans (h.used hused))

theorem Summary.unresolved_le_unused {vs : List MemberVerdict}
    (h : ∀ v ∈ vs, v.Coherent) : (ofVerdicts vs).unresolved ≤ (ofVerdicts vs).unused := by
  rw [(of_ofVerdicts vs).unresolved, (of_ofVerdicts vs).unused]
  refine List.countP_mono_left fun v hv hunknown => ?_
  rw [(h v hv).rule?_eq_none (by simpa using hunknown)]
  rfl

namespace Registry
variable (r : Registry)

theorem judged_of_mem_analyzeClass {c : Descriptor} {v : MemberVerdict}
    (hv : v ∈ r.analyzeClass c) : ∃ m, r.judge m = v := by
  obtain ⟨m, -, hm⟩ := List.mem_map.1 hv
  exact ⟨m, hm⟩

theorem judged_or_unresolved_of_mem_analyze {ix : Index} {fs : Option (List Candidate)}
    {v : MemberVerdict} (hv : v ∈ r.analyze ix fs) :
    (∃ m, r.judge m = v) ∨ ∃ f, .unresolved f = v := by
  cases fs with
  | none =>
    obtain ⟨c, -, hc⟩ := List.mem_flatMap.1 hv
    exact .inl (r.judged_of_mem_analyzeClass hc)
  | some fs =>
    obtain ⟨f, -, rfl⟩ := List.mem_map.1 hv
    rw [analyzeCandidate]
    cases ix.member? f.className f.method with
    | some m => exact .inl ⟨m, rfl⟩
    | none => exact .inr ⟨f, rfl⟩

theorem coherent_of_mem_analyzeClass {c : Descriptor} {v : MemberVerdict}
    (hv : v ∈ r.analyzeClass c) : v.Coherent := by
  obtain ⟨m, rfl⟩ := r.judged_of_mem_analyzeClass hv
  exact MemberVerdict.coherent_ofMember _ _

theorem coherent_of_mem_analyze {ix : Index} {fs : Option (List Candidate)} {v : MemberVerdict}
    (hv : v ∈ r.analyze ix fs) : v.Coherent := by
  obtain ⟨m, rfl⟩ | ⟨f, rfl⟩ := r.judged_or_unresolved_of_mem_analyze hv
  · exact MemberVerdict.coherent_ofMember _ _
  · exact MemberVerdict.coherent_unresolved f

/-- The findings of a list are answered one by one in their order, whatever the history of the
index is. In every analysis, of a list or of all members, what is used is known, a kind is there
exactly for what is known, and the findings that are not known count as unused. -/
theorem judged_as_declared :
    (∀ ix ds, Index.Filled ix ds → ∀ fs,
      List.Forall₂ (r.Answers ix) fs (r.analyzeCandidates ix fs)) ∧
    (∀ ix fs gs, r.analyzeCandidates ix (fs ++ gs) =
      r.analyzeCandidates ix fs ++ r.analyzeCandidates ix gs) ∧
    (∀ c, ∀ v ∈ r.analyzeClass c, v.Coherent) ∧
    ∀ ix fs, (∀ v ∈ r.analyze ix fs, v.Coherent) ∧
      (Summary.ofVerdicts (r.analyze ix fs)).unresolved ≤
        (Summary.ofVerdicts (r.analyze ix fs)).unused := by
  refine ⟨fun ix ds h => r.answers_analyzeCandidates h.holds.aligned,
    fun ix fs gs => List.map_append, fun c v => r.coherent_of_mem_analyzeClass, fun ix fs => ?_⟩
  have hcoherent : ∀ v ∈ r.analyze ix fs, v.Coherent := fun v => r.coherent_of_mem_analyze
  exact ⟨hcoherent, Summary.unresolved_le_unused hcoherent⟩

def outbox : Descriptor :=
  { name := .ofText "\\App\\Outbox", methods := [⟨"flush", true, []⟩, ⟨"flush", false, []⟩] }

def constructors : Registry :=
  ⟨[⟨"container", true, fun m =>
    if m.method.isConstructor then .usedBy "container" "constructor" else .unused⟩]⟩

/-- The class is found in any case, the method only as it is written. -/
theorem outbox_judged :
    Index.Filled (.ofClasses [outbox]) [outbox] ∧
    List.Forall₂ (constructors.Answers (.ofClasses [outbox]))
      [⟨"\\APP\\outbox", "flush"⟩, ⟨"App\\Outbox", "Flush"⟩, ⟨"App\\Inbox", "flush"⟩]
      [⟨"App\\Outbox", some .class, "flush", true, true, .usedBy "container" "constructor"⟩,
        ⟨"App\\Outbox", none, "Flush", false, false, .unused⟩,
        ⟨"App\\Inbox", none, "flush", false, false, .unused⟩] :=
  ⟨.collected [outbox], (judged_as_declared constructors).1 _ _ (.collected [outbox])
    [⟨"\\APP\\outbox", "flush"⟩, ⟨"App\\Outbox", "Flush"⟩, ⟨"App\\Inbox", "flush"⟩]⟩

end Registry
end Reprieve
