import Reprieve.Proofs.Effects
import Reprieve.Proofs.Versions

/-! Which setting counts. What an option says goes before what the settings file says, and
this goes before what a run finds: the version of the snapshot, and the packages that are
installed. Only the first version that is there is read, so it alone decides whether a run
stops at a version. -/
namespace Reprieve

def firstPresent (os : List (Option α)) : Option α := os.findSome? id

/-- The capabilities that a version gives, if there is one, and else those of today. -/
inductive Capabilities.Of : Option String → Capabilities → Prop where
  | unknown : Of none modern
  | known {w : String} {v : Version} (h : Version.parse w = .ok v) : Of (some w) (ofVersion v)

theorem Capabilities.Of.unique {version : Option String} {caps caps' : Capabilities}
    (h : Of version caps) (h' : Of version caps') : caps = caps' := by
  cases h with
  | unknown =>
    cases h'
    rfl
  | known hv =>
    cases h' with
    | known hv' => rw [Except.ok.inj (hv.symm.trans hv')]

namespace Settings

theorem capabilities_eq_ok_iff (s : Settings) (fallback : Option String) (caps : Capabilities) :
    s.capabilities fallback = .ok caps ↔ Capabilities.Of (s.version? fallback) caps := by
  rw [capabilities]
  cases s.version? fallback with
  | none =>
    constructor
    · intro h
      cases h
      exact .unknown
    · intro h
      cases h
      rfl
  | some w =>
    rw [Except.map_eq_ok_iff]
    constructor
    · intro h
      obtain ⟨v, hv, rfl⟩ := h
      exact .known hv
    · intro h
      cases h with
      | known hv => exact ⟨_, hv, rfl⟩

theorem capabilities_eq_error_iff (s : Settings) (fallback : Option String) (w : String) :
    s.capabilities fallback = .error w ↔
      s.version? fallback = some w ∧ ∀ v, Version.parse w ≠ .ok v := by
  rw [capabilities]
  cases s.version? fallback with
  | none => exact ⟨nofun, fun h => absurd h.1 nofun⟩
  | some u =>
    rw [Except.map_eq_error_iff, Version.parse_eq_error_iff]
    constructor
    · intro h
      obtain ⟨rfl, hu⟩ := h
      exact ⟨rfl, hu⟩
    · intro h
      obtain ⟨hu, hw⟩ := h
      cases hu
      exact ⟨rfl, hw⟩

end Settings

theorem Index.runtimeVersion_of_ofSnapshot {snap : Snapshot} {ix : Index}
    (h : ofSnapshot snap = .ok ix) : ix.runtimeVersion = snap.runtimeVersion := by
  rw [ofSnapshot] at h
  split at h
  · cases h
  · cases h
    rfl

theorem Snapshot.loadIndex_of_load {t : FileTree} {path : String} {snap : Snapshot} {ix : Index}
    (hm : load t path = .ok snap) (hix : Index.ofSnapshot snap = .ok ix) :
    loadIndex t path = .ok ix := by
  rw [loadIndex, hm]
  exact congrArg (Except.mapError Fault.declaredTwice) hix

theorem append_ne {p s : String} (h : ¬ p.toList <+: s.toList) (q : String) : p ++ q ≠ s := by
  intro he
  rw [← he, String.toList_append] at h
  exact h (List.prefix_append _ _)

namespace CommandLine

/-- No other failure is told in these words. -/
theorem Failure.message_eq_version_iff (f : Failure) :
    f.message = "Invalid runtime.version" ↔ ∃ w, f = .version w := by
  constructor
  · intro h
    cases f with
    | version w => exact ⟨w, rfl⟩
    | settings f =>
      cases f with
      | unreadable p => exact absurd h (append_ne (by decide) p)
      | badYaml => exact absurd h (by decide)
      | badToml => exact absurd h (by decide)
      | badFile => exact absurd h (by decide)
    | metadata p f => exact absurd h (append_ne (by decide) p)
    | packages f =>
      cases f with
      | unreadable p f =>
        refine absurd h ?_
        change "Failed to read " ++ p ++ ": " ++ f.message ≠ "Invalid runtime.version"
        rw [String.append_assoc, String.append_assoc]
        exact append_ne (by decide) _
      | unparsable p f => exact absurd h (append_ne (by decide) p)
    | unreadableCandidates p f => exact absurd h (append_ne (by decide) p)
    | badCandidates p f => exact absurd h (append_ne (by decide) p)
    | format name =>
      refine absurd h ?_
      change "Unknown report format '" ++ name ++ "'" ≠ "Invalid runtime.version"
      rw [String.append_assoc]
      exact append_ne (by decide) _
    | output f => cases f <;> exact absurd h (by decide)
  · intro h
    obtain ⟨w, rfl⟩ := h
    rfl

namespace Options

def loaded (o : Options) (t : FileTree) : Except Settings.FileFault Settings :=
  match o.config with
  | some p => Settings.load t p
  | none => Settings.find t o.root

def version? (o : Options) (s : Settings) (snap : Snapshot) : Option String :=
  firstPresent [o.runtimeVersion, s.runtimeVersion, snap.runtimeVersion]

def doctrine? (o : Options) (s : Settings) : Option Bool := firstPresent [o.doctrine, s.doctrine]

def vendorPath (o : Options) (s : Settings) : String :=
  Path.join o.root (o.vendorDirectory.getD s.vendorDirectory)

theorem version?_apply (o : Options) (s : Settings) (snap : Snapshot) :
    (o.apply s).version? snap.runtimeVersion = o.version? s snap := by
  rw [version?, firstPresent, Settings.version?, apply]
  cases o.runtimeVersion <;> cases s.runtimeVersion <;> cases snap.runtimeVersion <;> rfl

theorem doctrine_apply (o : Options) (s : Settings) : (o.apply s).doctrine = o.doctrine? s := by
  rw [doctrine?, firstPresent, apply]
  cases o.doctrine <;> cases s.doctrine <;> rfl

theorem settings_of_loaded {o : Options} {t : FileTree} {s : Settings} (hs : o.loaded t = .ok s) :
    o.settings t = .ok (o.apply s) := by
  have hset : o.settings t = ((o.loaded t).map o.apply).mapError .settings := rfl
  rw [hset, hs]
  rfl

end Options

section Loaded
variable {t : FileTree} {o : Options} {s : Settings} {snap : Snapshot} {ix : Index}
variable (hs : o.loaded t = .ok s) (hm : Snapshot.load t o.metadata = .ok snap)
variable (hix : Index.ofSnapshot snap = .ok ix)
include hs hm hix

theorem Options.plan_of_loaded : o.plan t = do
    let caps ← ((o.apply s).capabilities snap.runtimeVersion).mapError .version
    let installed ← (Packages.ofVendor t (o.vendorPath s)).mapError .packages
    return ⟨o.apply s, ix, Doctrine.registry (o.doctrine? s) caps installed⟩ := by
  rw [plan, settings_of_loaded hs, Snapshot.loadIndex_of_load hm hix, ← Options.doctrine_apply,
    ← Index.runtimeVersion_of_ofSnapshot hix]
  rfl

theorem Options.plan_eq_ok_iff_of_loaded (p : Plan) : o.plan t = .ok p ↔
    ∃ caps installed, Capabilities.Of (o.version? s snap) caps ∧
      Packages.ofVendor t (o.vendorPath s) = .ok installed ∧
      p = ⟨o.apply s, ix, Doctrine.registry (o.doctrine? s) caps installed⟩ := by
  rw [Options.plan_of_loaded hs hm hix]
  simp only [Except.bind_eq_ok_iff, Except.mapError_eq_ok_iff, Settings.capabilities_eq_ok_iff,
    Options.version?_apply]
  constructor
  · intro h
    obtain ⟨caps, hc, installed, hi, hp⟩ := h
    cases hp
    exact ⟨caps, installed, hc, hi, rfl⟩
  · intro h
    obtain ⟨caps, installed, hc, hi, rfl⟩ := h
    exact ⟨caps, hc, installed, hi, rfl⟩

theorem Options.plan_eq_version_iff (w : String) : o.plan t = .error (.version w) ↔
    o.version? s snap = some w ∧ ∀ v, Version.parse w ≠ .ok v := by
  rw [Options.plan_of_loaded hs hm hix, ← Options.version?_apply,
    ← Settings.capabilities_eq_error_iff]
  cases (o.apply s).capabilities snap.runtimeVersion with
  | error u =>
    constructor <;>
    · intro h
      cases h
      rfl
  | ok caps =>
    cases Packages.ofVendor t (o.vendorPath s) with
    | error f => exact ⟨nofun, nofun⟩
    | ok installed => exact ⟨nofun, nofun⟩

end Loaded

namespace Options

theorem findings_ne_version (o : Options) (t : FileTree) (w : String) :
    o.findings t ≠ .error (.version w) := by
  rw [findings]
  cases o.candidates with
  | none => exact nofun
  | some p =>
    simp only [ne_eq, Except.bind_eq_error_iff, Except.mapError_eq_error_iff, not_or]
    refine ⟨nofun, fun h => ?_⟩
    obtain ⟨text, -, h⟩ := h
    cases h with
    | inl h =>
      obtain ⟨fault, -, h⟩ := h
      cases h
    | inr h =>
      obtain ⟨candidates, -, h⟩ := h
      cases h

/-- Behind the plan no step reads a version. -/
theorem deliver_ne_version (o : Options) (t : FileTree) (color : Bool) (p : Plan) (w : String) :
    o.deliver t color p ≠ .error (.version w) := by
  simp only [deliver, ne_eq, Except.bind_eq_error_iff, not_or]
  refine ⟨o.findings_ne_version t w, fun h => ?_⟩
  obtain ⟨cs, -, h⟩ := h
  cases hf : ReportFormat.ofName? p.settings.reportFormat with
  | none =>
    rw [hf] at h
    cases h
  | some format =>
    simp only [hf, Except.mapError_eq_error_iff] at h
    obtain ⟨f, -, h⟩ := h
    cases h

end Options

theorem ending_eq_failed_iff (color : Bool) (t : FileTree) (o : Options) (f : Failure) :
    (runOptions color t o).ending = .failed f ↔
      o.plan t = .error f ∨ ∃ p, o.plan t = .ok p ∧ o.deliver t color p = .error f := by
  rw [runOptions]
  cases o.plan t with
  | error g => simp
  | ok p => cases hd : o.deliver t color p <;> simp [hd]

/-- A run stops at a version exactly if the version that counts is none. -/
theorem run_invalid_iff {t : FileTree} {words : List String} {o : Options} {s : Settings}
    {snap : Snapshot} {ix : Index} (color : Bool) (ho : Options.ofWords words = .ok o)
    (hs : o.loaded t = .ok s) (hm : Snapshot.load t o.metadata = .ok snap)
    (hix : Index.ofSnapshot snap = .ok ix) :
    (∃ f, (run color t words).ending = .failed f ∧ f.message = "Invalid runtime.version") ↔
      ∃ w, o.version? s snap = some w ∧ ∀ v, Version.parse w ≠ .ok v := by
  have hrun : run color t words = runOptions color t o := by rw [run, ho]
  simp only [Failure.message_eq_version_iff, ← Options.plan_eq_version_iff hs hm hix, hrun,
    ending_eq_failed_iff]
  constructor
  · intro h
    obtain ⟨f, hf, w, rfl⟩ := h
    cases hf with
    | inl hplan => exact ⟨w, hplan⟩
    | inr hdeliver =>
      obtain ⟨p, -, hdeliver⟩ := hdeliver
      exact absurd hdeliver (o.deliver_ne_version t color p w)
  · intro h
    obtain ⟨w, hw⟩ := h
    exact ⟨_, .inl hw, w, rfl⟩

end CommandLine
end Reprieve
