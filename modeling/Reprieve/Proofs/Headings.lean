import Reprieve.Proofs.Blocks
import Reprieve.Proofs.Judgements

/-! Headers of the report for people, and the order of the findings. A header takes its kind
from the first shown member of its class. Members that are known have the kind of the class,
and findings that are not known have none, so a header depends on the order exactly where
both are shown under one name. -/
namespace Reprieve

namespace TerminalReport

/-- Under one name all are known or none is. -/
def Uniform (vs : List MemberVerdict) : Prop :=
  ∀ v ∈ vs, ∀ w ∈ vs, v.className = w.className → v.resolved = w.resolved

def headers (ls : List Line) : List (Option ClassKind × String) := ls.filterMap Line.header?

def kindOf (vs : List MemberVerdict) (c : String) : Option ClassKind :=
  (ofClass c vs).head?.bind (·.kind)

theorem exists_kindOf {vs : List MemberVerdict} {c : String} (h : ∃ v ∈ vs, v.className = c) :
    ∃ v ∈ vs, v.className = c ∧ kindOf vs c = v.kind := by
  obtain ⟨v, l, hl⟩ := List.exists_cons_of_ne_nil ((ofClass_ne_nil_iff c vs).2 h)
  have hv : v ∈ ofClass c vs := by simp [hl]
  refine ⟨v, (List.mem_filter.1 hv).1, className_of_mem_ofClass hv, ?_⟩
  rw [kindOf, hl]
  rfl

theorem kindOf_cons (v : MemberVerdict) (vs : List MemberVerdict) :
    kindOf (v :: vs) v.className = v.kind := by
  rw [kindOf, ofClass, List.filter_cons_of_pos (by simp)]
  rfl

theorem headers_lines (showUnused : Bool) (vs : List MemberVerdict) :
    headers (lines showUnused vs) =
      (groups (shown showUnused vs)).keys.map fun c => (kindOf (shown showUnused vs) c, c) := by
  by_cases h : vs = []
  · subst h
    rfl
  · exact header?_lines showUnused h

theorem names_perm (showUnused : Bool) {vs ws : List MemberVerdict} (h : vs.Perm ws) :
    (headers (lines showUnused vs)).map (·.2) = (headers (lines showUnused ws)).map (·.2) := by
  have hkeys := keys_groups_perm (h.filter fun v => showUnused || v.isUsed)
  simp only [headers_lines, List.map_map, Function.comp_def, List.map_id']
  exact hkeys

theorem summaryPart_perm (showUnused : Bool) {vs ws : List MemberVerdict} (h : vs.Perm ws) :
    summaryPart (lines showUnused vs) = summaryPart (lines showUnused ws) := by
  by_cases hvs : vs = []
  · subst hvs
    rw [h.nil_eq]
  · have hws : ws ≠ [] := fun hws => hvs (by subst hws; exact h.eq_nil)
    rw [summaryPart_lines showUnused hvs, summaryPart_lines showUnused hws,
      Summary.ofVerdicts_perm h]

theorem mem_headers_iff (showUnused : Bool) (vs : List MemberVerdict) (kind : Option ClassKind)
    (c : String) : (kind, c) ∈ headers (lines showUnused vs) ↔
      (∃ v ∈ shown showUnused vs, v.className = c) ∧ kindOf (shown showUnused vs) c = kind := by
  rw [headers_lines, List.mem_map]
  constructor
  · rintro ⟨d, hd, he⟩
    cases he
    exact ⟨(mem_keys_groups_iff _ _).1 hd, rfl⟩
  · rintro ⟨hc, rfl⟩
    exact ⟨c, (mem_keys_groups_iff _ _).2 hc, rfl⟩

theorem header_of_first {showUnused : Bool} {v : MemberVerdict}
    (hv : (showUnused || v.isUsed) = true) (vs : List MemberVerdict) :
    (v.kind, v.className) ∈ headers (lines showUnused (v :: vs)) := by
  have hshown : shown showUnused (v :: vs) = v :: shown showUnused vs :=
    List.filter_cons_of_pos hv
  rw [mem_headers_iff, hshown]
  exact ⟨⟨v, List.mem_cons_self, rfl⟩, kindOf_cons v _⟩

theorem headers_eq_of_kinds {showUnused : Bool} {vs ws : List MemberVerdict} (h : vs.Perm ws)
    (hk : ∀ v ∈ shown showUnused vs, ∀ w ∈ shown showUnused vs,
      v.className = w.className → v.kind = w.kind) :
    headers (lines showUnused vs) = headers (lines showUnused ws) := by
  have hs : (shown showUnused vs).Perm (shown showUnused ws) := h.filter _
  rw [headers_lines, headers_lines, keys_groups_perm hs]
  refine List.map_congr_left fun c hc => congrArg (·, c) ?_
  have hw := (mem_keys_groups_iff _ c).1 hc
  have hv : ∃ v ∈ shown showUnused vs, v.className = c := by simpa only [hs.mem_iff] using hw
  obtain ⟨v, hv, hvc, hvk⟩ := exists_kindOf hv
  obtain ⟨w, hw, hwc, hwk⟩ := exists_kindOf hw
  rw [hvk, hwk]
  exact hk v hv w (hs.mem_iff.2 hw) (hvc.trans hwc.symm)

end TerminalReport

namespace Registry
open TerminalReport
variable (r : Registry) {ix : Index}

/-! ### Kinds of findings -/

theorem coherent_analyzeCandidate (ix : Index) (f : Candidate) :
    (r.analyzeCandidate ix f).Coherent := by
  rw [analyzeCandidate]
  cases ix.member? f.className f.method with
  | some m => exact MemberVerdict.coherent_ofMember _ _
  | none => exact MemberVerdict.coherent_unresolved f

theorem owner_of_resolved (h : ix.Aligned) {f : Candidate}
    (hf : (r.analyzeCandidate ix f).resolved = true) :
    ∃ d ∈ ix.classes, d.name.declared = (r.analyzeCandidate ix f).className ∧
      (r.analyzeCandidate ix f).kind = some d.kind := by
  rw [analyzeCandidate] at hf ⊢
  cases hm : ix.member? f.className f.method with
  | some m => exact ⟨m.owner, ((h.member?_eq_some_iff _ _ m).1 hm).1, rfl, rfl⟩
  | none =>
    rw [hm] at hf
    cases hf

theorem kind_eq_iff (h : ix.Aligned) {f g : Candidate}
    (hc : (r.analyzeCandidate ix f).className = (r.analyzeCandidate ix g).className) :
    (r.analyzeCandidate ix f).kind = (r.analyzeCandidate ix g).kind ↔
      (r.analyzeCandidate ix f).resolved = (r.analyzeCandidate ix g).resolved := by
  have hfk := (r.coherent_analyzeCandidate ix f).kind
  have hgk := (r.coherent_analyzeCandidate ix g).kind
  constructor
  · intro hk
    rw [← hfk, ← hgk, hk]
  · intro hr
    cases hf : (r.analyzeCandidate ix f).resolved with
    | false =>
      rw [hf, Option.isSome_eq_false_iff, Option.isNone_iff_eq_none] at hfk
      rw [← hr, hf, Option.isSome_eq_false_iff, Option.isNone_iff_eq_none] at hgk
      rw [hfk, hgk]
    | true =>
      obtain ⟨d, hd, hdc, hdk⟩ := r.owner_of_resolved h hf
      obtain ⟨e, he, hec, hek⟩ := r.owner_of_resolved h (hr ▸ hf)
      have hname : d.name = e.name := ClassName.ext (hdc.trans (hc.trans hec.symm))
      have hd' := (h.held?_eq_some_iff d.name.key d).2 ⟨hd, rfl⟩
      have he' := (h.held?_eq_some_iff d.name.key e).2 ⟨he, by rw [hname]⟩
      rw [hdk, hek, Option.some.inj (hd'.symm.trans he')]

/-! ### Headers of an analysis -/

def report (ix : Index) (showUnused : Bool) (fs : List Candidate) : List Line :=
  lines showUnused (r.analyzeCandidates ix fs)

theorem exists_of_mem_shown {showUnused : Bool} {fs : List Candidate} {v : MemberVerdict}
    (hv : v ∈ shown showUnused (r.analyzeCandidates ix fs)) :
    ∃ f ∈ fs, r.analyzeCandidate ix f = v ∧ (showUnused || v.isUsed) = true := by
  obtain ⟨hv, hshown⟩ := List.mem_filter.1 hv
  obtain ⟨f, hf, rfl⟩ := List.mem_map.1 hv
  exact ⟨f, hf, rfl, hshown⟩

theorem kinds_of_uniform (h : ix.Aligned) {showUnused : Bool} {fs : List Candidate}
    (hu : Uniform (shown showUnused (r.analyzeCandidates ix fs))) :
    ∀ v ∈ shown showUnused (r.analyzeCandidates ix fs),
      ∀ w ∈ shown showUnused (r.analyzeCandidates ix fs), v.className = w.className →
        v.kind = w.kind := by
  intro v hv w hw hc
  have hr := hu v hv w hw hc
  obtain ⟨f, -, rfl, -⟩ := r.exists_of_mem_shown hv
  obtain ⟨g, -, rfl, -⟩ := r.exists_of_mem_shown hw
  exact (r.kind_eq_iff h hc).2 hr

theorem uniform_of_headers (h : ix.Aligned) {showUnused : Bool} {fs : List Candidate}
    (hh : ∀ gs, fs.Perm gs → headers (r.report ix showUnused gs) =
      headers (r.report ix showUnused fs)) :
    Uniform (shown showUnused (r.analyzeCandidates ix fs)) := by
  intro v hv w hw hc
  obtain ⟨f, hf, rfl, hfs⟩ := r.exists_of_mem_shown hv
  obtain ⟨g, hg, rfl, hgs⟩ := r.exists_of_mem_shown hw
  -- each of the two may come first
  have hfirst {f : Candidate} (hf : f ∈ fs) (hs : (showUnused ||
      (r.analyzeCandidate ix f).isUsed) = true) :
      ((r.analyzeCandidate ix f).kind, (r.analyzeCandidate ix f).className) ∈
        headers (r.report ix showUnused fs) :=
    hh _ (List.perm_cons_erase hf) ▸ header_of_first hs _
  have hfk := ((mem_headers_iff _ _ _ _).1 (hfirst hf hfs)).2
  have hgk := ((mem_headers_iff _ _ _ _).1 (hfirst hg hgs)).2
  rw [← hc] at hgk
  exact (r.kind_eq_iff h hc).1 (hfk.symm.trans hgk)

theorem uniform_shown_false (fs : List Candidate) :
    Uniform (shown false (r.analyzeCandidates ix fs)) := by
  have hresolved {v : MemberVerdict} (hv : v ∈ shown false (r.analyzeCandidates ix fs)) :
      v.resolved = true := by
    obtain ⟨f, -, rfl, hused⟩ := r.exists_of_mem_shown hv
    exact (r.coherent_analyzeCandidate ix f).used hused
  intro v hv w hw _
  rw [hresolved hv, hresolved hw]

/-- Whatever the order of the findings is, a report has the same summary and the same class
names in its headers, and a kind in a header is that of the class. The headers are the same
in every order exactly if under each name all shown findings are known or none is, so always
where only used members are shown. -/
theorem headers_fixed_iff_uniform {ds : List Descriptor} (h : Index.Filled ix ds)
    (showUnused : Bool) (fs : List Candidate) :
    (∀ gs, fs.Perm gs →
      summaryPart (r.report ix showUnused gs) = summaryPart (r.report ix showUnused fs) ∧
      (headers (r.report ix showUnused gs)).map (·.2) =
        (headers (r.report ix showUnused fs)).map (·.2)) ∧
    (∀ kind c, (some kind, c) ∈ headers (r.report ix showUnused fs) →
      ∃ d ∈ ix.classes, d.name.declared = c ∧ d.kind = kind) ∧
    ((∀ gs, fs.Perm gs →
        headers (r.report ix showUnused gs) = headers (r.report ix showUnused fs)) ↔
      Uniform (shown showUnused (r.analyzeCandidates ix fs))) ∧
    Uniform (shown false (r.analyzeCandidates ix fs)) := by
  have hix := h.holds.aligned
  have hperm {gs : List Candidate} (hp : fs.Perm gs) :
      (r.analyzeCandidates ix gs).Perm (r.analyzeCandidates ix fs) := hp.symm.map _
  refine ⟨fun gs hp => ⟨summaryPart_perm _ (hperm hp), names_perm _ (hperm hp)⟩,
    fun kind c hk => ?kinds, ⟨r.uniform_of_headers hix, fun hu gs hp => ?fixed⟩,
    r.uniform_shown_false fs⟩
  case kinds =>
    obtain ⟨hc, hkind⟩ := (mem_headers_iff _ _ _ _).1 hk
    obtain ⟨v, hv, rfl, hvk⟩ := exists_kindOf hc
    obtain ⟨f, -, rfl, -⟩ := r.exists_of_mem_shown hv
    have hsome : (r.analyzeCandidate ix f).kind = some kind := hvk.symm.trans hkind
    have hr : (r.analyzeCandidate ix f).resolved = true := by
      rw [← (r.coherent_analyzeCandidate ix f).kind, hsome]
      rfl
    obtain ⟨d, hd, hdc, hdk⟩ := r.owner_of_resolved hix hr
    exact ⟨d, hd, hdc, Option.some.inj (hdk.symm.trans hsome)⟩
  case fixed =>
    exact (headers_eq_of_kinds (hperm hp).symm (r.kinds_of_uniform hix hu)).symm

/-- A finding that is not known, and one of the same class that is. -/
def drained : List Candidate := [⟨"App\\Outbox", "drain"⟩, ⟨"App\\Outbox", "flush"⟩]

theorem drained_settled :
    Index.Filled (.ofClasses [outbox]) [outbox] ∧ drained.Perm drained.reverse ∧
    summaryPart (constructors.report (.ofClasses [outbox]) true drained.reverse) =
      summaryPart (constructors.report (.ofClasses [outbox]) true drained) ∧
    (some .class, "App\\Outbox") ∈
      headers (constructors.report (.ofClasses [outbox]) true drained.reverse) ∧
    (∃ d ∈ (Index.ofClasses [outbox]).classes, d.name.declared = "App\\Outbox" ∧
      d.kind = .class) ∧
    headers (constructors.report (.ofClasses [outbox]) false drained.reverse) =
      headers (constructors.report (.ofClasses [outbox]) false drained) := by
  have hf := Index.Filled.collected [outbox]
  have hp : drained.Perm drained.reverse := (List.reverse_perm _).symm
  have hkind : (some .class, "App\\Outbox") ∈
      headers (constructors.report (.ofClasses [outbox]) true drained.reverse) := by decide
  have hsame := (headers_fixed_iff_uniform constructors hf true drained).1 _ hp
  obtain ⟨-, hkinds, -, -⟩ := headers_fixed_iff_uniform constructors hf true drained.reverse
  obtain ⟨-, -, hfixed, huniform⟩ := headers_fixed_iff_uniform constructors hf false drained
  exact ⟨hf, hp, hsame.1, hkind, hkinds _ _ hkind, hfixed.2 huniform _ hp⟩

/-- The known finding brings the kind into the header only where it comes first. -/
theorem headers_follow_first :
    Index.Filled (.ofClasses [outbox]) [outbox] ∧ drained.Perm drained.reverse ∧
    headers (constructors.report (.ofClasses [outbox]) true drained) =
      [(none, "App\\Outbox")] ∧
    headers (constructors.report (.ofClasses [outbox]) true drained.reverse) =
      [(some .class, "App\\Outbox")] ∧
    ¬ ∀ (r : Registry) (ix : Index) (ds : List Descriptor), Index.Filled ix ds →
      ∀ showUnused fs gs, fs.Perm gs →
        headers (r.report ix showUnused gs) = headers (r.report ix showUnused fs) := by
  have hf := Index.Filled.collected [outbox]
  have hp : drained.Perm drained.reverse := (List.reverse_perm _).symm
  have hunknown : headers (constructors.report (.ofClasses [outbox]) true drained) =
      [(none, "App\\Outbox")] := by decide
  have hknown : headers (constructors.report (.ofClasses [outbox]) true drained.reverse) =
      [(some .class, "App\\Outbox")] := by decide
  refine ⟨hf, hp, hunknown, hknown, fun h => ?_⟩
  have hsame := h constructors _ _ hf true _ _ hp
  rw [hunknown, hknown] at hsame
  cases hsame

end Registry
end Reprieve
