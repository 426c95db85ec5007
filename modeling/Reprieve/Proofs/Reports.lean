import Reprieve.Proofs.Tallies
import Reprieve.Report.Terminal

/-! Reports beside their own summaries. The list of a report goes by the verdict alone, its
ticks ask for a provider and a rule as well, and the summary for a rule. So the figures
differ by the verdicts that are used and name no rule or no provider, and by no others. -/
namespace Reprieve

namespace MemberVerdict

/-- Used by nothing that has a name. -/
def lacksRule (v : MemberVerdict) : Bool := v.isUsed && v.verdict.rule.isNone

/-- Used by a rule of nobody. -/
def lacksProvider (v : MemberVerdict) : Bool :=
  v.isUsed && v.verdict.rule.isSome && v.verdict.provider.isNone

def isAttributed (v : MemberVerdict) : Bool :=
  v.isUsed && v.verdict.rule.isSome && v.verdict.provider.isSome

theorem rule?_isSome (v : MemberVerdict) :
    v.rule?.isSome = (v.isUsed && v.verdict.rule.isSome) := by
  cases h : v.verdict.used <;> simp [rule?, isUsed, h]

theorem countP_isUsed (vs : List MemberVerdict) :
    vs.countP (·.isUsed) = vs.countP (·.rule?.isSome) + vs.countP (·.lacksRule) := by
  induction vs with
  | nil => rfl
  | cons v vs ih =>
    simp only [List.countP_cons, rule?_isSome, lacksRule] at ih ⊢
    cases v.isUsed <;> cases v.verdict.rule <;> simp <;> omega

theorem countP_isAttributed (vs : List MemberVerdict) :
    vs.countP (·.isAttributed) + vs.countP (·.lacksProvider) = vs.countP (·.rule?.isSome) := by
  induction vs with
  | nil => rfl
  | cons v vs ih =>
    simp only [List.countP_cons, rule?_isSome, isAttributed, lacksProvider] at ih ⊢
    cases v.isUsed <;> cases v.verdict.rule <;> cases v.verdict.provider <;> simp <;> omega

theorem countP_rule?_isNone (vs : List MemberVerdict) :
    vs.length = vs.countP (·.rule?.isSome) + vs.countP (·.rule?.isNone) := by
  rw [List.length_eq_countP_add_countP (·.rule?.isSome)]
  refine congrArg _ (List.countP_congr fun v _ => ?_)
  cases v.rule? <;> simp

end MemberVerdict

/-- A property of used members alone counts the same where the others are hidden. -/
theorem countP_shown {q : MemberVerdict → Bool} (h : ∀ v, q v = true → v.isUsed = true)
    (showUnused : Bool) (vs : List MemberVerdict) :
    (shown showUnused vs).countP q = vs.countP q := by
  rw [shown, List.countP_filter]
  refine List.countP_congr fun v _ => ?_
  cases hq : q v with
  | false => simp
  | true => simp [h v hq]

/-! ### The report for programs -/

namespace Datum

def isOn (key : String) (d : Datum) : Bool :=
  match d.get? key with
  | some (.bool b) => b
  | _ => false

end Datum

namespace JsonReport

/-- The listed members, those of them that are marked as used, and the figures. -/
structure Figures where
  listed : Nat
  marked : Nat
  total : Int
  used : Int
  unused : Int

/-- The figures as a reader of the report finds them by their keys. -/
def figures? (report : Datum) : Option Figures := do
  let .list members ← report.get? "members" | none
  let .int total ← report.get? "total_members" | none
  let summary ← report.get? "summary"
  let .int used ← summary.get? "used" | none
  let .int unused ← summary.get? "unused" | none
  return ⟨members.length, members.countP (·.isOn "used"), total, used, unused⟩

theorem isOn_member (v : MemberVerdict) : (member v).isOn "used" = v.isUsed := by
  simp +decide [Datum.isOn, Datum.get?, member, Datum.fields]

theorem figures?_toDatum (showUnused : Bool) (vs : List MemberVerdict) :
    figures? (toDatum showUnused vs) = some
      { listed := (shown showUnused vs).length
        marked := vs.countP (·.isUsed)
        total := vs.length
        used := vs.countP (·.rule?.isSome)
        unused := vs.countP (·.rule?.isNone) } := by
  have hof := Summary.of_ofVerdicts vs
  have hmarked : ((shown showUnused vs).map member).countP (·.isOn "used") =
      vs.countP (·.isUsed) := by
    rw [List.countP_map, ← countP_shown (fun _ h => h) showUnused vs]
    exact List.countP_congr fun v _ => by rw [Function.comp_apply, isOn_member]
  simp +decide [figures?, toDatum, Datum.get?, Datum.fields, Summary.toDatum, hof.used,
    hof.unused, hmarked]

theorem length_shown_false (vs : List MemberVerdict) :
    (shown false vs).length = vs.countP (·.isUsed) := by
  simp [shown, List.countP_eq_length_filter]

end JsonReport

/-! ### The report for people -/

namespace Line

def isTicked (l : Line) : Bool := l.spans.contains (.boldGreen "✓")

def used? : Line → Option Nat
  | .counts _ used _ => some used
  | _ => none

theorem isTicked_item (v : MemberVerdict) : (item v).isTicked = v.isAttributed := by
  simp only [isTicked, spans, MemberVerdict.mark, MemberVerdict.isAttributed]
  cases v.isUsed <;> cases v.verdict.provider <;> cases v.verdict.rule <;> cases v.resolved <;>
    simp [Span.boldGreen, Span.yellow, Span.red, Span.dimmed, Span.white]

theorem isTicked_of_not_item {l : Line} (h : ∀ v, l ≠ .item v) : l.isTicked = false := by
  cases l with
  | item v => exact absurd rfl (h v)
  | header kind className =>
    cases kind <;> simp [isTicked, spans, Span.boldGreen, Span.boldCyan, Span.dimmed]
  | empty => rfl
  | ruler => simp [isTicked, spans, Span.boldGreen, Span.dimmed]
  | counts total used unused => simp [isTicked, spans, Span.boldGreen, Span.green, Span.red]
  | unresolved n => simp [isTicked, spans, Span.boldGreen, Span.yellow]
  | ruleTitle => simp [isTicked, spans, Span.boldGreen, Span.dimmed]
  | ruleCount rule n => simp [isTicked, spans, Span.boldGreen, Span.green]
  | nothing => simp [isTicked, spans, Span.boldGreen]

end Line

namespace TerminalReport

/-! Members are regrouped by class, and none is lost. -/

def grouped (m : SortedMap String (List MemberVerdict)) : List MemberVerdict :=
  m.entries.flatMap (·.2)

theorem grouped_insert_perm (m : SortedMap String (List MemberVerdict)) (v : MemberVerdict) :
    (grouped (m.insert v.className ((m.get? v.className).getD [] ++ [v]))).Perm
      (grouped m ++ [v]) := by
  simp only [grouped, SortedMap.insert]
  cases hm : m.get? v.className with
  | none =>
    have hp := (SortedMap.place_perm (v := [v]) hm).flatMap_right (·.2)
    have hmoved : ([v] ++ m.entries.flatMap (·.2)).Perm (m.entries.flatMap (·.2) ++ [v]) :=
      List.perm_append_comm
    exact hp.trans hmoved
  | some ws =>
    obtain ⟨l, r, hes, hpl⟩ := SortedMap.place_of_lookup (ws ++ [v]) m.ascending hm
    rw [Option.getD_some, hpl, hes]
    simp only [List.flatMap_append, List.flatMap_cons, List.append_assoc]
    exact ((List.perm_append_comm.append_left _).append_left _)

theorem grouped_foldl_perm (vs : List MemberVerdict) :
    ∀ m : SortedMap String (List MemberVerdict),
      (grouped (vs.foldl (fun m v =>
        m.insert v.className ((m.get? v.className).getD [] ++ [v])) m)).Perm (grouped m ++ vs) := by
  induction vs with
  | nil => simp
  | cons v vs ih =>
    intro m
    have hstep := (grouped_insert_perm m v).append_right vs
    rw [List.append_assoc, List.singleton_append] at hstep
    exact (ih _).trans hstep

theorem grouped_groups_perm (vs : List MemberVerdict) : (grouped (groups vs)).Perm vs :=
  grouped_foldl_perm vs {}

def blocks (m : SortedMap String (List MemberVerdict)) : List Line :=
  m.entries.flatMap fun g => block g.1 g.2

theorem countP_isTicked_block (className : String) (vs : List MemberVerdict) :
    (block className vs).countP Line.isTicked = vs.countP (·.isAttributed) := by
  have hitems : (vs.map Line.item).countP Line.isTicked = vs.countP (·.isAttributed) := by
    rw [List.countP_map]
    exact List.countP_congr fun v _ => by rw [Function.comp_apply, Line.isTicked_item]
  have hheader := Line.isTicked_of_not_item (l := .header (vs.head?.bind (·.kind)) className) nofun
  have hempty : Line.empty.isTicked = false := rfl
  simp [block, hitems, hheader, hempty]

theorem countP_isTicked_blocks (vs : List MemberVerdict) :
    (blocks (groups vs)).countP Line.isTicked = vs.countP (·.isAttributed) := by
  rw [← (grouped_groups_perm vs).countP_eq]
  simp only [blocks, grouped, List.countP_flatMap, Function.comp_def, countP_isTicked_block]

theorem figure_of_mem_summaryLines {s : Summary} {l : Line} (h : l ∈ summaryLines s) :
    (∀ v, l ≠ .item v) ∧ ∀ kind c, l ≠ .header kind c := by
  rw [summaryLines] at h
  constructor
  · rintro v rfl
    split at h <;> split at h <;> simp at h
  · rintro kind c rfl
    split at h <;> split at h <;> simp at h

theorem countP_isTicked_summaryLines (s : Summary) :
    (summaryLines s).countP Line.isTicked = 0 := by
  rw [List.countP_eq_zero]
  intro l hl
  simp [Line.isTicked_of_not_item (figure_of_mem_summaryLines hl).1]

theorem body_of_mem_blocks {m : SortedMap String (List MemberVerdict)} {l : Line}
    (h : l ∈ blocks m) : l = .empty ∨ (∃ v, l = .item v) ∨ ∃ kind c, l = .header kind c := by
  obtain ⟨g, -, hl⟩ := List.mem_flatMap.1 h
  simp only [block, List.mem_cons, List.mem_append, List.mem_map, List.not_mem_nil,
    or_false] at hl
  obtain rfl | ⟨v, -, rfl⟩ | rfl := hl
  · exact .inr (.inr ⟨_, _, rfl⟩)
  · exact .inr (.inl ⟨v, rfl⟩)
  · exact .inl rfl

theorem used?_blocks (m : SortedMap String (List MemberVerdict)) :
    (blocks m).filterMap Line.used? = [] := by
  rw [List.filterMap_eq_nil_iff]
  intro l hl
  obtain rfl | ⟨v, rfl⟩ | ⟨kind, c, rfl⟩ := body_of_mem_blocks hl <;> rfl

theorem used?_summaryLines (s : Summary) : (summaryLines s).filterMap Line.used? = [s.used] := by
  have hunresolved : (if 0 < s.unresolved then [Line.unresolved s.unresolved] else []).filterMap
      Line.used? = [] := by
    split <;> rfl
  have hrules : (if s.byRule.isEmpty then [] else
      Line.empty :: .ruleTitle :: s.byRule.entries.map fun e => .ruleCount e.1 e.2).filterMap
      Line.used? = [] := by
    split
    · rfl
    · refine List.filterMap_eq_nil_iff.2 fun l hl => ?_
      obtain rfl | rfl | hl := by simpa only [List.mem_cons] using hl
      · rfl
      · rfl
      · obtain ⟨e, -, rfl⟩ := List.mem_map.1 hl
        rfl
  rw [summaryLines, List.filterMap_append, List.filterMap_append, List.filterMap_append,
    hunresolved, hrules]
  rfl

theorem lines_of_ne_nil (showUnused : Bool) {vs : List MemberVerdict} (h : vs ≠ []) :
    lines showUnused vs = .empty :: blocks (groups (shown showUnused vs)) ++
      summaryLines (Summary.ofVerdicts vs) := by
  rw [lines, if_neg (by simpa using h), blocks]

theorem countP_isTicked_lines (showUnused : Bool) (vs : List MemberVerdict) :
    (lines showUnused vs).countP Line.isTicked = vs.countP (·.isAttributed) := by
  by_cases h : vs = []
  · subst h
    have hnothing := Line.isTicked_of_not_item (l := .nothing) nofun
    simp [lines, hnothing]
  · have hshown : (shown showUnused vs).countP (·.isAttributed) = vs.countP (·.isAttributed) := by
      refine countP_shown (fun v hv => ?_) showUnused vs
      simp only [MemberVerdict.isAttributed, Bool.and_eq_true] at hv
      exact hv.1.1
    have hempty : Line.empty.isTicked = false := rfl
    rw [lines_of_ne_nil showUnused h, List.cons_append,
      List.countP_cons_of_neg (by simp [hempty]), List.countP_append, countP_isTicked_blocks,
      countP_isTicked_summaryLines, hshown, Nat.add_zero]

theorem used?_lines (showUnused : Bool) {vs : List MemberVerdict} (h : vs ≠ []) :
    (lines showUnused vs).filterMap Line.used? = [vs.countP (·.rule?.isSome)] := by
  rw [lines_of_ne_nil showUnused h, List.cons_append, List.filterMap_cons_none rfl,
    List.filterMap_append, used?_blocks, used?_summaryLines, (Summary.of_ofVerdicts vs).used,
    List.nil_append]

end TerminalReport

/-! ### Beside the summary -/

theorem figures_of_json (showUnused : Bool) (vs : List MemberVerdict) :
    ∃ f, JsonReport.figures? (JsonReport.toDatum showUnused vs) = some f ∧
      f.marked = f.used + vs.countP (·.lacksRule) ∧
      (showUnused = false → f.listed = f.used + vs.countP (·.lacksRule)) ∧
      f.total - f.used = f.unused := by
  have hused := MemberVerdict.countP_isUsed vs
  have htotal := MemberVerdict.countP_rule?_isNone vs
  refine ⟨_, JsonReport.figures?_toDatum showUnused vs, ?marked, ?listed, ?total⟩
  case marked =>
    simp only
    omega
  case listed =>
    intro hs
    subst hs
    simp only [JsonReport.length_shown_false]
    omega
  case total =>
    simp only
    omega

theorem ticks_of_terminal (showUnused : Bool) (vs : List MemberVerdict) :
    ∀ n ∈ (TerminalReport.lines showUnused vs).filterMap Line.used?,
      (TerminalReport.lines showUnused vs).countP Line.isTicked +
        vs.countP (·.lacksProvider) = n := by
  intro n hn
  by_cases h : vs = []
  · subst h
    cases hn
  · rw [TerminalReport.used?_lines showUnused h] at hn
    rw [TerminalReport.countP_isTicked_lines, MemberVerdict.countP_isAttributed,
      List.mem_singleton.1 hn]

/-- A report for programs and one for people that agree with the figures that they give. -/
structure ReportsAgree (showUnused : Bool) (vs : List MemberVerdict) : Prop where
  json : ∃ f, JsonReport.figures? (JsonReport.toDatum showUnused vs) = some f ∧
    f.marked = f.used ∧ (showUnused = false → f.listed = f.used) ∧ f.total - f.used = f.unused
  terminal : ∀ n ∈ (TerminalReport.lines showUnused vs).filterMap Line.used?,
    (TerminalReport.lines showUnused vs).countP Line.isTicked = n

theorem reportsAgree_iff_countP (showUnused : Bool) (vs : List MemberVerdict) :
    ReportsAgree showUnused vs ↔
      vs.countP (·.lacksRule) = 0 ∧ vs.countP (·.lacksProvider) = 0 := by
  obtain ⟨f, hf, hmarked, hlisted, htotal⟩ := figures_of_json showUnused vs
  have hticks := ticks_of_terminal showUnused vs
  constructor
  · intro h
    obtain ⟨g, hg, hm, -, -⟩ := h.json
    obtain rfl : f = g := Option.some.inj (hf.symm.trans hg)
    refine ⟨by omega, ?_⟩
    by_cases hvs : vs = []
    · subst hvs
      rfl
    · have hn : vs.countP (·.rule?.isSome) ∈
          (TerminalReport.lines showUnused vs).filterMap Line.used? := by
        rw [TerminalReport.used?_lines showUnused hvs]
        exact List.mem_singleton_self _
      have hadd := hticks _ hn
      have heq := h.terminal _ hn
      omega
  · intro h
    refine ⟨⟨f, hf, by omega, fun hs => ?_, htotal⟩, fun n hn => ?_⟩
    · have hl := hlisted hs
      omega
    · have hadd := hticks n hn
      omega

/-- Reports agree with their summaries exactly if every verdict that is used names a rule and
a provider. Otherwise the report for programs marks and lists as many members more than it
counts as there are verdicts without a rule, and the report for people ticks as many less
than it counts as there are with a rule but no provider. Used and unused always make up the
total. -/
theorem reports_agree_iff_named (showUnused : Bool) (vs : List MemberVerdict) :
    (ReportsAgree showUnused vs ↔ ∀ v ∈ vs, v.isUsed = true →
      v.verdict.rule.isSome = true ∧ v.verdict.provider.isSome = true) ∧
    (∃ f, JsonReport.figures? (JsonReport.toDatum showUnused vs) = some f ∧
      f.marked = f.used + vs.countP (·.lacksRule) ∧
      (showUnused = false → f.listed = f.used + vs.countP (·.lacksRule)) ∧
      f.total - f.used = f.unused) ∧
    ∀ n ∈ (TerminalReport.lines showUnused vs).filterMap Line.used?,
      (TerminalReport.lines showUnused vs).countP Line.isTicked +
        vs.countP (·.lacksProvider) = n := by
  refine ⟨?agree, figures_of_json showUnused vs, ticks_of_terminal showUnused vs⟩
  rw [reportsAgree_iff_countP, List.countP_eq_zero, List.countP_eq_zero, ← forall₂_and]
  refine forall₂_congr fun v _ => ?_
  simp only [MemberVerdict.lacksRule, MemberVerdict.lacksProvider]
  cases v.isUsed <;> cases v.verdict.rule <;> cases v.verdict.provider <;> simp

def ruleless : MemberVerdict :=
  ⟨"App\\Mailer", some .class, "handle", false, true, ⟨true, some "messenger", none⟩⟩

def ownerless : MemberVerdict :=
  ⟨"App\\Mailer", some .class, "handle", false, true, ⟨true, none, some "handler-name"⟩⟩

/-- One member is listed as used and none is counted, or one is counted and none ticked. -/
theorem reports_disagree :
    (∃ f, JsonReport.figures? (JsonReport.toDatum false [ruleless]) = some f ∧
      f.listed = 1 ∧ f.marked = 1 ∧ f.used = 0) ∧
    (TerminalReport.lines true [ownerless]).filterMap Line.used? = [1] ∧
    (TerminalReport.lines true [ownerless]).countP Line.isTicked = 0 ∧
    ¬ ReportsAgree false [ruleless] ∧ ¬ ReportsAgree true [ownerless] := by
  refine ⟨⟨_, JsonReport.figures?_toDatum false [ruleless], rfl, rfl, rfl⟩, ?counted, ?ticked,
    ?json, ?terminal⟩
  case counted => exact TerminalReport.used?_lines true (List.cons_ne_nil _ _)
  case ticked => exact TerminalReport.countP_isTicked_lines true [ownerless]
  case json =>
    intro h
    cases ((reportsAgree_iff_countP false [ruleless]).1 h).1
  case terminal =>
    intro h
    cases ((reportsAgree_iff_countP true [ownerless]).1 h).2

end Reprieve
