import Reprieve.CommandLine.Run
import Reprieve.Proofs.Files

/-! What a run leaves behind. Without success it prints nothing and the files are as they
were. With success the report is printed, or it is in the file that was named for it, and
no other file differs. -/
namespace Reprieve

/-- Where a report goes: a report for programs into the file that is named for it, if
there is one, and every other report to the reader. -/
inductive Delivered (t : FileTree) (color showUnused : Bool) (vs : List MemberVerdict) :
    ReportFormat → Option String → Delivery → Prop where
  | terminal (output : Option String) :
    Delivered t color showUnused vs .terminal output ⟨TerminalReport.render color showUnused vs, t⟩
  | json : Delivered t color showUnused vs .json none ⟨JsonReport.render showUnused vs ++ "\n", t⟩
  | file {p : String} {place : List String} {t' : FileTree}
    (written : t.WrittenAt t' p (JsonReport.render showUnused vs) place) :
    Delivered t color showUnused vs .json (some p) ⟨s!"Report written to: {p}\n", t'⟩

theorem Delivered.of_ofVerdicts {t : FileTree} {format : ReportFormat} {output : Option String}
    {color showUnused : Bool} {vs : List MemberVerdict} {d : Delivery}
    (h : Delivery.ofVerdicts t format output color showUnused vs = .ok d) :
    Delivered t color showUnused vs format output d := by
  cases format with
  | terminal =>
    cases h
    exact .terminal output
  | json =>
    cases output with
    | none =>
      cases h
      exact .json
    | some p =>
      obtain ⟨t', hw, rfl⟩ := Except.map_eq_ok_iff.1 h
      obtain ⟨place, hp⟩ := FileTree.writtenAt_of_write hw
      exact .file hp

namespace CommandLine

namespace Options

theorem plan_eq_ok_iff (o : Options) (t : FileTree) (p : Plan) :
    o.plan t = .ok p ↔ o.settings t = .ok p.settings ∧
      Snapshot.loadIndex t o.metadata = .ok p.index ∧
      ∃ caps installed, p.settings.capabilities p.index.runtimeVersion = .ok caps ∧
        Packages.ofVendor t (p.settings.vendorPath o.root) = .ok installed ∧
        p.registry = Doctrine.registry p.settings.doctrine caps installed := by
  simp only [plan, Except.bind_eq_ok_iff, Except.mapError_eq_ok_iff]
  constructor
  · rintro ⟨settings, hs, ix, hix, caps, hc, installed, hi, h⟩
    cases h
    exact ⟨hs, hix, caps, installed, hc, hi, rfl⟩
  · rintro ⟨hs, hix, caps, installed, hc, hi, hr⟩
    exact ⟨_, hs, _, hix, caps, hc, installed, hi, by rw [← hr]; rfl⟩

theorem deliver_eq_ok_iff (o : Options) (t : FileTree) (color : Bool) (p : Plan) (d : Delivery) :
    o.deliver t color p = .ok d ↔ ∃ cs format, o.findings t = .ok cs ∧
      ReportFormat.ofName? p.settings.reportFormat = some format ∧
      Delivery.ofVerdicts t format o.output color p.settings.showUnused
        (p.registry.analyze p.index cs) = .ok d := by
  simp only [deliver, Except.bind_eq_ok_iff]
  refine exists_congr fun cs => ?_
  cases ReportFormat.ofName? p.settings.reportFormat with
  | none => exact ⟨fun h => absurd h.2 nofun, fun ⟨_, _, h, _⟩ => absurd h nofun⟩
  | some format => simp [Except.mapError_eq_ok_iff]

end Options

/-- A run that goes through: from the words come options, and each step after them gives
what the next one needs, up to the report. -/
structure Course (color : Bool) (t : FileTree) (words : List String) (o : Options) (p : Plan)
    (cs : Option (List Candidate)) (format : ReportFormat) (d : Delivery) : Prop where
  options : Options.ofWords words = .ok o
  settings : o.settings t = .ok p.settings
  index : Snapshot.loadIndex t o.metadata = .ok p.index
  registry : ∃ caps installed, p.settings.capabilities p.index.runtimeVersion = .ok caps ∧
    Packages.ofVendor t (p.settings.vendorPath o.root) = .ok installed ∧
    p.registry = Doctrine.registry p.settings.doctrine caps installed
  findings : o.findings t = .ok cs
  known : ReportFormat.ofName? p.settings.reportFormat = some format
  delivery : Delivery.ofVerdicts t format o.output color p.settings.showUnused
    (p.registry.analyze p.index cs) = .ok d

theorem Course.run_eq {color : Bool} {t : FileTree} {words : List String} {o : Options} {p : Plan}
    {cs : Option (List Candidate)} {format : ReportFormat} {d : Delivery}
    (h : Course color t words o p cs format d) : run color t words =
      { ending := .done, printed := d.printed, warned := o.warns p, files := d.files } := by
  have hp := (o.plan_eq_ok_iff t p).2 ⟨h.settings, h.index, h.registry⟩
  have hd := (o.deliver_eq_ok_iff t color p d).2 ⟨cs, format, h.findings, h.known, h.delivery⟩
  simp only [run, h.options, runOptions, hp, hd]

/-- Of all the places where a run can stop none has printed or written anything. -/
theorem run_stops_or_goes_through (color : Bool) (t : FileTree) {words : List String}
    (hv : Options.ofWords words ≠ .error .version) (hh : Options.ofWords words ≠ .error .help) :
    ((run color t words).ending ≠ .done ∧ (run color t words).printed = "" ∧
        (run color t words).files = t) ∨
      ∃ o p cs format d, Course color t words o p cs format d := by
  simp only [run]
  cases ho : Options.ofWords words with
  | error stop =>
    cases stop with
    | version => exact absurd ho hv
    | help => exact absurd ho hh
    | usage f => exact .inl ⟨nofun, rfl, rfl⟩
  | ok o =>
    simp only [runOptions]
    cases hp : o.plan t with
    | error f => exact .inl ⟨nofun, rfl, rfl⟩
    | ok p =>
      simp only
      cases hd : o.deliver t color p with
      | error f => exact .inl ⟨nofun, rfl, rfl⟩
      | ok d =>
        obtain ⟨hs, hix, hr⟩ := (o.plan_eq_ok_iff t p).1 hp
        obtain ⟨cs, format, hcs, hf, hd⟩ := (o.deliver_eq_ok_iff t color p d).1 hd
        exact .inr ⟨o, p, cs, format, d, ho, hs, hix, hr, hcs, hf, hd⟩

theorem Ending.exitCode_eq_zero_iff (e : Ending) : e.exitCode = 0 ↔ e = .done := by
  cases e <;> simp [exitCode]

/-! ### A run over an empty snapshot -/

def bare : FileTree := { entries := [(["m.json"], .text "{}")] }

def bareWords : List String := ["-m", "m.json", "-f", "json", "-o", "r.json"]

def bareOptions : Options :=
  { metadata := "m.json", format := some .json, output := some "r.json" }

def barePlan : Plan :=
  { settings := { reportFormat := "json" }
    index := {}
    registry := Doctrine.registry none .modern {} }

theorem bare_locate_output : bare.locate "r.json" = .ok ["r.json"] := by
  simp +decide only [FileTree.locate, Path.parts, String.splitOn, String.splitOnAux, ↓reduceIte]

theorem bare_locate_metadata : bare.locate "m.json" = .ok ["m.json"] := by
  simp +decide only [FileTree.locate, Path.parts, String.splitOn, String.splitOnAux, ↓reduceIte]

theorem bare_read_metadata : bare.read "m.json" = .ok "{}" :=
  (FileTree.read_eq_ok_iff _ _ _).2 ⟨_, bare_locate_metadata, rfl⟩

theorem bare_exists? : ∀ p ∈ Settings.fileNames.map (Path.join "."), bare.exists? p = false := by
  simp only [Settings.fileNames, List.map_cons, List.map_nil, List.forall_mem_cons]
  refine ⟨?_, ?_, ?_, ?_, ?_, ?_, nofun⟩ <;>
    simp +decide only [Path.join, FileTree.exists?, FileTree.look, FileTree.locate, Path.parts,
      String.splitOn, String.splitOnAux, ↓reduceIte]

theorem bare_settings : bareOptions.settings bare = .ok barePlan.settings := by
  have hnone := List.find?_eq_none.2 fun p hp => Bool.eq_false_iff.1 (bare_exists? p hp)
  have hf : Settings.find bare "." = .ok {} := by rw [Settings.find, hnone]
  simp only [Options.settings, bareOptions, hf]
  rfl

theorem bare_loadIndex : Snapshot.loadIndex bare "m.json" = .ok {} := by
  have he : Path.extension "m.json" = "json" := by
    simp +decide only [Path.extension, Path.fileName?, Path.parts, String.splitOn,
      String.splitOnAux, ↓reduceIte]
  have ht : Snapshot.ofText "json" "{}" = .ok {} := by cbv
  have hl : Snapshot.load bare "m.json" = .ok {} := by
    rw [Snapshot.load, bare_read_metadata, he]
    exact ht
  rw [Snapshot.loadIndex, hl]
  rfl

theorem bare_ofVendor : Packages.ofVendor bare (barePlan.settings.vendorPath ".") = .ok {} := by
  have hv : barePlan.settings.vendorPath "." = "./vendor" := by decide
  simp +decide only [hv, Packages.ofVendor, Packages.listPath, FileTree.exists?, FileTree.look,
    FileTree.locate, Path.parts, String.splitOn, String.splitOnAux, ↓reduceIte]

theorem bare_course (color : Bool) :
    ∃ d, Course color bare bareWords bareOptions barePlan none .json d := by
  have hw := (FileTree.write_eq_ok_iff bare _ "r.json" (JsonReport.render true
    (barePlan.registry.analyze barePlan.index none))).2 ⟨_, bare_locate_output, nofun, rfl⟩
  exact ⟨_, rfl, bare_settings, bare_loadIndex, ⟨.modern, {}, rfl, bare_ofVendor, rfl⟩, rfl,
    by decide, Except.map_eq_ok_iff.2 ⟨_, hw, rfl⟩⟩

/-! ### What differs after a run -/

/-- A run without success prints nothing and leaves all files as they were. It succeeds
exactly when no step fails, and then the report is delivered by its format. -/
theorem run_touches_only_output (color : Bool) (t : FileTree) {words : List String}
    (hv : Options.ofWords words ≠ .error .version) (hh : Options.ofWords words ≠ .error .help) :
    ((run color t words).ending.exitCode ≠ 0 →
      (run color t words).printed = "" ∧ (run color t words).files = t) ∧
    ((run color t words).ending.exitCode = 0 ↔
      ∃ o p cs format d, Course color t words o p cs format d) ∧
    ∀ o p cs format d, Course color t words o p cs format d →
      (run color t words).printed = d.printed ∧ (run color t words).files = d.files ∧
      Delivered t color p.settings.showUnused (p.registry.analyze p.index cs) format o.output
        d := by
  have hrun := run_stops_or_goes_through color t hv hh
  refine ⟨?failed, ⟨?done, ?course⟩, ?delivered⟩
  case failed =>
    intro he
    cases hrun with
    | inl hstop => exact hstop.2
    | inr hcourse =>
      obtain ⟨o, p, cs, format, d, h⟩ := hcourse
      rw [h.run_eq] at he
      exact absurd rfl he
  case done =>
    intro he
    cases hrun with
    | inl hstop => exact absurd ((Ending.exitCode_eq_zero_iff _).1 he) hstop.1
    | inr hcourse => exact hcourse
  case course =>
    rintro ⟨o, p, cs, format, d, h⟩
    rw [h.run_eq]
    rfl
  case delivered =>
    intro o p cs format d h
    rw [h.run_eq]
    exact ⟨rfl, rfl, .of_ofVerdicts h.delivery⟩

theorem bare_run_touches_only_output :
    Options.ofWords bareWords ≠ .error .version ∧ Options.ofWords bareWords ≠ .error .help ∧
      (run false bare bareWords).ending.exitCode = 0 ∧
      (run false bare bareWords).printed = "Report written to: r.json\n" ∧
      (run false bare bareWords).files.read "r.json" = .ok (JsonReport.render true []) ∧
      (run false bare bareWords).files.read "m.json" = .ok "{}" := by
  have ho : Options.ofWords bareWords = .ok bareOptions := rfl
  have hv : Options.ofWords bareWords ≠ .error .version := by simp [ho]
  have hh : Options.ofWords bareWords ≠ .error .help := by simp [ho]
  obtain ⟨-, hdone, hdelivered⟩ := run_touches_only_output false bare hv hh
  obtain ⟨d, hd⟩ := bare_course false
  obtain ⟨hp, hf, hto⟩ := hdelivered _ _ _ _ _ hd
  rw [hp, hf]
  refine ⟨hv, hh, hdone.2 ⟨_, _, _, _, _, hd⟩, ?_⟩
  have hto : Delivered bare false true [] .json (some "r.json") d := hto
  cases hto with
  | @file _ place t' written =>
    have hplace : bare.locate "m.json" ≠ .ok place := by
      have hr := written.located
      rw [bare_locate_output] at hr
      cases hr
      rw [bare_locate_metadata]
      decide
    exact ⟨rfl, written.reads, (written.others "m.json" hplace _).2 bare_read_metadata⟩

end CommandLine
end Reprieve
