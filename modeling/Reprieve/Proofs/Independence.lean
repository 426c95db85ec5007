import Mathlib.Data.List.Find
import Reprieve.Proofs.JsonText
import Reprieve.Proofs.Precedence

/-! A run whose provider is set does not depend on the list of installed packages. Two trees
that differ in this file at most read alike by every path that leads elsewhere, as the paths
of all settings files do that a run looks for, so the two runs report the same. -/
namespace Reprieve

namespace FileTree

/-- Trees that differ at most in one file: in whether it is there and in what it holds. -/
structure SameBut (path : String) (t t' : FileTree) : Prop where
  start : t'.workingDirectory = t.workingDirectory
  elsewhere : ∀ a, t.locate path ≠ .ok a → t'.get? a = t.get? a
  file : ∀ a, t.locate path = .ok a →
    t.get? a ≠ some .directory ∧ t'.get? a ≠ some .directory

/-- Two paths that do not lead to one place. -/
def Apart (t : FileTree) (p q : String) : Prop := ∀ a, t.locate p = .ok a → t.locate q ≠ .ok a

namespace SameBut
variable {path : String} {t t' : FileTree} (h : SameBut path t t')
include h

theorem alike : Alike t t' := by
  refine ⟨fun a => ?_, h.start⟩
  by_cases ha : t.locate path = .ok a
  · exact iff_of_false (h.file a ha).2 (h.file a ha).1
  · rw [h.elsewhere a ha]

theorem get?_of_apart {q : String} (hq : Apart t path q) {a : List String}
    (ha : t.locate q = .ok a) : t'.get? a = t.get? a :=
  h.elsewhere a fun hp => hq a hp ha

theorem read_iff {q : String} (hq : Apart t path q) (s : String) :
    t'.read q = .ok s ↔ t.read q = .ok s := by
  simp only [read_eq_ok_iff, h.alike.locate_iff]
  refine exists_congr fun a => and_congr_right fun ha => ?_
  rw [h.get?_of_apart hq ha]

theorem exists?_eq {q : String} (hq : Apart t path q) : t'.exists? q = t.exists? q := by
  rw [Bool.eq_iff_iff, exists?_iff, exists?_iff]
  simp only [h.alike.locate_iff]
  refine exists_congr fun a => and_congr_right fun ha => ?_
  rw [h.get?_of_apart hq ha]

end SameBut

/-! ### Places of named files -/

/-- A part of a path that leads on from where it stands. -/
structure Named (name : String) : Prop where
  noSlash : '/' ∉ name.toList
  nonempty : name ≠ ""
  notHere : name ≠ "."
  notAbove : name ≠ ".."

instance (name : String) : Decidable (Named name) :=
  decidable_of_iff ('/' ∉ name.toList ∧ name ≠ "" ∧ name ≠ "." ∧ name ≠ "..")
    ⟨fun ⟨hs, hn, hh, ha⟩ => ⟨hs, hn, hh, ha⟩, fun ⟨hs, hn, hh, ha⟩ => ⟨hs, hn, hh, ha⟩⟩

theorem step_named {name : String} (h : Named name) {t : FileTree} {a b : List String}
    (hb : t.step a name = .ok b) : b = a ++ [name] := by
  rw [step, Except.bind_eq_ok_iff] at hb
  obtain ⟨u, -, hb⟩ := hb
  rw [if_neg (by simp [h.nonempty, h.notHere]), if_neg h.notAbove] at hb
  split at hb
  · cases hb
  · cases hb
    rfl

theorem locate_join_named {name : String} (h : Named name) {t : FileTree} {base : String}
    {a : List String} (ha : t.locate (Path.join base name) = .ok a) :
    ∃ above, a = above ++ [name] := by
  obtain ⟨init, hp⟩ := Path.parts_join base h.noSlash
  obtain ⟨-, above, -, hst⟩ := (locate_concat hp a).1 ha
  exact ⟨above, step_named h hst⟩

theorem apart_of_names {name name' : String} (h : Named name) (h' : Named name')
    (hne : name ≠ name') (t : FileTree) (base base' : String) :
    Apart t (Path.join base name) (Path.join base' name') := by
  intro a ha ha'
  obtain ⟨above, rfl⟩ := locate_join_named h ha
  obtain ⟨above', he⟩ := locate_join_named h' ha'
  have hlast := (List.append_inj' he rfl).2
  exact hne (List.singleton_inj.1 hlast)

end FileTree

/-! ### Readings that do not reach the list -/

open FileTree

namespace Settings

theorem fileNames_named : ∀ name ∈ fileNames, Named name ∧ "installed.json" ≠ name := by decide

theorem apart_fileName (t : FileTree) (vendor root : String) {name : String}
    (h : name ∈ fileNames) : Apart t (Packages.listPath vendor) (Path.join root name) :=
  apart_of_names (by decide) (fileNames_named name h).1 (fileNames_named name h).2 t _ root

theorem load_eq_ok_iff (t : FileTree) (path : String) (s : Settings) : load t path = .ok s ↔
    ∃ text, t.read path = .ok text ∧ ofText (Path.extension path) text = .ok s := by
  rw [load]
  cases t.read path <;> simp

theorem find_of_no_file {t : FileTree}
    (h : ∀ e ∈ t.entries, ∀ name ∈ fileNames, e.1.getLast? ≠ some name) (root : String) :
    find t root = .ok {} := by
  have hnone : (fileNames.map (Path.join root)).find? t.exists? = none := by
    rw [List.find?_eq_none]
    intro p hp he
    obtain ⟨name, hn, rfl⟩ := List.mem_map.1 hp
    obtain ⟨a, ha, hsome⟩ := (exists?_iff t _).1 he
    obtain ⟨above, rfl⟩ := locate_join_named (fileNames_named name hn).1 ha
    rw [get?, if_neg (by simp), List.lookup_isSome_iff] at hsome
    obtain ⟨e, hmem, hplace⟩ := hsome
    rw [beq_iff_eq] at hplace
    exact h e hmem name hn (by rw [← hplace, List.getLast?_concat])
  rw [find, hnone]

end Settings

theorem Snapshot.load_eq_ok_iff (t : FileTree) (path : String) (snap : Snapshot) :
    load t path = .ok snap ↔
      ∃ text, t.read path = .ok text ∧ ofText (Path.extension path) text = .ok snap := by
  simp only [load, Except.bind_eq_ok_iff, Except.mapError_eq_ok_iff]

namespace FileTree.SameBut
variable {t t' : FileTree}

theorem load_settings {path q : String} (h : SameBut path t t') (hq : Apart t path q)
    {s : Settings} (hs : Settings.load t q = .ok s) : Settings.load t' q = .ok s := by
  rw [Settings.load_eq_ok_iff] at hs ⊢
  simpa only [h.read_iff hq] using hs

variable {vendor : String} (h : SameBut (Packages.listPath vendor) t t')
include h

theorem find_settings {root : String} {s : Settings} (hs : Settings.find t root = .ok s) :
    Settings.find t' root = .ok s := by
  have hfound : (Settings.fileNames.map (Path.join root)).find? t'.exists? =
      (Settings.fileNames.map (Path.join root)).find? t.exists? := by
    refine List.find?_congr fun q hq => ?_
    obtain ⟨name, hn, rfl⟩ := List.mem_map.1 hq
    exact h.exists?_eq (Settings.apart_fileName t vendor root hn)
  rw [Settings.find] at hs ⊢
  rw [hfound]
  cases hf : (Settings.fileNames.map (Path.join root)).find? t.exists? with
  | none =>
    rw [hf] at hs
    exact hs
  | some q =>
    rw [hf] at hs
    obtain ⟨name, hn, rfl⟩ := List.mem_map.1 (List.mem_of_find?_eq_some hf)
    exact h.load_settings (Settings.apart_fileName t vendor root hn) hs

end FileTree.SameBut

namespace CommandLine

namespace Options

def inputs (o : Options) : List String :=
  o.metadata :: (o.config.toList ++ o.candidates.toList)

def reportFile (o : Options) (s : Settings) : Option String :=
  match ReportFormat.ofName? (o.apply s).reportFormat with
  | some .json => o.output
  | _ => none

variable {t t' : FileTree} {vendor : String} (h : SameBut (Packages.listPath vendor) t t')
variable {o : Options} (hq : ∀ q ∈ o.inputs, Apart t (Packages.listPath vendor) q)
include h hq

theorem loaded_of_sameBut {s : Settings} (hs : o.loaded t = .ok s) : o.loaded t' = .ok s := by
  rw [loaded] at hs ⊢
  cases hc : o.config with
  | none =>
    rw [hc] at hs
    exact h.find_settings hs
  | some q =>
    rw [hc] at hs
    exact h.load_settings (hq q (by simp [inputs, hc])) hs

theorem load_of_sameBut {snap : Snapshot} (hm : Snapshot.load t o.metadata = .ok snap) :
    Snapshot.load t' o.metadata = .ok snap := by
  rw [Snapshot.load_eq_ok_iff] at hm ⊢
  simpa only [h.read_iff (hq o.metadata List.mem_cons_self)] using hm

theorem findings_of_sameBut {cs : Option (List Candidate)} (hcs : o.findings t = .ok cs) :
    o.findings t' = .ok cs := by
  rw [findings] at hcs ⊢
  cases hc : o.candidates with
  | none =>
    rw [hc] at hcs
    exact hcs
  | some q =>
    rw [hc] at hcs
    simp only [Except.bind_eq_ok_iff, Except.mapError_eq_ok_iff] at hcs ⊢
    simpa only [h.read_iff (hq q (by simp [inputs, hc]))] using hcs

end Options

/-- Two outcomes with one report: the same is printed, after the same warning, and the same
is written into the file for it, if there is one. Apart from that the files differ at most
where they did before. -/
structure SameReport (t : FileTree) (path : String) (file : Option String) (r r' : Outcome) :
    Prop where
  printed : r'.printed = r.printed
  warned : r'.warned = r.warned
  written : ∀ q ∈ file, ∃ report, r.files.read q = .ok report ∧ r'.files.read q = .ok report
  elsewhere : ∀ a, t.locate path ≠ .ok a → r'.files.get? a = r.files.get? a

theorem sameReport_of_delivered {t t' : FileTree} {path : String} (h : SameBut path t t')
    {color showUnused : Bool} {vs : List MemberVerdict} {format : ReportFormat}
    {output : Option String} {d d' : Delivery}
    (hd : Delivered t color showUnused vs format output d)
    (hd' : Delivered t' color showUnused vs format output d') (warned : Bool) :
    SameReport t path (if format = .json then output else none)
      { ending := .done, printed := d.printed, warned, files := d.files }
      { ending := .done, printed := d'.printed, warned, files := d'.files } := by
  cases hd with
  | terminal =>
    cases hd'
    exact ⟨rfl, rfl, nofun, h.elsewhere⟩
  | json =>
    cases hd'
    exact ⟨rfl, rfl, nofun, h.elsewhere⟩
  | @file _ place _ written =>
    cases hd' with
    | file written' =>
      refine ⟨rfl, rfl, ?written, ?elsewhere⟩
      case written =>
        intro q hq
        cases hq
        exact ⟨_, written.reads, written'.reads⟩
      case elsewhere =>
        intro a ha
        -- both runs write at one place
        have hplace := (h.alike.locate_iff _ _).1 written'.located
        rw [written.located] at hplace
        cases hplace
        by_cases hap : a = place
        · subst hap
          rw [written.holds, written'.holds]
        · rw [written.elsewhere a hap, written'.elsewhere a hap, h.elsewhere a ha]

theorem Options.plan_of_sameBut {t t' : FileTree} {o : Options} {s : Settings} {snap : Snapshot}
    {ix : Index} (hs : o.loaded t = .ok s) (hm : Snapshot.load t o.metadata = .ok snap)
    (hix : Index.ofSnapshot snap = .ok ix) (hset : (o.doctrine? s).isSome = true)
    (h : SameBut (Packages.listPath (o.vendorPath s)) t t')
    (hq : ∀ q ∈ o.inputs, Apart t (Packages.listPath (o.vendorPath s)) q)
    {p p' : Plan} (hp : o.plan t = .ok p) (hp' : o.plan t' = .ok p') : p' = p := by
  have hs' := Options.loaded_of_sameBut h hq hs
  have hm' := Options.load_of_sameBut h hq hm
  obtain ⟨caps, installed, hc, -, rfl⟩ := (Options.plan_eq_ok_iff_of_loaded hs hm hix p).1 hp
  obtain ⟨caps', installed', hc', -, rfl⟩ :=
    (Options.plan_eq_ok_iff_of_loaded hs' hm' hix p').1 hp'
  obtain ⟨b, hb⟩ := Option.isSome_iff_exists.1 hset
  rw [hc.unique hc', hb]
  rfl

theorem sameReport_of_course {color : Bool} {t t' : FileTree} {words : List String} {o : Options}
    {s : Settings} (hs : o.loaded t = .ok s)
    (h : SameBut (Packages.listPath (o.vendorPath s)) t t')
    (hq : ∀ q ∈ o.inputs, Apart t (Packages.listPath (o.vendorPath s)) q)
    {p : Plan} {cs cs' : Option (List Candidate)} {format format' : ReportFormat} {d d' : Delivery}
    (hc : Course color t words o p cs format d) (hc' : Course color t' words o p cs' format' d') :
    SameReport t (Packages.listPath (o.vendorPath s)) (o.reportFile s)
      (run color t words) (run color t' words) := by
  have hcs : cs' = cs :=
    Except.ok.inj (hc'.findings.symm.trans (Options.findings_of_sameBut h hq hc.findings))
  have hformat : format' = format := Option.some.inj (hc'.known.symm.trans hc.known)
  subst hcs hformat
  have hset : p.settings = o.apply s :=
    Except.ok.inj (hc.settings.symm.trans (Options.settings_of_loaded hs))
  have hfile : o.reportFile s = if format' = .json then o.output else none := by
    have hknown := hc.known
    rw [hset] at hknown
    rw [Options.reportFile, hknown]
    cases format' <;> rfl
  rw [hc.run_eq, hc'.run_eq, hfile]
  exact sameReport_of_delivered h (.of_ofVerdicts hc.delivery) (.of_ofVerdicts hc'.delivery) _

/-- The settings of a run, once the settings file and the snapshot are loaded. The version is
the first that is there, of the options, of the settings and of the snapshot. The run stops at
a version exactly if this one is none, and it has a plan exactly if this one and the packages
can be read. In the plan the provider for Doctrine works with the capabilities of the version,
and it is enabled as the options say, else as the settings say, else if the packages that are
installed ask for it. Where the options or the settings say it, two runs that differ at most
in the list of packages, and that both succeed, have one report. -/
theorem run_settings_by_precedence {t : FileTree} {words : List String} {o : Options}
    {s : Settings} {snap : Snapshot} {ix : Index} (color : Bool)
    (ho : Options.ofWords words = .ok o) (hs : o.loaded t = .ok s)
    (hm : Snapshot.load t o.metadata = .ok snap) (hix : Index.ofSnapshot snap = .ok ix) :
    ((∃ f, (run color t words).ending = .failed f ∧ f.message = "Invalid runtime.version") ↔
      ∃ w, firstPresent [o.runtimeVersion, s.runtimeVersion, snap.runtimeVersion] = some w ∧
        ∀ v, Version.parse w ≠ .ok v) ∧
    (∀ p, o.plan t = .ok p ↔ ∃ caps installed enabled,
      Capabilities.Of
        (firstPresent [o.runtimeVersion, s.runtimeVersion, snap.runtimeVersion]) caps ∧
      Packages.ofVendor t (o.vendorPath s) = .ok installed ∧
      enabled = (firstPresent [o.doctrine, s.doctrine]).getD
        (Doctrine.packages.any installed.isInstalled) ∧
      p = ⟨o.apply s, ix, ⟨[⟨"doctrine", enabled, Doctrine.verdict enabled caps⟩]⟩⟩) ∧
    ∀ t', (firstPresent [o.doctrine, s.doctrine]).isSome = true →
      SameBut (Packages.listPath (o.vendorPath s)) t t' →
      (∀ q ∈ o.inputs, Apart t (Packages.listPath (o.vendorPath s)) q) →
      (run color t words).ending.exitCode = 0 → (run color t' words).ending.exitCode = 0 →
      SameReport t (Packages.listPath (o.vendorPath s)) (o.reportFile s)
        (run color t words) (run color t' words) := by
  refine ⟨run_invalid_iff color ho hs hm hix, ?plan, ?report⟩
  case plan =>
    intro p
    rw [Options.plan_eq_ok_iff_of_loaded hs hm hix p]
    constructor
    · intro h
      obtain ⟨caps, installed, hc, hi, rfl⟩ := h
      exact ⟨caps, installed, _, hc, hi, rfl, rfl⟩
    · intro h
      obtain ⟨caps, installed, _, hc, hi, rfl, rfl⟩ := h
      exact ⟨caps, installed, hc, hi, rfl⟩
  case report =>
    intro t' hset h hq hdone hdone'
    have hv : Options.ofWords words ≠ .error .version := by simp [ho]
    have hh : Options.ofWords words ≠ .error .help := by simp [ho]
    rw [Ending.exitCode_eq_zero_iff] at hdone hdone'
    obtain hstop | ⟨o₁, p, cs, format, d, hc⟩ := run_stops_or_goes_through color t hv hh
    · exact absurd hdone hstop.1
    obtain hstop | ⟨o₂, p', cs', format', d', hc'⟩ := run_stops_or_goes_through color t' hv hh
    · exact absurd hdone' hstop.1
    obtain rfl : o = o₁ := Except.ok.inj (ho.symm.trans hc.options)
    obtain rfl : o = o₂ := Except.ok.inj (ho.symm.trans hc'.options)
    have hp := (o.plan_eq_ok_iff t p).2 ⟨hc.settings, hc.index, hc.registry⟩
    have hp' := (o.plan_eq_ok_iff t' p').2 ⟨hc'.settings, hc'.index, hc'.registry⟩
    obtain rfl := Options.plan_of_sameBut hs hm hix hset h hq hp hp'
    exact sameReport_of_course hs h hq hc hc'

/-! ### A run beside a vendor directory -/

/-- A snapshot whose version is none, and a vendor directory without a list of packages. -/
def unlisted : FileTree :=
  { entries := [(["m.json"], .text "\x7b\"runtime_version\":\"none\"\x7d"),
      (["vendor"], .directory), (["vendor", "composer"], .directory)] }

def listPlace : List String := ["vendor", "composer", "installed.json"]

def listed : FileTree := unlisted.set listPlace (.text "[]")

def settledWords : List String :=
  ["-m", "m.json", "-f", "json", "--doctrine", "--runtime-version", "7.4"]

def settledOptions : Options :=
  { metadata := "m.json", format := some .json, runtimeVersion := some "7.4",
    doctrine := some true }

def unlistedSnapshot : Snapshot := { runtimeVersion := some "none" }

theorem settled_listPath :
    Packages.listPath (settledOptions.vendorPath {}) = "./vendor/composer/installed.json" := by
  decide

theorem unlisted_locate_list :
    unlisted.locate "./vendor/composer/installed.json" = .ok listPlace := by
  simp +decide only [FileTree.locate, Path.parts, String.splitOn, String.splitOnAux, ↓reduceIte]

theorem unlisted_locate_metadata : unlisted.locate "m.json" = .ok ["m.json"] := by
  simp +decide only [FileTree.locate, Path.parts, String.splitOn, String.splitOnAux, ↓reduceIte]

theorem unlisted_sameBut :
    SameBut (Packages.listPath (settledOptions.vendorPath {})) unlisted listed := by
  rw [settled_listPath]
  refine ⟨rfl, fun a ha => ?elsewhere, fun a ha => ?file⟩
  case elsewhere =>
    rw [unlisted_locate_list] at ha
    have hne : a ≠ listPlace := fun he => ha (by rw [he])
    rw [listed, get?_set _ (by decide), if_neg hne]
  case file =>
    rw [unlisted_locate_list] at ha
    cases ha
    decide

theorem unlisted_apart : ∀ q ∈ settledOptions.inputs,
    Apart unlisted (Packages.listPath (settledOptions.vendorPath {})) q := by
  intro q hq a ha
  obtain rfl : q = "m.json" := List.mem_singleton.1 hq
  rw [settled_listPath, unlisted_locate_list] at ha
  rw [unlisted_locate_metadata]
  cases ha
  decide

theorem unlisted_loaded : settledOptions.loaded unlisted = .ok {} := by
  have hf : Settings.find unlisted "." = .ok {} := Settings.find_of_no_file (by decide) "."
  exact hf

theorem unlisted_load : Snapshot.load unlisted "m.json" = .ok unlistedSnapshot := by
  have he : Path.extension "m.json" = "json" := by
    simp +decide only [Path.extension, Path.fileName?, Path.parts, String.splitOn,
      String.splitOnAux, ↓reduceIte]
  have hr := (read_eq_ok_iff unlisted "m.json" _).2 ⟨_, unlisted_locate_metadata, rfl⟩
  have htext : "\x7b\"runtime_version\":\"none\"\x7d" =
      Json.compact (.fields [("runtime_version", .text "none")]) := by decide +kernel
  have ht : Snapshot.ofJson "\x7b\"runtime_version\":\"none\"\x7d" = .ok unlistedSnapshot := by
    rw [htext, Snapshot.ofJson, Json.read_compact (Json.plain_fields (by simp [Json.Plain.text]))]
    rfl
  refine (Snapshot.load_eq_ok_iff _ _ _).2 ⟨_, hr, ?_⟩
  rw [he]
  exact ht

theorem unlisted_ofVendor : Packages.ofVendor unlisted "./vendor" = .ok {} := by
  have hp : Packages.listPath "./vendor" = "./vendor/composer/installed.json" := by decide
  have hmissing : unlisted.exists? "./vendor/composer/installed.json" = false := by
    rw [Bool.eq_false_iff, ne_eq, exists?_iff, unlisted_locate_list]
    intro h
    obtain ⟨a, ha, hsome⟩ := h
    cases ha
    cases hsome
  rw [Packages.ofVendor, hp, hmissing]
  rfl

theorem listed_ofVendor : ∃ installed, Packages.ofVendor listed "./vendor" = .ok installed := by
  have hp : Packages.listPath "./vendor" = "./vendor/composer/installed.json" := by decide
  have hlocate := (unlisted_sameBut.alike.locate_iff _ _).2 unlisted_locate_list
  have hthere : listed.exists? "./vendor/composer/installed.json" = true :=
    (exists?_iff _ _).2 ⟨_, hlocate, rfl⟩
  have hread := (read_eq_ok_iff listed _ "[]").2 ⟨_, hlocate, rfl⟩
  have hjson : ∃ installed, Packages.ofJson "[]" = .ok installed := ⟨_, by cbv⟩
  obtain ⟨installed, hi⟩ := hjson
  refine ⟨installed, ?_⟩
  rw [Packages.ofVendor, hp, if_pos hthere]
  simp only [Packages.load, Except.bind_eq_ok_iff, Except.mapError_eq_ok_iff]
  exact ⟨_, hread, hi⟩

theorem parse_none (v : Version) : Version.parse "none" ≠ .ok v := by
  have hnone : Version.ofTrimmed? (Text.trim "none".toList) = none := by decide
  rw [Version.parse, hnone]
  intro h
  cases h

theorem parse_settled : Version.parse "7.4" = .ok ⟨7, 4, 0⟩ := by
  have hparts : Version.parts? (Text.trim "7.4".toList) = some (['7'], ['4'], []) := by decide
  have hpart (ds : List Char) (h : Text.numeral 10 ds < 4294967296) :
      Version.part? ds = some (Text.numeral 10 ds) := if_pos h
  rw [Version.parse, Version.ofTrimmed?, hparts]
  simp only [hpart ['7'] (by decide), hpart ['4'] (by decide), hpart [] (by decide)]
  rfl

def settledPlan (installed : Packages) : Plan :=
  { settings := settledOptions.apply {}
    index := { runtimeVersion := some "none" }
    registry := Doctrine.registry (some true) (.ofVersion ⟨7, 4, 0⟩) installed }

theorem settled_done {t : FileTree} {installed : Packages} (hs : settledOptions.loaded t = .ok {})
    (hm : Snapshot.load t "m.json" = .ok unlistedSnapshot)
    (hi : Packages.ofVendor t "./vendor" = .ok installed) :
    (run false t settledWords).ending.exitCode = 0 := by
  have hplan : settledOptions.plan t = .ok (settledPlan installed) :=
    (Options.plan_eq_ok_iff_of_loaded hs hm rfl _).2
      ⟨.ofVersion ⟨7, 4, 0⟩, installed, .known parse_settled, hi, rfl⟩
  have hformat : ReportFormat.ofName? "json" = some .json := by decide
  have hdeliver : ∃ d, settledOptions.deliver t false (settledPlan installed) = .ok d :=
    ⟨_, (Options.deliver_eq_ok_iff _ _ _ _ _).2 ⟨none, .json, rfl, hformat, rfl⟩⟩
  have ho : Options.ofWords settledWords = .ok settledOptions := rfl
  obtain ⟨d, hd⟩ := hdeliver
  simp only [run, ho, runOptions, hplan, hd, Ending.exitCode]

/-- The version of the snapshot is none, and nobody reads it. The list of packages can be
read, and it changes nothing. -/
theorem settled_reports_same :
    Options.ofWords settledWords = .ok settledOptions ∧
      settledOptions.loaded unlisted = .ok {} ∧
      Snapshot.load unlisted "m.json" = .ok unlistedSnapshot ∧
      (∃ ix, Index.ofSnapshot unlistedSnapshot = .ok ix) ∧
      (∀ v, Version.parse "none" ≠ .ok v) ∧
      (∀ f, (run false unlisted settledWords).ending = .failed f →
        f.message ≠ "Invalid runtime.version") ∧
      (run false unlisted settledWords).ending.exitCode = 0 ∧
      (run false listed settledWords).ending.exitCode = 0 ∧
      SameReport unlisted (Packages.listPath (settledOptions.vendorPath {}))
        (settledOptions.reportFile {}) (run false unlisted settledWords)
        (run false listed settledWords) := by
  have hm : Snapshot.load listed "m.json" = .ok unlistedSnapshot :=
    Options.load_of_sameBut unlisted_sameBut unlisted_apart unlisted_load
  have hs : settledOptions.loaded listed = .ok {} :=
    Options.loaded_of_sameBut unlisted_sameBut unlisted_apart unlisted_loaded
  obtain ⟨installed, hi⟩ := listed_ofVendor
  have hdone := settled_done unlisted_loaded unlisted_load unlisted_ofVendor
  have hdone' := settled_done hs hm hi
  have ho : Options.ofWords settledWords = .ok settledOptions := rfl
  have hix : Index.ofSnapshot unlistedSnapshot = .ok { runtimeVersion := some "none" } := rfl
  obtain ⟨hstops, -, hsame⟩ :=
    run_settings_by_precedence false ho unlisted_loaded unlisted_load hix
  refine ⟨ho, unlisted_loaded, unlisted_load, ⟨_, hix⟩, parse_none, ?goes, hdone, hdone',
    hsame listed rfl unlisted_sameBut unlisted_apart hdone hdone'⟩
  case goes =>
    intro f hf he
    obtain ⟨w, hw, hbad⟩ := hstops.1 ⟨f, hf, he⟩
    cases hw
    exact hbad _ parse_settled

end CommandLine
end Reprieve
