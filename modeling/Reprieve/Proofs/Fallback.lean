import Reprieve.Proofs.Files
import Reprieve.Proofs.FirstTokens
import Reprieve.SettingsFile

/-! Settings files whose extension does not give their format. YAML is tried first, so it can hide
what TOML would read, but only in a text of one of two kinds: the key of the first entry is a key to
YAML too, or a comment above it ends earlier for YAML. -/
namespace Reprieve.Settings

/-- Whether YAML may take a TOML text for something else: a comment above the first entry holds a
break that only YAML knows, or a bare key comes first and there is a key of YAML on its line. -/
def ambiguous (text : String) : Bool :=
  let cs := Toml.withoutMark text.toList
  let r := Toml.skipLines (cs.length + 1) cs
  (cs.take (cs.length - r.length)).any Toml.isForeignBreak ||
    Yaml.startsWith Toml.isBareChar r && Yaml.keyed r

/-- What a text that TOML reads comes to: lines that end with tables. -/
theorem ofToml?_eq_some {text : String} {s : Settings} (h : ofToml? text = some s) :
    let cs := Toml.withoutMark text.toList
    ∃ d entries, Toml.lines (cs.length + 1) {} cs = some d ∧ d.settle = some entries ∧
      read Toml.document (.table .header entries) = some s := by
  obtain ⟨v, hv, hs⟩ := Option.bind_eq_some_iff.1 h
  obtain ⟨d, hd, hv⟩ := Option.bind_eq_some_iff.1 hv
  obtain ⟨entries, he, hv⟩ := Option.bind_eq_some_iff.1 hv
  cases hv
  exact ⟨d, entries, hd, he, hs⟩

theorem take_of_eq_append {cs p r : List Char} (h : cs = p ++ r) :
    cs.take (cs.length - r.length) = p := by
  rw [h, List.length_append, Nat.add_sub_cancel, List.take_left]

/-- What YAML reads in any other text is what TOML reads there. -/
theorem ofYaml?_eq_of_not_ambiguous {text : String} {s y : Settings}
    (ha : ambiguous text = false) (hs : ofToml? text = some s) (hy : ofYaml? text = some y) :
    y = s := by
  obtain ⟨d, entries, hd, he, hs⟩ := ofToml?_eq_some hs
  rw [ambiguous, Bool.or_eq_false_iff] at ha
  obtain ⟨hlead, hkey⟩ := ha
  generalize hcs : Toml.withoutMark text.toList = cs at hd hlead hkey
  have hfree (p : List Char) (hp : cs = p ++ Toml.skipLines (cs.length + 1) cs) (c : Char)
      (hc : c ∈ p) : Toml.isForeignBreak c = false := by
    rw [take_of_eq_append hp, List.any_eq_false] at hlead
    exact Bool.eq_false_iff.2 (hlead c hc)
  have hkeyed (hbare : Yaml.startsWith Toml.isBareChar (Toml.skipLines (cs.length + 1) cs) = true) :
      Yaml.keyed (Toml.skipLines (cs.length + 1) cs) = false := by
    rw [hbare, Bool.true_and] at hkey
    exact hkey
  cases hts : Yaml.Token.ofText? text.toList with
  | none =>
    have hnone : ofYaml? text = none := Yaml.Unrecorded.read_eq_none _ _ fun _ h =>
      nomatch hts.symm.trans h
    cases hy.symm.trans hnone
  | some ts =>
    rcases Yaml.Scan.tokens_of_lines hcs rfl hd hfree hkeyed hts with ⟨rfl, rfl⟩ | hu
    · cases he
      cases hs
      have hdefault : ofYaml? text = some {} := Yaml.read_record_of_end _ _ hts
      exact Option.some.inj (hy.symm.trans hdefault)
    · have hnone : ofYaml? text = none := Yaml.Unrecorded.read_eq_none _ _ fun _ h => by
        cases hts.symm.trans h
        exact hu
      cases hy.symm.trans hnone

/-! ### Files -/

theorem load_of_other {t : FileTree} {p text : String} (hp : t.read p = .ok text)
    (he : Path.extension p ∉ ["yml", "yaml", "toml"]) :
    load t p = ((ofYaml? text).or (ofToml? text)).elim (.error .badFile) .ok := by
  simp only [List.mem_cons, List.not_mem_nil, or_false, not_or] at he
  simp only [load, hp]
  rw [ofText.eq_def]
  split
  · rename_i h
    exact absurd h he.1
  · rename_i h
    exact absurd h he.2.1
  · rename_i h
    exact absurd h he.2.2
  · rfl

theorem load_of_toml {t : FileTree} {q text : String} (hq : t.read q = .ok text)
    (he : Path.extension q = "toml") : load t q = (ofToml? text).elim (.error .badToml) .ok := by
  simp only [load, hq, he]
  rfl

def twice (text : String) : FileTree :=
  { entries := [(["settings"], .text text), (["settings.toml"], .text text)] }

theorem twice_locate {text name : String} (hn : name = "settings" ∨ name = "settings.toml") :
    (twice text).locate name = .ok [name] := by
  refine (FileTree.locate_eq_ok_iff _ _ _).2 ?_
  rcases hn with rfl | rfl
  · rw [Path.parts_of_not_mem (by decide)]
    exact ⟨rfl, rfl⟩
  · rw [Path.parts_of_not_mem (by decide)]
    exact ⟨rfl, rfl⟩

theorem twice_read (text : String) :
    (twice text).read "settings" = .ok text ∧ (twice text).read "settings.toml" = .ok text :=
  ⟨(FileTree.read_eq_ok_iff _ _ _).2 ⟨_, twice_locate (.inl rfl), rfl⟩,
    (FileTree.read_eq_ok_iff _ _ _).2 ⟨_, twice_locate (.inr rfl), rfl⟩⟩

theorem extension_twice :
    Path.extension "settings" = "" ∧ Path.extension "settings.toml" = "toml" := by
  simp +decide only [Path.extension, Path.fileName?, Path.parts_of_not_mem]

/-- Of two files with one text that TOML reads, the one whose name says so holds the settings of
TOML; the other one holds those of YAML if YAML reads the text, else the same. So they agree exactly
if YAML reads nothing else there, and they do in every text that is not ambiguous. -/
theorem load_agrees_with_toml {t t' : FileTree} {p q text : String} {s : Settings}
    (hp : t.read p = .ok text) (hq : t'.read q = .ok text)
    (hpe : Path.extension p ∉ ["yml", "yaml", "toml"]) (hqe : Path.extension q = "toml")
    (hs : ofToml? text = some s) :
    load t' q = .ok s ∧ load t p = .ok ((ofYaml? text).getD s) ∧
      (load t p = load t' q ↔ ∀ y, ofYaml? text = some y → y = s) ∧
      (ambiguous text = false → load t p = load t' q) := by
  have hnamed : load t' q = .ok s := by
    rw [load_of_toml hq hqe, hs]
    rfl
  have hother : load t p = .ok ((ofYaml? text).getD s) := by
    rw [load_of_other hp hpe, hs]
    cases ofYaml? text <;> rfl
  have hiff : load t p = load t' q ↔ ∀ y, ofYaml? text = some y → y = s := by
    rw [hnamed, hother]
    cases ofYaml? text <;> simp
  exact ⟨hnamed, hother, hiff, fun ha => hiff.2 fun y hy => ofYaml?_eq_of_not_ambiguous ha hs hy⟩

/-- Below a header, and in a comment above it, colons do no harm. -/
def colonBelowHeader : String := "# Settings: report\n[report]\nformat = \"json: x\"\n"

theorem colonBelowHeader_agrees :
    ofToml? colonBelowHeader = some { reportFormat := "json: x" } ∧
      ambiguous colonBelowHeader = false ∧
      load (twice colonBelowHeader) "settings.toml" = .ok { reportFormat := "json: x" } ∧
      load (twice colonBelowHeader) "settings" = load (twice colonBelowHeader) "settings.toml" := by
  have htoml : ofToml? colonBelowHeader = some { reportFormat := "json: x" } := by decide +kernel
  have hclear : ambiguous colonBelowHeader = false := by decide +kernel
  obtain ⟨hp, hq⟩ := twice_read colonBelowHeader
  obtain ⟨hpe, hqe⟩ := extension_twice
  obtain ⟨hnamed, -, -, hagree⟩ := load_agrees_with_toml hp hq (by rw [hpe]; decide) hqe htoml
  exact ⟨htoml, hclear, hnamed, hagree hclear⟩

/-- Behind a bare key on the first line a colon ends a longer key of YAML, which no record knows. -/
def colonBehindKey : String := "packages.vendor_dir = \"build: vendor\"\n"

theorem colonBehindKey_hides_toml :
    ofToml? colonBehindKey = some { vendorDirectory := "build: vendor" } ∧
      load (twice colonBehindKey) "settings.toml" = .ok { vendorDirectory := "build: vendor" } ∧
      load (twice colonBehindKey) "settings" = .ok {} := by
  have htoml : ofToml? colonBehindKey = some { vendorDirectory := "build: vendor" } := by
    decide +kernel
  have hyaml : ofYaml? colonBehindKey = some {} := by decide +kernel
  obtain ⟨hp, hq⟩ := twice_read colonBehindKey
  obtain ⟨hpe, hqe⟩ := extension_twice
  refine ⟨htoml, ?_, ?_⟩
  · rw [load_of_toml hq hqe, htoml]
    rfl
  · rw [load_of_other hp (by rw [hpe]; decide), hyaml]
    rfl

end Reprieve.Settings
