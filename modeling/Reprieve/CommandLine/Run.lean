import Reprieve.Analysis
import Reprieve.CommandLine.Arguments
import Reprieve.Doctrine
import Reprieve.PackagesFile
import Reprieve.SettingsFile
import Reprieve.SnapshotFile

/-! A run of the command over a tree of files. Nothing is printed or written
before the report as a whole is there. -/
namespace Reprieve.CommandLine

def versionText : String := "memberusage 0.1.0\n"

def usageLine : String := "Usage: memberusage [OPTIONS] --metadata <FILE> [PATH]"

def helpText : String :=
  "Framework usage providers that suppress false-positive dead code findings for PHP class "
    ++ "members\n\n" ++ usageLine ++ "\n\n"
    ++ "Arguments:\n"
    ++ "  [PATH]  Path to the project root (config lookup, vendor directory) [default: .]\n\n"
    ++ "Options:\n"
    ++ "  -m, --metadata <FILE>            "
    ++ "Metadata snapshot exported by the analyzer (JSON or YAML)\n"
    ++ "      --candidates <FILE>          "
    ++ "Dead code findings to check, one `Class::method` per line. "
    ++ "Without it every method in the snapshot is evaluated\n"
    ++ "  -c, --config <CONFIG>            Path to configuration file\n"
    ++ "  -f, --format <FORMAT>            Output format [possible values: terminal, json]\n"
    ++ "  -o, --output <OUTPUT>            Output file (for json format)\n"
    ++ "      --runtime-version <VERSION>  "
    ++ "Runtime version of the analysed code (e.g. 8.2, 7.4.33)\n"
    ++ "      --vendor-dir <DIR>           "
    ++ "Composer vendor directory, relative to the project root\n"
    ++ "      --doctrine                   Force the Doctrine provider on\n"
    ++ "      --no-doctrine                Force the Doctrine provider off\n"
    ++ "      --used-only                  Only list members that a provider marks as used\n"
    ++ "      --parallel                   Evaluate members in parallel\n"
    ++ "  -v, --verbose                    Verbose output\n"
    ++ "  -q, --quiet                      Quiet mode - only output results\n"
    ++ "  -h, --help                       Print help\n"
    ++ "  -V, --version                    Print version\n"

def noProviderText : String := "No usage provider is enabled; every finding stands."

inductive Failure where
  | settings (f : Settings.FileFault)
  | metadata (path : String) (f : Snapshot.Fault)
  | version (text : String)
  | packages (f : Packages.FileFault)
  | unreadableCandidates (path : String) (f : PathFault)
  | badCandidates (path : String) (f : Candidate.Malformed)
  | format (name : String)
  | output (f : PathFault)
  deriving DecidableEq, Repr

/-- The outermost fault as it is told; its causes are not. -/
def Failure.message : Failure → String
  | .settings f => f.message
  | .metadata p _ => "Failed to load " ++ p
  | .version _ => "Invalid runtime.version"
  | .packages f => f.message
  | .unreadableCandidates p _ => "Failed to read candidates file: " ++ p
  | .badCandidates p _ => "Invalid candidates file: " ++ p
  | .format name => s!"Unknown report format '{name}'"
  | .output f => f.message

structure Plan where
  settings : Settings
  index : Index
  registry : Registry

namespace Options

def settings (o : Options) (t : FileTree) : Except Failure Settings :=
  let loaded := match o.config with
    | some p => Settings.load t p
    | none => Settings.find t o.root
  (loaded.map o.apply).mapError .settings

def plan (o : Options) (t : FileTree) : Except Failure Plan := do
  let settings ← o.settings t
  let index ← (Snapshot.loadIndex t o.metadata).mapError (.metadata o.metadata)
  let caps ← (settings.capabilities index.runtimeVersion).mapError .version
  let installed ← (Packages.ofVendor t (settings.vendorPath o.root)).mapError .packages
  return ⟨settings, index, Doctrine.registry settings.doctrine caps installed⟩

def findings (o : Options) (t : FileTree) : Except Failure (Option (List Candidate)) :=
  match o.candidates with
  | none => .ok none
  | some p => do
    let text ← (t.read p).mapError (.unreadableCandidates p)
    return some (← (Candidate.parseAll text).mapError (.badCandidates p))

def deliver (o : Options) (t : FileTree) (color : Bool) (p : Plan) : Except Failure Delivery := do
  let verdicts := p.registry.analyze p.index (← o.findings t)
  match ReportFormat.ofName? p.settings.reportFormat with
  | none => throw (.format p.settings.reportFormat)
  | some format =>
    (Delivery.ofVerdicts t format o.output color p.settings.showUnused verdicts).mapError .output

def warns (o : Options) (p : Plan) : Bool := p.registry.enabledCount == 0 && !o.quiet

end Options

inductive Ending where
  | done
  | failed (f : Failure)
  | misused (f : UsageFault)
  deriving DecidableEq, Repr

def Ending.exitCode : Ending → Nat
  | .done => 0
  | .failed _ => 1
  | .misused _ => 2

structure Outcome where
  ending : Ending
  printed : String := ""
  warned : Bool := false
  files : FileTree
  deriving DecidableEq, Repr

def runOptions (color : Bool) (t : FileTree) (o : Options) : Outcome :=
  match o.plan t with
  | .error f => { ending := .failed f, files := t }
  | .ok p =>
    match o.deliver t color p with
    | .error f => { ending := .failed f, warned := o.warns p, files := t }
    | .ok d => { ending := .done, printed := d.printed, warned := o.warns p, files := d.files }

def run (color : Bool) (t : FileTree) (words : List String) : Outcome :=
  match Options.ofWords words with
  | .ok o => runOptions color t o
  | .error .version => { ending := .done, printed := versionText, files := t }
  | .error .help => { ending := .done, printed := helpText, files := t }
  | .error (.usage f) => { ending := .misused f, files := t }

end Reprieve.CommandLine
