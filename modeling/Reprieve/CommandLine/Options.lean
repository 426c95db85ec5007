import Reprieve.Report.Delivery
import Reprieve.Settings

/-! The options of a command line, and what they change in the settings. -/
namespace Reprieve.CommandLine

/-- Whoever answers in parallel answers the same. -/
structure Options where
  root : String := "."
  metadata : String
  candidates : Option String := none
  config : Option String := none
  format : Option ReportFormat := none
  output : Option String := none
  runtimeVersion : Option String := none
  vendorDirectory : Option String := none
  doctrine : Option Bool := none
  usedOnly : Bool := false
  parallel : Bool := false
  verbose : Bool := false
  quiet : Bool := false
  deriving DecidableEq, Repr

/-- What an option says goes before what a settings file says. -/
def Options.apply (o : Options) (s : Settings) : Settings :=
  { doctrine := o.doctrine.or s.doctrine
    runtimeVersion := o.runtimeVersion.or s.runtimeVersion
    vendorDirectory := o.vendorDirectory.getD s.vendorDirectory
    reportFormat := (o.format.map ReportFormat.name).getD s.reportFormat
    showUnused := s.showUnused && !o.usedOnly }

inductive Setting where
  | metadata
  | candidates
  | config
  | format
  | output
  | runtimeVersion
  | vendorDirectory
  deriving DecidableEq, Repr

/-- Only a version may be empty, and only two formats have a name here. -/
def Setting.accepts (value : String) : Setting → Bool
  | .runtimeVersion => true
  | .format => value == "terminal" || value == "json"
  | _ => !value.isEmpty

inductive Switch where
  | doctrine
  | noDoctrine
  | usedOnly
  | parallel
  | verbose
  | quiet
  deriving DecidableEq, Repr

inductive Key where
  | setting (s : Setting)
  | switch (s : Switch)
  | version
  | help
  deriving DecidableEq, Repr

namespace Key

def long : List (String × Key) :=
  [("metadata", .setting .metadata), ("candidates", .setting .candidates),
    ("config", .setting .config), ("format", .setting .format), ("output", .setting .output),
    ("runtime-version", .setting .runtimeVersion), ("vendor-dir", .setting .vendorDirectory),
    ("doctrine", .switch .doctrine), ("no-doctrine", .switch .noDoctrine),
    ("used-only", .switch .usedOnly), ("parallel", .switch .parallel),
    ("verbose", .switch .verbose), ("quiet", .switch .quiet),
    ("version", .version), ("help", .help)]

def short : List (Char × Key) :=
  [('m', .setting .metadata), ('c', .setting .config), ('f', .setting .format),
    ('o', .setting .output), ('v', .switch .verbose), ('q', .switch .quiet),
    ('V', .version), ('h', .help)]

end Key
end Reprieve.CommandLine
