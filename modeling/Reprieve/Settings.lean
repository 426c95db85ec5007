import Reprieve.Document
import Reprieve.Path
import Reprieve.Version

/-! Settings of an analysis. Everything that a settings file leaves out has a
default. -/
namespace Reprieve

/-- The provider is left to the installed packages unless it is set. -/
structure Settings where
  doctrine : Option Bool := none
  runtimeVersion : Option String := none
  vendorDirectory : String := "vendor"
  reportFormat : String := "terminal"
  showUnused : Bool := true
  deriving DecidableEq, Repr

namespace Settings

section Reading
variable {m : Type → Type} {ν : Type} [Monad m] (d : Document m ν)

def readProviders (v : ν) : m (Option Bool) :=
  d.record [("doctrine", fun v _ =>
    d.record [("enabled", fun v _ => d.optional d.flag v)] none v)] none v

def readRuntime (v : ν) : m (Option String) :=
  d.record [("version", fun v _ => d.optional d.text v)] none v

def readPackages (v : ν) : m String :=
  d.record [("vendor_dir", fun v _ => d.text v)] "vendor" v

def readReport (v : ν) : m (String × Bool) :=
  d.record
    [("format", fun v s => return (← d.text v, s.2)),
     ("show_unused", fun v s => return (s.1, ← d.flag v))] ("terminal", true) v

def read (v : ν) : m Settings :=
  d.record
    [("providers", fun v s => return { s with doctrine := ← readProviders d v }),
     ("runtime", fun v s => return { s with runtimeVersion := ← readRuntime d v }),
     ("packages", fun v s => return { s with vendorDirectory := ← readPackages d v }),
     ("report", fun v s => do
       let (format, showUnused) ← readReport d v
       return { s with reportFormat := format, showUnused })] {} v

end Reading

def version? (s : Settings) (snapshot : Option String) : Option String :=
  s.runtimeVersion.or snapshot

def capabilities (s : Settings) (snapshot : Option String) : Except String Capabilities :=
  match s.version? snapshot with
  | none => .ok .modern
  | some v => (Version.parse v).map .ofVersion

def vendorPath (s : Settings) (root : String) : String := Path.join root s.vendorDirectory

end Settings
end Reprieve
