import Reprieve.FileTree
import Reprieve.Packages

/-! The file in which a vendor directory lists what is installed there. -/
namespace Reprieve.Packages

inductive FileFault where
  | unreadable (path : String) (fault : PathFault)
  | unparsable (path : String) (fault : Json.Fault)
  deriving DecidableEq, Repr

def FileFault.message : FileFault → String
  | .unreadable p f => s!"Failed to read {p}: {f.message}"
  | .unparsable p _ => s!"Failed to parse {p}"

def listPath (vendor : String) : String := Path.join (Path.join vendor "composer") "installed.json"

def load (t : FileTree) (path : String) : Except FileFault Packages := do
  let text ← (t.read path).mapError (.unreadable path)
  (ofJson text).mapError (.unparsable path)

/-- Without the file nothing is installed. -/
def ofVendor (t : FileTree) (vendor : String) : Except FileFault Packages :=
  if t.exists? (listPath vendor) then load t (listPath vendor) else .ok {}

end Reprieve.Packages
