import Reprieve.FileTree
import Reprieve.Report.Terminal

/-! The form of a report, and where it goes: to the reader, or into a file. -/
namespace Reprieve

inductive ReportFormat where
  | terminal
  | json
  deriving DecidableEq, Repr

def ReportFormat.name : ReportFormat → String
  | .terminal => "terminal"
  | .json => "json"

def ReportFormat.ofName? (s : String) : Option ReportFormat :=
  match s.folded with
  | "terminal" | "text" => some .terminal
  | "json" => some .json
  | _ => none

structure Delivery where
  printed : String
  files : FileTree
  deriving DecidableEq, Repr

namespace Delivery

def ofJson (t : FileTree) (output : Option String) (text : String) : Except PathFault Delivery :=
  match output with
  | none => .ok ⟨text ++ "\n", t⟩
  | some p => (t.write p text).map fun t => ⟨s!"Report written to: {p}\n", t⟩

/-- The report for people is always printed. -/
def ofVerdicts (t : FileTree) (format : ReportFormat) (output : Option String)
    (color showUnused : Bool) (vs : List MemberVerdict) : Except PathFault Delivery :=
  match format with
  | .terminal => .ok ⟨TerminalReport.render color showUnused vs, t⟩
  | .json => ofJson t output (JsonReport.render showUnused vs)

end Delivery
end Reprieve
