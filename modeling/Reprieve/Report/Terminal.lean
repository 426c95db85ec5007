import Reprieve.Report.Json

/-! The report for people: a block for each class in order of the names, then the
counts. Lines are built first and painted afterwards. -/
namespace Reprieve

inductive Span where
  | plain (s : String)
  | painted (codes : String) (s : String)
  deriving DecidableEq, Repr

namespace Span

def green (s : String) : Span := .painted "32" s
def red (s : String) : Span := .painted "31" s
def yellow (s : String) : Span := .painted "33" s
def white (s : String) : Span := .painted "37" s
def dimmed (s : String) : Span := .painted "2" s
def boldGreen (s : String) : Span := .painted "1;32" s
def boldCyan (s : String) : Span := .painted "1;36" s

def paint (codes : String) : List Char := '\x1b' :: '[' :: codes.toList ++ ['m']

def reset : List Char := ['\x1b', '[', '0', 'm']

/-- The colour starts again after every reset inside the text. -/
def repaint (codes : String) : List Char → List Char
  | '\x1b' :: '[' :: '0' :: 'm' :: r => reset ++ paint codes ++ repaint codes r
  | c :: r => c :: repaint codes r
  | [] => []

def render (color : Bool) : Span → String
  | .plain s => s
  | .painted codes s =>
    if color then .ofList (paint codes ++ repaint codes s.toList ++ reset) else s

end Span

inductive Mark where
  | used (provider rule : String)
  | unknown
  | unused
  deriving DecidableEq, Repr

def MemberVerdict.mark (v : MemberVerdict) : Mark :=
  match v.isUsed, v.verdict.provider, v.verdict.rule with
  | true, some provider, some rule => .used provider rule
  | _, _, _ => if v.resolved then .unused else .unknown

inductive Line where
  | empty
  | header (kind : Option ClassKind) (className : String)
  | item (v : MemberVerdict)
  | ruler
  | counts (total used unused : Nat)
  | unresolved (n : Nat)
  | ruleTitle
  | ruleCount (rule : String) (n : Nat)
  | nothing
  deriving DecidableEq, Repr

namespace Line

def memberWord (v : MemberVerdict) : String := if v.isConstructor then "constructor" else "method"

def column (n : Nat) : String :=
  let s := toString n
  .ofList (List.replicate (5 - s.length) ' ') ++ s

open Reprieve.Span in
def spans : Line → List Span
  | .empty => []
  | .header none c => [boldCyan c]
  | .header (some k) c => [dimmed k.name, .plain " ", boldCyan c]
  | .item v =>
    let tail : List Span := [.plain " ", dimmed (memberWord v), .plain " ", white v.method]
    match v.mark with
    | .used provider rule =>
      [.plain "  ", boldGreen "✓"] ++ tail ++ [.plain " ", dimmed s!"[{provider}:{rule}]"]
    | .unknown => [.plain "  ", yellow "?"] ++ tail ++ [.plain " ", dimmed "(not in metadata)"]
    | .unused => [.plain "  ", red "✗"] ++ tail
  | .ruler => [dimmed (.ofList (List.replicate 60 '─'))]
  | .counts total used unused =>
    [.plain s!"Summary: {total} members, ", green s!"{used} used by a framework", .plain ", ",
      red s!"{unused} still unused"]
  | .unresolved n => [yellow s!"⚠ {n} findings were not found in the metadata snapshot"]
  | .ruleTitle => [dimmed "By Rule:"]
  | .ruleCount rule n => [.plain "  ", green (column n), .plain (" " ++ rule)]
  | .nothing => [boldGreen "No members to evaluate."]

def render (color : Bool) (l : Line) : String :=
  String.join (l.spans.map (Span.render color)) ++ "\n"

end Line

namespace TerminalReport

def groups (vs : List MemberVerdict) : SortedMap String (List MemberVerdict) :=
  vs.foldl (fun m v => m.insert v.className ((m.get? v.className).getD [] ++ [v])) {}

/-- The kind is that of the first member. -/
def block (className : String) (vs : List MemberVerdict) : List Line :=
  .header (vs.head?.bind (·.kind)) className :: (vs.map .item ++ [.empty])

def summaryLines (s : Summary) : List Line :=
  [.ruler, .counts s.total s.used s.unused]
    ++ (if 0 < s.unresolved then [.unresolved s.unresolved] else [])
    ++ (if s.byRule.isEmpty then []
      else .empty :: .ruleTitle :: s.byRule.entries.map fun e => .ruleCount e.1 e.2)
    ++ [.empty]

def lines (showUnused : Bool) (vs : List MemberVerdict) : List Line :=
  if vs.isEmpty then [.nothing]
  else
    .empty :: ((groups (shown showUnused vs)).entries.flatMap fun g => block g.1 g.2)
      ++ summaryLines (Summary.ofVerdicts vs)

def render (color showUnused : Bool) (vs : List MemberVerdict) : String :=
  String.join ((lines showUnused vs).map (Line.render color))

end TerminalReport
end Reprieve
