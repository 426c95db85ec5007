import Reprieve.CommandLine.Run

/-! The command: it looks at the files that a run may need, runs, prints and
writes what the run says. -/
namespace Reprieve.CommandLine

def trail (p : String) : List String :=
  let parts := Path.parts p
  (((List.range parts.length).map fun n => "/".intercalate (parts.take (n + 1))).filter
    (!·.isEmpty)).eraseDups

def entry? (p : String) : IO (Option Entry) := do
  let file := (← IO.currentDir) / p
  if ← file.isDir then return some .directory
  try
    match String.fromUTF8? (← IO.FS.readBinFile file) with
    | some s => return some (.text s)
    | none => return some .binary
  catch _ => return none

def observe (t : FileTree) (p : String) : IO FileTree :=
  (trail p).foldlM (fun t q => do
    match t.locate q, ← entry? q with
    | .ok place, some e => return t.set place e
    | _, _ => return t) t

def settingsPaths (o : Options) : List String :=
  match o.config with
  | some p => [p]
  | none => Settings.fileNames.map (Path.join o.root)

def firstPaths (o : Options) : List String :=
  o.metadata :: (o.candidates.toList ++ o.output.toList ++ settingsPaths o)

def vendorPaths (o : Options) (t : FileTree) : List String :=
  match o.settings t with
  | .ok s => [Packages.listPath (s.vendorPath o.root)]
  | .error _ => []

def workingTree : IO FileTree := do
  let here := (← IO.currentDir).toString
  let place := (Path.parts here).filter (!·.isEmpty)
  return .around place

def observeAll (o : Options) : IO FileTree := do
  let t ← (firstPaths o).foldlM observe (← workingTree)
  (vendorPaths o t).foldlM observe t

def usageText : UsageFault → String
  | .unknown w => s!"unexpected argument '{w}' found"
  | .surplus w => s!"unexpected argument '{w}' found"
  | .needsValue _ => "a value is required for an option but none was supplied"
  | .noValue n => s!"unexpected value for '--{n}' found; no more were expected"
  | .refused _ v => s!"invalid value '{v}' for an option"
  | .repeated _ => "an option cannot be used multiple times"
  | .emptyRoot => "a value is required for the path but none was supplied"
  | .noMetadata => "the following required arguments were not provided: --metadata <FILE>"
  | .conflict => "the argument '--doctrine' cannot be used with '--no-doctrine'"

def writeOutput (before after : FileTree) (p : String) : IO Unit := do
  match after.read p, before.read p with
  | .ok new, .ok old => if new ≠ old then IO.FS.writeFile p new
  | .ok new, .error _ => IO.FS.writeFile p new
  | _, _ => return

def useColor : IO Bool := do
  return (← (← IO.getStdout).isTty) && (← IO.getEnv "NO_COLOR").isNone

end Reprieve.CommandLine

open Reprieve CommandLine in
def main (words : List String) : IO UInt32 := do
  let options := Options.ofWords words
  let before ← match options with
    | .ok o => observeAll o
    | .error _ => workingTree
  let out := run (← useColor) before words
  if let .ok { output := some p, .. } := options then writeOutput before out.files p
  if out.warned then IO.eprintln noProviderText
  match out.ending with
  | .failed f => IO.eprintln s!"Error: {f.message}"
  | .misused f =>
    IO.eprintln s!"error: {usageText f}\n\n{usageLine}\n\nFor more information, try '--help'."
  | .done => IO.print out.printed
  return out.ending.exitCode.toUInt32
