import Reprieve.CommandLine.Options

/-! Reading the words of a command line, from left to right. A request for the
version or for help is answered where it stands: faults before it win, and what
comes after it is not read. -/
namespace Reprieve.CommandLine

inductive UsageFault where
  | unknown (word : String)
  | surplus (word : String)
  | needsValue (s : Setting)
  | noValue (name : String)
  | refused (s : Setting) (value : String)
  | repeated (k : Key)
  | emptyRoot
  | noMetadata
  | conflict
  deriving DecidableEq, Repr

inductive Stop where
  | version
  | help
  | usage (f : UsageFault)
  deriving DecidableEq, Repr

inductive Word where
  | separator
  | long (name : List Char) (value : Option (List Char))
  | short (letters : List Char)
  | plain
  deriving DecidableEq, Repr

def attached? (cs : List Char) : Option (List Char) :=
  match cs.dropWhile (· ≠ '=') with
  | [] => none
  | _ :: value => some value

/-- One dash alone is a plain word. -/
def Word.ofText (s : String) : Word :=
  match s.toList with
  | ['-', '-'] => .separator
  | '-' :: '-' :: cs => .long (cs.takeWhile (· ≠ '=')) (attached? cs)
  | '-' :: c :: cs => .short (c :: cs)
  | _ => .plain

structure Draft where
  root : Option String := none
  settings : List (Setting × String) := []
  switches : List Switch := []
  deriving DecidableEq, Repr

namespace Draft

def fault (f : UsageFault) : Except Stop α := .error (.usage f)

def setting? (d : Draft) (s : Setting) : Option String := d.settings.lookup s

def give (d : Draft) (s : Setting) (value : String) : Except Stop Draft :=
  if (d.setting? s).isSome then fault (.repeated (.setting s))
  else if s.accepts value then .ok { d with settings := (s, value) :: d.settings }
  else fault (.refused s value)

def turnOn (d : Draft) (s : Switch) : Except Stop Draft :=
  if s ∈ d.switches then fault (.repeated (.switch s))
  else .ok { d with switches := s :: d.switches }

def addRoot (d : Draft) (word : String) : Except Stop Draft :=
  if d.root.isSome then fault (.surplus word)
  else if word.isEmpty then fault .emptyRoot
  else .ok { d with root := some word }

/-- A setting that still needs its value goes on with the next word. -/
abbrev Step := Draft × Option Setting

def readLong (d : Draft) (name : String) (value : Option (List Char)) : Except Stop Step :=
  match Key.long.lookup name, value with
  | none, _ => fault (.unknown name)
  | some (.setting s), none => .ok (d, some s)
  | some (.setting s), some v => return (← d.give s (.ofList v), none)
  | some (.switch s), none => return (← d.turnOn s, none)
  | some .version, none => .error .version
  | some .help, none => .error .help
  | some _, some _ => fault (.noValue name)

/-- Letters of one dash: a setting takes the letters after it for its value. -/
def readShort (d : Draft) : List Char → Except Stop Step
  | [] => .ok (d, none)
  | c :: cs =>
    match Key.short.lookup c with
    | none => fault (.unknown (.singleton c))
    | some .version => .error .version
    | some .help => .error .help
    | some (.switch s) => do readShort (← d.turnOn s) cs
    | some (.setting s) =>
      match cs with
      | [] => .ok (d, some s)
      | '=' :: v => return (← d.give s (.ofList v), none)
      | v => return (← d.give s (.ofList v), none)

def readPlain (d : Draft) (words : List String) : Except Stop Draft := words.foldlM addRoot d

def read (d : Draft) : Option Setting → List String → Except Stop Draft
  | none, [] => .ok d
  | some s, [] => fault (.needsValue s)
  | some s, w :: ws =>
    match Word.ofText w with
    | .plain => do read (← d.give s w) none ws
    | _ => fault (.needsValue s)
  | none, w :: ws =>
    match Word.ofText w with
    | .separator => d.readPlain ws
    | .plain => do read (← d.addRoot w) none ws
    | .long name value => do
      let (d, pending) ← d.readLong (.ofList name) value
      read d pending ws
    | .short letters => do
      let (d, pending) ← d.readShort letters
      read d pending ws

def doctrine (d : Draft) : Except Stop (Option Bool) :=
  match d.switches.contains .doctrine, d.switches.contains .noDoctrine with
  | true, true => fault .conflict
  | true, false => .ok (some true)
  | false, true => .ok (some false)
  | false, false => .ok none

def finish (d : Draft) : Except Stop Options :=
  match d.setting? .metadata with
  | none => fault .noMetadata
  | some metadata => return {
      root := d.root.getD "."
      metadata := metadata
      candidates := d.setting? .candidates
      config := d.setting? .config
      format := (d.setting? .format).bind ReportFormat.ofName?
      output := d.setting? .output
      runtimeVersion := d.setting? .runtimeVersion
      vendorDirectory := d.setting? .vendorDirectory
      doctrine := ← d.doctrine
      usedOnly := d.switches.contains .usedOnly
      parallel := d.switches.contains .parallel
      verbose := d.switches.contains .verbose
      quiet := d.switches.contains .quiet }

end Draft

def Options.ofWords (words : List String) : Except Stop Options := do
  Draft.finish (← Draft.read {} none words)

end Reprieve.CommandLine
