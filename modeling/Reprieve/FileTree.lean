import Reprieve.Path

/-! A tree of files, and what reading and writing do to it. -/
namespace Reprieve

/-- A binary file holds no text. -/
inductive Entry where
  | directory
  | text (s : String)
  | binary
  deriving DecidableEq, Repr

inductive PathFault where
  | missing
  | notDirectory
  | isDirectory
  | nameTooLong
  | zeroCharacter
  | notText
  deriving DecidableEq, Repr

def PathFault.message : PathFault → String
  | .missing => "No such file or directory (os error 2)"
  | .notDirectory => "Not a directory (os error 20)"
  | .isDirectory => "Is a directory (os error 21)"
  | .nameTooLong => "File name too long (os error 36)"
  | .zeroCharacter => "file name contained an unexpected NUL byte"
  | .notText => "stream did not contain valid UTF-8"

/-- Entries by the parts of their places; of one place the first counts. The root
is always there. -/
structure FileTree where
  entries : List (List String × Entry) := []
  workingDirectory : List String := []
  deriving DecidableEq, Repr

namespace FileTree

def get? (t : FileTree) (place : List String) : Option Entry :=
  if place.isEmpty then some .directory else t.entries.lookup place

def set (t : FileTree) (place : List String) (e : Entry) : FileTree :=
  { t with entries := (place, e) :: t.entries }

theorem get?_set (t : FileTree) {place : List String} (h : place ≠ []) (p : List String)
    (e : Entry) :
    (t.set place e).get? p = if p = place then some e else t.get? p := by
  cases p with
  | nil => simp [get?, h.symm]
  | cons q r =>
    by_cases hp : q :: r = place
    · simp [get?, set, hp, h]
    · have hb : (q :: r == place) = false := beq_false_of_ne hp
      simp [get?, set, List.lookup_cons, hp, hb]

def start (t : FileTree) (p : String) : List String :=
  if Path.isAbsolute p then [] else t.workingDirectory

def addDirectories (t : FileTree) (place : List String) : FileTree :=
  ((List.range (place.length + 1)).map place.take).foldl
    (fun t d => if (t.get? d).isSome then t else t.set d .directory) t

def add (t : FileTree) (p : String) (e : Entry) : FileTree :=
  match (t.start p ++ (Path.parts p).filter fun s => s ≠ "" ∧ s ≠ ".") with
  | [] => t
  | place => (t.addDirectories place.dropLast).set place e

def around (place : List String) : FileTree :=
  addDirectories { workingDirectory := place } place

def ofFiles (place : List String) (files : List (String × Entry)) : FileTree :=
  files.foldl (fun t f => t.add f.1 f.2) (around place)

def enter (t : FileTree) (place : List String) : Except PathFault Unit :=
  match t.get? place with
  | none => .error .missing
  | some .directory => .ok ()
  | some _ => .error .notDirectory

/-- One step along a path. A name has at most 255 octets. -/
def step (t : FileTree) (place : List String) (part : String) : Except PathFault (List String) := do
  t.enter place
  if part = "" ∨ part = "." then return place
  else if part = ".." then return place.dropLast
  else if 255 < part.utf8ByteSize then throw .nameTooLong
  else return place ++ [part]

/-- A path is some text without a zero, of fewer than 4096 octets. -/
def accept (p : String) : Except PathFault Unit :=
  if p.toList.contains '\x00' then .error .zeroCharacter
  else if p.isEmpty then .error .missing
  else if 4096 ≤ p.utf8ByteSize then .error .nameTooLong
  else .ok ()

def locate (t : FileTree) (p : String) : Except PathFault (List String) := do
  accept p
  (Path.parts p).foldlM t.step (t.start p)

def look (t : FileTree) (p : String) : Except PathFault Entry := do
  match t.get? (← t.locate p) with
  | some e => return e
  | none => throw .missing

def exists? (t : FileTree) (p : String) : Bool := (t.look p).isOk

def read (t : FileTree) (p : String) : Except PathFault String := do
  match ← t.look p with
  | .text s => return s
  | .directory => throw .isDirectory
  | .binary => throw .notText

/-- The directory above has to be there. No file is made behind a closing slash. -/
def write (t : FileTree) (p content : String) : Except PathFault FileTree := do
  accept p
  let parts := Path.parts p
  let steps := (parts.reverse.dropWhile (·.isEmpty)).reverse
  match steps.getLast? with
  | none => throw .isDirectory
  | some last =>
    let above ← steps.dropLast.foldlM t.step (t.start p)
    t.enter above
    if steps ≠ parts then throw .isDirectory
    let place ← t.step above last
    if t.get? place = some .directory then throw .isDirectory
    return t.set place (.text content)

end FileTree
end Reprieve
