/-! Paths as text, with slashes between their parts. -/
namespace Reprieve.Path

def isAbsolute (p : String) : Bool := p.toList.head? == some '/'

/-- An absolute path stands for itself. A path joined to an empty one keeps a
slash at the end of the base. -/
def join (base p : String) : String :=
  if isAbsolute p || base.isEmpty then p
  else if base.toList.getLast? == some '/' then base ++ p
  else base ++ "/" ++ p

def parts (p : String) : List String := p.splitOn "/"

def fileName? (p : String) : Option String :=
  match ((parts p).filter fun s => s ≠ "" ∧ s ≠ ".").getLast? with
  | some ".." => none
  | s => s

def extensionChars? (name : List Char) : Option (List Char) :=
  let r := name.reverse
  let ext := r.takeWhile (· ≠ '.')
  match r.drop ext.length with
  | '.' :: _ :: _ => some ext.reverse
  | _ => none

def extension (p : String) : String :=
  match (fileName? p).bind fun n => extensionChars? n.toList with
  | some e => .ofList e
  | none => ""

end Reprieve.Path
