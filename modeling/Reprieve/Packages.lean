import Reprieve.Datum.Document
import Reprieve.Json.Read
import Reprieve.SortedMap

/-! Installed packages, by their names in lower case. A package that replaces or
provides others counts for them too. -/
namespace Reprieve

structure Packages where
  set : SortedMap String Unit := .empty
  deriving Inhabited

namespace Packages

def ofNames (names : List String) : Packages :=
  ⟨.ofList (names.map fun n => (n.folded, ()))⟩

def names (p : Packages) : List String := p.set.keys

def size (p : Packages) : Nat := p.set.size

def isEmpty (p : Packages) : Bool := p.set.isEmpty

def isInstalled (p : Packages) (name : String) : Bool := (p.set.get? name.folded).isSome

structure Entry where
  name : String
  replaced : List String := []
  provided : List String := []

def Entry.names (e : Entry) : List String := e.name :: (e.replaced ++ e.provided)

structure Entry.Draft where
  name : Option String := none
  replaced : List String := []
  provided : List String := []

def keys? : Datum → Option (List String)
  | .map entries => entries.mapM fun e => Datum.document.text e.1
  | _ => none

def Entry.ofDatum? (v : Datum) : Option Entry := do
  let d := Datum.document
  let e ← d.record (σ := Entry.Draft)
    [("name", fun v e => return { e with name := some (← d.text v) }),
     ("replace", fun v e => return { e with replaced := ← keys? v }),
     ("provide", fun v e => return { e with provided := ← keys? v })] {} v
  return ⟨← e.name, e.replaced, e.provided⟩

def entries? (v : Datum) : Option (List Entry) := Datum.document.list Entry.ofDatum? v

/-- The entries stand under a key of the document, or are the document. -/
def installed? (v : Datum) : Option (List Entry) :=
  match v with
  | .map _ =>
    (Datum.document.record (σ := Option (List Entry))
      [("packages", fun v _ => return some (← entries? v))] none v).join
  | v => entries? v

def ofEntries (es : List Entry) : Packages := ofNames (es.flatMap Entry.names)

def ofDatum? (v : Datum) : Option Packages := (installed? v).map ofEntries

/-- What the document says is judged before what follows it. -/
def ofJson (text : String) : Except Json.Fault Packages :=
  Json.read (fun p => do
    match ofDatum? (← Json.document.datum p) with
    | some p => return p
    | none => throw .mistyped) text

end Packages
end Reprieve
