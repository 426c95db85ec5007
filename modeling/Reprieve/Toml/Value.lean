import Reprieve.Number.Reading

/-! Values of a TOML text, and the tables that its lines build up. -/
namespace Reprieve.Toml

/-- How a table came to be: under a header of its own, on the way to another
header, by a dotted key, or in braces, which close it. -/
inductive Origin where
  | header
  | passage
  | dotted
  | closed
  deriving DecidableEq, Repr

/-- A date or a time is kept without its parts. A list that headers made grows
with every header of its name. -/
inductive Value where
  | text (s : String)
  | bool (b : Bool)
  | int (n : Int)
  | float (f : Float)
  | moment
  | list (grows : Bool) (items : List Value)
  | table (origin : Origin) (entries : List (String × Value))
  deriving Repr, Inhabited

abbrev Entries := List (String × Value)

namespace Entries

def replace (key : String) (v : Value) (es : Entries) : Entries :=
  es.map fun e => if e.1 = key then (key, v) else e

/-- A table reached along a path is changed; tables on the way that are not there
yet are made. A dotted key does not enter a table that has its own header. -/
def alter (dotted : Bool) (f : Origin → Entries → Option Entries) :
    List String → Origin → Entries → Option Entries
  | [], o, es => f o es
  | key :: path, _, es =>
    match es.lookup key with
    | none => do
      let o := if dotted then .dotted else .passage
      return es ++ [(key, .table o (← alter dotted f path o []))]
    | some (.table o sub) =>
      if o = .closed ∨ (dotted ∧ o = .header) then none
      else do return es.replace key (.table o (← alter dotted f path o sub))
    | some (.list true items) =>
      match items.getLast? with
      | some (.table o sub) => do
        let sub ← alter dotted f path o sub
        return es.replace key (.list true (items.dropLast ++ [.table o sub]))
      | _ => none
    | _ => none

/-- A key with a value, below the tables of a dotted key. Only a dotted key adds
to a table that dotted keys made. -/
def put (path : List String) (key : String) (v : Value) (es : Entries) : Option Entries :=
  es.alter true (fun o es =>
    if (o == .dotted) == path.isEmpty || (es.lookup key).isSome then none
    else some (es ++ [(key, v)])) path .header

def get? : List String → Entries → Option Value
  | [], _ => none
  | [key], es => es.lookup key
  | key :: path, es =>
    match es.lookup key with
    | some (.table _ sub) => get? path sub
    | some (.list true items) =>
      match items.getLast? with
      | some (.table _ sub) => get? path sub
      | _ => none
    | _ => none

end Entries

def Value.ofPairs : List (List String × String × Value) → Entries → Option Value
  | [], es => some (.table .closed es)
  | (path, key, v) :: r, es => (es.put path key v).bind (ofPairs r)

structure Draft where
  root : Entries := []
  path : List String := []
  grows : Bool := false
  current : Entries := []

namespace Draft

def put (d : Draft) (path : List String) (key : String) (v : Value) : Option Draft := do
  return { d with current := ← d.current.put path key v }

def settle (d : Draft) : Option Entries :=
  match d.path.getLast? with
  | none => some d.current
  | some key =>
    d.root.alter false (fun _ es =>
      if d.grows then
        match es.lookup key with
        | some (.list true items) =>
          some (es.replace key (.list true (items ++ [.table .header d.current])))
        | _ => none
      else some (es ++ [(key, .table .header d.current)])) d.path.dropLast .header

def openTable (d : Draft) (path : List String) : Option Draft := do
  let root ← d.settle
  let key ← path.getLast?
  let current := match root.get? path with
    | some (.table .passage sub) => sub
    | _ => []
  let root ← root.alter false (fun _ es =>
    match es.lookup key with
    | none => some es
    | some (.table .passage _) => some (es.filter (·.1 ≠ key))
    | some _ => none) path.dropLast .header
  return { root, path, grows := false, current }

def openItem (d : Draft) (path : List String) : Option Draft := do
  let root ← d.settle
  let key ← path.getLast?
  let root ← root.alter false (fun _ es =>
    match es.lookup key with
    | none => some (es ++ [(key, .list true [])])
    | some (.list true _) => some es
    | some _ => none) path.dropLast .header
  return { root, path, grows := true, current := [] }

end Draft
end Reprieve.Toml
