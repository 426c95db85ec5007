import Reprieve.Datum
import Reprieve.SortedMap

/-! Argument values of a tag. A whole number that does not fit 64 bits with a sign
is a float, and a map has texts for keys, in ascending order. -/
namespace Reprieve.Tag

inductive Value where
  | null
  | bool (b : Bool)
  | int (n : Int)
  | float (f : Float)
  | text (s : String)
  | list (items : List Value)
  | map (entries : List (String × Value))
  deriving Inhabited, Repr

namespace Value

def ofInt (n : Int) : Value :=
  if -Int.pow 2 63 ≤ n ∧ n < Int.pow 2 63 then .int n else .float (.ofInt n)

mutual

/-- None where a map has a key that is no text. -/
def ofDatum? : Datum → Option Value
  | .null => some .null
  | .bool b => some (.bool b)
  | .int n => some (.ofInt n)
  | .float f => some (.float f)
  | .text s => some (.text s)
  | .list items => do return .list (← ofItems? items)
  | .map entries => do return .map (SortedMap.ofList (← ofEntries? entries)).entries

def ofItems? : List Datum → Option (List Value)
  | [] => some []
  | d :: r => do return (← ofDatum? d) :: (← ofItems? r)

def ofEntries? : List (Datum × Datum) → Option (List (String × Value))
  | [] => some []
  | (.text k, d) :: r => do return (k, ← ofDatum? d) :: (← ofEntries? r)
  | _ :: _ => none

end

mutual

def toDatum : Value → Datum
  | .null => .null
  | .bool b => .bool b
  | .int n => .int n
  | .float f => .float f
  | .text s => .text s
  | .list items => .list (toItems items)
  | .map entries => .map (toEntries entries)

def toItems : List Value → List Datum
  | [] => []
  | v :: r => v.toDatum :: toItems r

def toEntries : List (String × Value) → List (Datum × Datum)
  | [] => []
  | (k, v) :: r => (.text k, v.toDatum) :: toEntries r

end

def text? : Value → Option String
  | .text s => some s
  | _ => none

def isNull : Value → Bool
  | .null => true
  | _ => false

end Value
end Reprieve.Tag
