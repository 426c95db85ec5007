import Reprieve.Tag.Value
import Reprieve.Text

/-! Arguments of a tag: values at positions and values under names. They are
written as a list when positions alone fill an initial segment, and as a map
otherwise, whose keys are positions and names. -/
namespace Reprieve.Tag

def positionBound : Nat := Nat.pow 2 64

inductive Slot where
  | position (i : Nat)
  | name (s : String)
  deriving DecidableEq, Repr

/-- A text of digits is a position; one plus sign and leading zeros are no hindrance. -/
def position? (s : String) : Option Nat :=
  let digits := match s.toList with
    | '+' :: r => r
    | cs => cs
  match Text.numeral? 10 digits with
  | some n => if n < positionBound then some n else none
  | none => none

/-- A negative number, a float, a truth value, null, a list and a map denote nothing. -/
def Slot.ofKey? : Datum → Option Slot
  | .int n => if 0 ≤ n ∧ n < positionBound then some (.position n.toNat) else none
  | .text s => some (match position? s with | some i => .position i | none => .name s)
  | _ => none

structure Arguments where
  positional : SortedMap Nat Value := .empty
  named : SortedMap String Value := .empty
  deriving Inhabited

namespace Arguments

def put (a : Arguments) (v : Value) : Slot → Arguments
  | .position i => { a with positional := a.positional.insert i v }
  | .name s => { a with named := a.named.insert s v }

/-- One past the highest position, which stays where it is at the bound. -/
def nextPosition (a : Arguments) : Nat :=
  match a.positional.keys.getLast? with
  | none => 0
  | some i => min (i + 1) (positionBound - 1)

def push (a : Arguments) (v : Value) : Arguments := a.put v (.position a.nextPosition)

def set (a : Arguments) (name : String) (v : Value) : Arguments := a.put v (.name name)

def at? (a : Arguments) (i : Nat) : Option Value := a.positional.get? i

def named? (a : Arguments) (name : String) : Option Value := a.named.get? name

def lookup (a : Arguments) (name : String) (i : Nat) : Option Value :=
  ((a.named? name).filter (!·.isNull)).or ((a.at? i).filter (!·.isNull))

def isEmpty (a : Arguments) : Bool := a.positional.isEmpty && a.named.isEmpty

def ofValues (vs : List Value) : Arguments :=
  { positional := .ofList (vs.zipIdx.map fun e => (e.2, e.1)) }

/-- Entries in document order; the last value of a slot stays. -/
def ofEntries (es : List (Datum × Value)) : Arguments :=
  es.foldl (fun a e => ((Slot.ofKey? e.1).map (a.put e.2)).getD a) {}

/-- Every entry needs a value that is one, also where the key denotes nothing. -/
def ofDatum? : Datum → Option Arguments
  | .list items => (Value.ofItems? items).map ofValues
  | .map entries => do
    let es ← entries.mapM fun e => do return (e.1, ← Value.ofDatum? e.2)
    return ofEntries es
  | _ => none

def isDense (a : Arguments) : Bool := a.positional.keys == List.range a.positional.size

def toDatum (a : Arguments) : Datum :=
  if a.named.isEmpty && a.isDense then .list (a.positional.values.map Value.toDatum)
  else .map (a.positional.entries.map (fun e => (.int e.1, e.2.toDatum))
    ++ a.named.entries.map (fun e => (.text e.1, e.2.toDatum)))

end Arguments
end Reprieve.Tag
