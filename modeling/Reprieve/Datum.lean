/-! A value of any data format, with map entries in document order. Keys are
values too: some formats have keys that are no text. -/
namespace Reprieve

inductive Datum where
  | null
  | bool (b : Bool)
  | int (n : Int)
  | float (f : Float)
  | text (s : String)
  | list (items : List Datum)
  | map (entries : List (Datum × Datum))
  deriving Inhabited, Repr

namespace Datum

def fields (entries : List (String × Datum)) : Datum :=
  .map (entries.map fun e => (.text e.1, e.2))

def optional (f : α → Datum) : Option α → Datum
  | none => .null
  | some a => f a

def get? (key : String) : Datum → Option Datum
  | .map entries =>
    (entries.reverse.find? fun e => match e.1 with | .text k => k == key | _ => false).map (·.2)
  | _ => none

end Datum
end Reprieve
