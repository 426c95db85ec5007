import Reprieve.Datum
import Reprieve.Number.Reading
import Reprieve.Yaml.Node

/-! What a scalar means. A plain one may be null, a truth value or a number; digits
behind a zero are a text. A whole number has at most 128 bits, and one that has
more than 64 is no value at all. -/
namespace Reprieve.Yaml

namespace Schema

def isNullWord (s : String) : Bool := ["null", "Null", "NULL", "~"].contains s

def isNull (s : String) : Bool := s.isEmpty || isNullWord s

def bool? (s : String) : Option Bool :=
  if ["true", "True", "TRUE"].contains s then some true
  else if ["false", "False", "FALSE"].contains s then some false
  else none

def base? : Char → Option Nat
  | 'x' => some 16
  | 'o' => some 8
  | 'b' => some 2
  | _ => none

def magnitude? (cs : List Char) : Option Nat :=
  match cs with
  | '0' :: m :: r =>
    match base? m with
    | some b => Text.numeral? b r
    | none => Text.numeral? 10 cs
  | _ => Text.numeral? 10 cs

def isZeroPadded (cs : List Char) : Bool :=
  let cs := match cs with
    | '-' :: r | '+' :: r => r
    | cs => cs
  match cs with
  | '0' :: r => !r.isEmpty && r.all Text.isDigit
  | _ => false

def int? (cs : List Char) : Option Int :=
  if isZeroPadded cs then none
  else
    match cs with
    | '-' :: r => (magnitude? r).bind fun n => if n ≤ Nat.pow 2 127 then some (-n) else none
    | '+' :: r => natural? r
    | cs => natural? cs
where
  natural? (cs : List Char) : Option Int :=
    (magnitude? cs).bind fun n => if n < Nat.pow 2 128 then some n else none

def float? (s : String) : Option Float :=
  let cs := s.toList
  if [".inf", ".Inf", ".INF", "+.inf", "+.Inf", "+.INF"].contains s then some (1 / 0)
  else if ["-.inf", "-.Inf", "-.INF"].contains s then some (-1 / 0)
  else if [".nan", ".NaN", ".NAN"].contains s then some (0 / 0)
  else
    match Number.ofText? cs with
    | some f => if f.isFinite then some f else none
    | none => none

/-- A whole number that is too wide for a value gives none. -/
def ofInt? (n : Int) : Option Datum :=
  if -Int.pow 2 63 ≤ n ∧ n < Int.pow 2 64 then some (.int n) else none

def ofPlain? (s : String) : Option Datum :=
  let cs := s.toList
  if isNull s then some .null
  else
    match bool? s, int? cs with
    | some b, _ => some (.bool b)
    | none, some n => ofInt? n
    | none, none =>
      if isZeroPadded cs then some (.text s) else some (((float? s).map .float).getD (.text s))

/-- A tag of the schema demands its kind, and a name of the document's own is none
that a value can have. A mark with a name that is no text leaves a plain scalar as
it is; with any other tag a scalar is a text. -/
def ofScalar? (tag : Option TypeTag) (style : Style) (s : String) : Option Datum :=
  match tag with
  | none => if style = .plain then ofPlain? s else some (.text s)
  | some t =>
    if t.localName?.isSome then none
    else if t = .bool then (bool? s).map .bool
    else if t = .int then (int? s.toList).bind ofInt?
    else if t = .float then (float? s).map .float
    else if t = .null then if isNullWord s then some .null else none
    else if t.isLocal && style = .plain then ofPlain? s
    else some (.text s)

end Schema
end Reprieve.Yaml
