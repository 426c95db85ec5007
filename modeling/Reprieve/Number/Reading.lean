import Reprieve.Text

/-! Decimal floats as text, read to the nearest double. -/
namespace Reprieve.Number

def places : Nat := 400

def ofDecimal (significand : Nat) (e : Int) : Float :=
  let lead : Int := (Nat.toDigits 10 significand).length + e
  if significand = 0 ∨ lead < -places then 0
  else if places < lead then 1 / 0
  else .ofScientific significand (e < 0) e.natAbs

def exponent? : List Char → Option Int
  | [] => some 0
  | e :: r =>
    if e == 'e' || e == 'E' then
      match r with
      | '-' :: r => (Text.numeral? 10 r).map fun n => -n
      | '+' :: r => (Text.numeral? 10 r).map fun n => n
      | r => (Text.numeral? 10 r).map fun n => n
    else none

def magnitude? (cs : List Char) : Option Float := do
  let whole := cs.takeWhile Text.isDigit
  let (part, r) := match cs.dropWhile Text.isDigit with
    | '.' :: r => (r.takeWhile Text.isDigit, r.dropWhile Text.isDigit)
    | r => ([], r)
  if whole.isEmpty && part.isEmpty then none
  let e ← exponent? r
  return ofDecimal (Text.numeral 10 (whole ++ part)) (e - part.length)

def ofText? : List Char → Option Float
  | '-' :: r => (magnitude? r).map (-·)
  | '+' :: r => magnitude? r
  | cs => magnitude? cs

end Reprieve.Number
