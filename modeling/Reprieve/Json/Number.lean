import Reprieve.Json.Outline
import Reprieve.Datum

/-! The value of a JSON number. A number without point and exponent that fits is
an integer. Otherwise as many digits as fit 64 bits are kept, and the power of
ten is applied in one float operation at a time, so the last place may differ
from the nearest double. -/
namespace Reprieve.Json

def maxSignificand : Nat := Nat.pow 2 64 - 1

/-- The significand, and the number of digits that it had no room for. -/
def wholeDigits : Nat → List Char → Nat × Nat
  | s, [] => (s, 0)
  | s, c :: r =>
    let t := s * 10 + Text.digitValue c
    if t ≤ maxSignificand then wholeDigits t r else (s, r.length + 1)

def partDigits : Nat → List Char → Nat × Nat
  | s, [] => (s, 0)
  | s, c :: r =>
    let t := s * 10 + Text.digitValue c
    if t ≤ maxSignificand then let (s, n) := partDigits t r; (s, n + 1) else (s, 0)

def power (n : Nat) : Float := Float.ofScientific 1 false n

/-- Down by a power of ten, by 308 places at most in one division. -/
def shrink (f : Float) (n : Nat) : Float :=
  if n ≤ 308 then f / power n
  else if f == 0 then f
  else shrink (f / power 308) (n - 308)
termination_by n

def scale? (f : Float) (e : Int) : Option Float :=
  if e < 0 then some (shrink f e.natAbs)
  else if 308 < e then if f == 0 then some f else none
  else
    let g := f * power e.toNat
    if g.isInf then none else some g

def signed (negative : Bool) (f : Float) : Float := if negative then -f else f

/-- An exponent with more than 31 bits decides alone. -/
def Numeral.float? (n : Numeral) : Option Float :=
  let (s, dropped) := wholeDigits 0 n.whole
  let (s, taken) := partDigits s (n.part.getD [])
  let e : Int := dropped - taken
  let f? := match n.exponent with
    | none => scale? (.ofNat s) e
    | some (negative, digits) =>
      let x := Text.numeral 10 digits
      if x < Nat.pow 2 31 then scale? (.ofNat s) (if negative then e - x else e + x)
      else if s = 0 || negative then some 0
      else none
  f?.map (signed n.negative)

/-- None when the number is out of range. Minus zero is a float. -/
def Numeral.value? (n : Numeral) : Option Datum :=
  let (s, dropped) := wholeDigits 0 n.whole
  if n.part.isNone && n.exponent.isNone && dropped == 0 then
    if !n.negative then some (.int s)
    else if 0 < s && s ≤ Nat.pow 2 63 then some (.int (-s))
    else some (.float (-.ofNat s))
  else n.float?.map .float

end Reprieve.Json
