/-! The decimal of fewest digits that reads back as a given double. A positive
finite double is `significand · 2 ^ (scale - 1074)`; everything is decided in
whole numbers, counted in quarters of the smallest double. -/
namespace Reprieve.Number

structure Binary64 where
  significand : Nat
  scale : Nat
  deriving DecidableEq, Repr

structure Decimal where
  digits : Nat
  exponent : Int
  deriving DecidableEq, Repr

namespace Binary64

def ofBits (bits : Nat) : Binary64 :=
  let raised := bits / Nat.pow 2 52 % Nat.pow 2 11
  let fraction := bits % Nat.pow 2 52
  if raised = 0 then ⟨fraction, 0⟩ else ⟨Nat.pow 2 52 + fraction, raised - 1⟩

def unit : Nat := Nat.pow 2 1076

def value (x : Binary64) : Nat := 4 * x.significand * Nat.pow 2 x.scale

def above (x : Binary64) : Nat := (4 * x.significand + 2) * Nat.pow 2 x.scale

/-- Half way down to the double before, which is nearer below a power of two. -/
def below (x : Binary64) : Nat :=
  (4 * x.significand - if x.significand = Nat.pow 2 52 ∧ 0 < x.scale then 1 else 2)
    * Nat.pow 2 x.scale

/-- A decimal reads back as `x`: it lies between the two half ways, ends
included when the significand is even. -/
def admits (x : Binary64) (d : Decimal) : Bool :=
  let n := d.digits * Nat.pow 10 d.exponent.toNat * unit
  let low := x.below * Nat.pow 10 (-d.exponent).toNat
  let high := x.above * Nat.pow 10 (-d.exponent).toNat
  if x.significand % 2 = 0 then low ≤ n && n ≤ high else low < n && n < high

def lift : Nat → Nat → Nat
  | 0, _ => 0
  | fuel + 1, v => if unit ≤ v then 0 else lift fuel (10 * v) + 1

def drop : Nat → Nat → Nat
  | 0, _ => 0
  | fuel + 1, n => if n < 10 then 0 else drop fuel (n / 10) + 1

def magnitude (x : Binary64) : Int :=
  if unit ≤ x.value then drop 400 (x.value / unit) else -(lift 400 x.value : Int)

/-- The nearer of the two neighbours with `n` digits that read back. -/
def onGrid (x : Binary64) (n : Nat) : Option Decimal :=
  let k := x.magnitude + 1 - n
  let num := x.value * Nat.pow 10 (-k).toNat
  let den := unit * Nat.pow 10 k.toNat
  let c := num / den
  let r := num % den
  match x.admits ⟨c, k⟩, x.admits ⟨c + 1, k⟩ with
  | true, true =>
    if 2 * r < den ∨ (2 * r = den ∧ c % 2 = 0) then some ⟨c, k⟩ else some ⟨c + 1, k⟩
  | true, false => some ⟨c, k⟩
  | false, true => some ⟨c + 1, k⟩
  | false, false => none

/-- Seventeen digits always suffice. -/
def shortest (x : Binary64) : Decimal :=
  ((List.range 17).findSome? fun n => x.onGrid (n + 1)).getD ⟨0, 0⟩

end Binary64

def Decimal.normal (d : Decimal) : List Char × Int :=
  let text := (Nat.toDigits 10 d.digits)
  ((text.reverse.dropWhile (· == '0')).reverse, text.length + d.exponent - 1)

end Reprieve.Number
