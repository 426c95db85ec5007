import Reprieve.Number.Shortest

/-! How a float is written: the fewest digits that read back, positional where
the leading exponent lies between two bounds and scientific elsewhere. -/
namespace Reprieve.Number

structure Style where
  least : Int
  greatest : Int
  mark : String
  plus : String

/-- Positional from 1e-5 to below 1e16, an exponent always signed. -/
def documentStyle : Style := ⟨-5, 15, "e", "+"⟩

def zeros (n : Nat) : List Char := List.replicate n '0'

/-- At least one digit stands on both sides of the point. -/
def positional (digits : List Char) (lead : Int) : List Char :=
  if lead < 0 then '0' :: '.' :: (zeros (-lead - 1).toNat ++ digits)
  else
    let whole := lead.toNat + 1
    let part := digits.drop whole
    digits.take whole ++ zeros (whole - digits.length) ++ '.' ::
      (if part.isEmpty then ['0'] else part)

def scientific (style : Style) (digits : List Char) (lead : Int) : List Char :=
  let part := digits.drop 1
  digits.take 1 ++ (if part.isEmpty then [] else '.' :: part) ++ style.mark.toList
    ++ (if lead < 0 then ['-'] else style.plus.toList) ++ Nat.toDigits 10 lead.natAbs

def magnitudeText (style : Style) (bits : Nat) : List Char :=
  let x := Binary64.ofBits bits
  if x.significand = 0 then "0.0".toList
  else
    let (digits, lead) := x.shortest.normal
    if style.least ≤ lead && lead ≤ style.greatest then positional digits lead
    else scientific style digits lead

def Style.write? (style : Style) (f : Float) : Option String :=
  if f.isNaN || f.isInf then none
  else
    let bits := f.toBits.toNat
    some (.ofList ((if bits < Nat.pow 2 63 then [] else ['-'])
      ++ magnitudeText style (bits % Nat.pow 2 63)))

end Reprieve.Number
