import Reprieve.Toml.Text

/-! Numbers, dates and times of TOML. -/
namespace Reprieve.Toml

/-- Digits with single underscores between them; the text is without underscores. -/
def digitRun (isDigit : Char → Bool) : Reader (List Char)
  | c :: '_' :: r =>
    if isDigit c then
      if (r.head?.map isDigit).getD false then push c (digitRun isDigit r) else none
    else none
  | c :: r =>
    if isDigit c then
      if (r.head?.map isDigit).getD false then push c (digitRun isDigit r) else some ([c], r)
    else none
  | [] => none

def decimalDigits : Reader (List Char) := digitRun Text.isDigit

def sign : List Char → List Char × List Char
  | '+' :: r => (['+'], r)
  | '-' :: r => (['-'], r)
  | r => ([], r)

def wholeDigits : Reader (List Char)
  | '0' :: r => some (['0'], r)
  | cs => decimalDigits cs

def ofInt? (n : Int) : Option Value :=
  if -Int.pow 2 63 ≤ n ∧ n < Int.pow 2 63 then some (.int n) else none

def based (base : Nat) : Reader Value := fun cs => do
  let (ds, r) ← digitRun (fun c => Text.isHexDigit c && Text.digitValue c < base) cs
  return (← ofInt? (Text.numeral base ds), r)

def exponent : Reader (List Char) := fun cs =>
  match cs with
  | e :: r =>
    if e == 'e' || e == 'E' then do
      let (s, r) := sign r
      let (ds, r) ← decimalDigits r
      return ('e' :: s ++ ds, r)
    else some ([], cs)
  | [] => some ([], [])

/-- A point with digits, and an exponent; none of both is an integer. -/
def fraction : Reader (List Char)
  | '.' :: r => do
    let (ds, r) ← decimalDigits r
    let (e, r) ← exponent r
    return ('.' :: ds ++ e, r)
  | cs => exponent cs

/-- A number below all doubles is minus infinity; one above them all is refused. -/
def ofFloat? (cs : List Char) : Option Value := do
  let f ← Number.ofText? cs
  if f == 1 / 0 then none else some (.float f)

def decimal (s : List Char) : Reader Value := fun cs => do
  let (whole, r) ← wholeDigits cs
  let (part, r) ← fraction r
  if part.isEmpty then
    let n : Int := Text.numeral 10 whole
    return (← ofInt? (if s = ['-'] then -n else n), r)
  else return (← ofFloat? (s ++ whole ++ part), r)

def special (s : List Char) (cs : List Char) : Option (Value × List Char) :=
  match Text.after? "inf".toList cs with
  | some r => some (.float (if s = ['-'] then -(1 / 0) else 1 / 0), r)
  | none => (Text.after? "nan".toList cs).map fun r => (.float (0 / 0), r)

def number : Reader Value := fun cs =>
  match cs with
  | '0' :: 'x' :: r => based 16 r
  | '0' :: 'o' :: r => based 8 r
  | '0' :: 'b' :: r => based 2 r
  | _ =>
    let (s, r) := sign cs
    (special s r).orElse fun _ => decimal s r

def fixed (n low high : Nat) : Reader Nat := fun cs =>
  let ds := cs.take n
  let v := Text.numeral 10 ds
  if ds.length = n ∧ ds.all Text.isDigit ∧ low ≤ v ∧ v ≤ high then some (v, cs.drop n) else none

def daysIn (year month : Nat) : Nat :=
  if month = 2 then
    if year % 4 = 0 ∧ (year % 100 ≠ 0 ∨ year % 400 = 0) then 29 else 28
  else if month = 4 ∨ month = 6 ∨ month = 9 ∨ month = 11 then 30
  else 31

def date (cs : List Char) : Option (List Char) := do
  let (year, r) ← fixed 4 0 9999 cs
  let r ← expect '-' r
  let (month, r) ← fixed 2 1 12 r
  let r ← expect '-' r
  return (← fixed 2 1 (daysIn year month) r).2

def time (cs : List Char) : Option (List Char) := do
  let (_, r) ← fixed 2 0 23 cs
  let r ← expect ':' r
  let (_, r) ← fixed 2 0 59 r
  let r ← expect ':' r
  let (_, r) ← fixed 2 0 60 r
  match r with
  | '.' :: r => if (r.takeWhile Text.isDigit).isEmpty then none else some (r.dropWhile Text.isDigit)
  | r => some r

def zone (cs : List Char) : Option (List Char) :=
  match cs with
  | 'Z' :: r | 'z' :: r => some r
  | '+' :: r | '-' :: r => do
    let (_, r) ← fixed 2 0 23 r
    let r ← expect ':' r
    return (← fixed 2 0 59 r).2
  | r => some r

def moment (cs : List Char) : Option (List Char) :=
  match date cs with
  | some r =>
    match r with
    | d :: t =>
      if d == 'T' || d == 't' || d == ' ' then
        match time t with
        | some r => zone r
        | none => some r
      else some r
    | [] => some r
  | none => time cs

/-- What begins like a date or a time has to be one. -/
def isMoment (cs : List Char) : Bool :=
  let ds := (cs.takeWhile Text.isDigit).length
  (ds == 4 && (cs.drop 4).head? == some '-') || (ds == 2 && (cs.drop 2).head? == some ':')

def numeric : Reader Value := fun cs =>
  if isMoment cs then (moment cs).map fun r => (.moment, r) else number cs

end Reprieve.Toml
