import Reprieve.Toml.Value

/-! Blanks, comments, keys and quoted texts of TOML. Every reader gives the rest of
the text behind what it took. -/
namespace Reprieve.Toml

abbrev Reader (α : Type) := List Char → Option (α × List Char)

def isBlank (c : Char) : Bool := c == ' ' || c == '\t'

def skipBlanks (cs : List Char) : List Char := cs.dropWhile isBlank

def isPrintable (c : Char) : Bool := c == '\t' || (0x20 ≤ c.toNat && c.toNat ≠ 0x7F)

def newline? : List Char → Option (List Char)
  | '\n' :: r => some r
  | '\r' :: '\n' :: r => some r
  | _ => none

def skipComment : List Char → List Char
  | '#' :: r => r.dropWhile isPrintable
  | cs => cs

def endLine? (cs : List Char) : Option (List Char) :=
  match skipComment (skipBlanks cs) with
  | [] => some []
  | r => newline? r

def skipLines : Nat → List Char → List Char
  | 0, cs => cs
  | fuel + 1, cs =>
    let r := skipComment (skipBlanks cs)
    match newline? r with
    | some r => skipLines fuel r
    | none => r

def expect (c : Char) : List Char → Option (List Char)
  | d :: r => if c = d then some r else none
  | [] => none

def code? (n : Nat) : Reader Char := fun cs =>
  let digits := cs.take n
  let v := Text.numeral 16 digits
  if digits.length = n ∧ digits.all Text.isHexDigit ∧ v.isValidChar then
    some (.ofNat v, cs.drop n)
  else none

def escape? : Reader Char
  | 'b' :: r => some ('\x08', r)
  | 't' :: r => some ('\t', r)
  | 'n' :: r => some ('\n', r)
  | 'f' :: r => some ('\x0c', r)
  | 'r' :: r => some ('\r', r)
  | '"' :: r => some ('"', r)
  | '\\' :: r => some ('\\', r)
  | 'u' :: r => code? 4 r
  | 'U' :: r => code? 8 r
  | _ => none

def push (c : Char) (p : Option (List Char × List Char)) : Option (List Char × List Char) :=
  p.map fun (cs, r) => (c :: cs, r)

def oneLine (quote : Char) : Nat → Reader (List Char)
  | 0, _ => none
  | _ + 1, [] => none
  | fuel + 1, c :: r =>
    if c = quote then some ([], r)
    else if c = '\\' ∧ quote = '"' then do
      let (x, r) ← escape? r
      push x (oneLine quote fuel r)
    else if isPrintable c then push c (oneLine quote fuel r)
    else none

def skipBreaks : Nat → List Char → List Char
  | 0, cs => cs
  | fuel + 1, cs =>
    let r := skipBlanks cs
    match newline? r with
    | some r => skipBreaks fuel r
    | none => r

/-- A text over lines. Of five quotes in a row the first two belong to it. -/
def overLines (quote : Char) : Nat → Reader (List Char)
  | 0, _ => none
  | _ + 1, [] => none
  | fuel + 1, c :: r =>
    if c = quote then
      let run := (c :: r).takeWhile (· = quote)
      if 3 ≤ run.length then
        let own := min (run.length - 3) 2
        some (run.take own, (c :: r).drop (own + 3))
      else push c (overLines quote fuel r)
    else if c = '\\' ∧ quote = '"' then
      match newline? (skipBlanks r) with
      | some r => overLines quote fuel (skipBreaks (r.length + 1) r)
      | none => do
        let (x, r) ← escape? r
        push x (overLines quote fuel r)
    else
      match newline? (c :: r) with
      | some r => push '\n' (overLines quote fuel r)
      | none => if isPrintable c then push c (overLines quote fuel r) else none

/-- A quoted text of any kind. A line end right behind three quotes is not part of it. -/
def quoted (quote : Char) : Reader String := fun cs =>
  let fuel := cs.length + 1
  let string (p : Option (List Char × List Char)) := p.map fun (x, r) => (String.ofList x, r)
  match cs with
  | a :: b :: c :: r =>
    if a = quote ∧ b = quote ∧ c = quote then
      string (overLines quote fuel ((newline? r).getD r))
    else if a = quote then string (oneLine quote fuel (b :: c :: r))
    else none
  | a :: r => if a = quote then string (oneLine quote fuel r) else none
  | [] => none

def isBareChar (c : Char) : Bool :=
  Text.isDigit c || ('A' ≤ c && c ≤ 'Z') || ('a' ≤ c && c ≤ 'z') || c == '_' || c == '-'

def simpleKey : Reader String
  | '"' :: r => (oneLine '"' (r.length + 1) r).map fun (x, r) => (.ofList x, r)
  | '\'' :: r => (oneLine '\'' (r.length + 1) r).map fun (x, r) => (.ofList x, r)
  | cs =>
    let word := cs.takeWhile isBareChar
    if word.isEmpty then none else some (.ofList word, cs.dropWhile isBareChar)

def dottedKey : Nat → Reader (List String)
  | 0, _ => none
  | fuel + 1, cs => do
    let (key, r) ← simpleKey (skipBlanks cs)
    match skipBlanks r with
    | '.' :: r => do
      let (keys, r) ← dottedKey fuel r
      return (key :: keys, r)
    | r => return ([key], r)

def depthLimit : Nat := 80

def keyPath : Reader (List String) := fun cs => do
  let (keys, r) ← dottedKey (cs.length + 1) cs
  if keys.length < depthLimit then some (keys, r) else none

end Reprieve.Toml
