import Reprieve.Text

/-! The shape of a text read as JSON, up to the place where it stops being JSON.
Nothing is judged here beyond the shape: neither a number's size, nor the sense
of an escape, nor the depth. A reader with a type in mind walks the outline in
document order, so the first fault it meets is the first one in the text. -/
namespace Reprieve.Json

inductive Break where
  | ended
  | cutWord
  | cutNumber
  | malformed
  deriving DecidableEq, Repr

/-- A number as written. The digits of a part are never empty. -/
structure Numeral where
  negative : Bool
  whole : List Char
  part : Option (List Char)
  exponent : Option (Bool × List Char)
  deriving Repr

/-- A character of a quoted text, or the code that a four digit escape gives. -/
inductive Glyph where
  | char (c : Char)
  | code (n : Nat)
  deriving Repr

structure Quoted where
  glyphs : List Glyph
  stop : Option Break
  deriving Repr

/-- A member without a key holds what stands in the key's place. Inside a list or
an object a broken item is the last one. -/
inductive Outline where
  | null
  | bool (b : Bool)
  | number (n : Numeral)
  | text (q : Quoted)
  | list (items : List Outline) (stop : Option Break)
  | object (members : List (Option Quoted × Outline)) (stop : Option Break)
  | broken (b : Break)
  deriving Repr

abbrev Rest := Option (List Char)

def isSpace (c : Char) : Bool := c == ' ' || c == '\t' || c == '\n' || c == '\r'

def skipSpace (cs : List Char) : List Char := cs.dropWhile isSpace

def Quoted.push (g : Glyph) (r : Quoted × Rest) : Quoted × Rest :=
  (⟨g :: r.1.glyphs, r.1.stop⟩, r.2)

def Quoted.cut (b : Break) : Quoted × Rest := (⟨[], some b⟩, none)

/-- Fewer than four octets after the letter of a code are the end of the text. -/
def shortCode (cs : List Char) : Break :=
  if Text.octets cs < 4 then .ended else .malformed

def Quoted.read : List Char → Quoted × Rest
  | [] => cut .ended
  | '"' :: r => (⟨[], none⟩, some r)
  | '\\' :: 'u' :: a :: b :: c :: d :: r =>
    if [a, b, c, d].all Text.isHexDigit then push (.code (Text.numeral 16 [a, b, c, d])) (read r)
    else cut .malformed
  | '\\' :: 'u' :: r => cut (shortCode r)
  | '\\' :: 'n' :: r => push (.char '\n') (read r)
  | '\\' :: 't' :: r => push (.char '\t') (read r)
  | '\\' :: 'r' :: r => push (.char '\r') (read r)
  | '\\' :: 'b' :: r => push (.char '\x08') (read r)
  | '\\' :: 'f' :: r => push (.char '\x0c') (read r)
  | '\\' :: '"' :: r => push (.char '"') (read r)
  | '\\' :: '\\' :: r => push (.char '\\') (read r)
  | '\\' :: '/' :: r => push (.char '/') (read r)
  | '\\' :: r => cut (if r.isEmpty then .ended else .malformed)
  | c :: r => if c.toNat < 32 then cut .malformed else push (.char c) (read r)

def missingDigits (r : List Char) : Outline × Rest :=
  (.broken (if r.isEmpty then .cutNumber else .malformed), none)

def readExponent (n : Numeral) : List Char → Outline × Rest
  | e :: r =>
    if e == 'e' || e == 'E' then
      let (negative, r) := match r with
        | '+' :: r => (false, r)
        | '-' :: r => (true, r)
        | r => (false, r)
      let digits := r.takeWhile Text.isDigit
      let r := r.dropWhile Text.isDigit
      if digits.isEmpty then missingDigits r
      else (.number { n with exponent := some (negative, digits) }, some r)
    else (.number n, some (e :: r))
  | [] => (.number n, some [])

def readPart (n : Numeral) : List Char → Outline × Rest
  | '.' :: r =>
    let digits := r.takeWhile Text.isDigit
    let r := r.dropWhile Text.isDigit
    if digits.isEmpty then missingDigits r else readExponent { n with part := some digits } r
  | r => readExponent n r

/-- A zero stands alone before the point. -/
def readNumber (negative : Bool) : List Char → Outline × Rest
  | '0' :: r =>
    if (r.head?.map Text.isDigit).getD false then (.broken .malformed, none)
    else readPart ⟨negative, ['0'], none, none⟩ r
  | r =>
    let digits := r.takeWhile Text.isDigit
    if digits.isEmpty then missingDigits r
    else readPart ⟨negative, digits, none, none⟩ (r.dropWhile Text.isDigit)

def readWord (o : Outline) : List Char → List Char → Outline × Rest
  | [], r => (o, some r)
  | _ :: _, [] => (.broken .cutWord, none)
  | w :: ws, c :: r => if w == c then readWord o ws r else (.broken .malformed, none)

mutual

/-- Every step takes a character or stops, so twice the length is fuel enough. -/
def Outline.read : Nat → List Char → Outline × Rest
  | 0, _ => (.broken .malformed, none)
  | fuel + 1, cs =>
    match skipSpace cs with
    | [] => (.broken .ended, none)
    | 'n' :: r => readWord .null "ull".toList r
    | 't' :: r => readWord (.bool true) "rue".toList r
    | 'f' :: r => readWord (.bool false) "alse".toList r
    | '"' :: r => let (q, rest) := Quoted.read r; (.text q, rest)
    | '-' :: r => readNumber true r
    | '[' :: r =>
      match skipSpace r with
      | ']' :: r => (.list [] none, some r)
      | [] => (.list [] (some .ended), none)
      | r => let (items, stop, rest) := readItems fuel r; (.list items stop, rest)
    | '\x7b' :: r =>
      match skipSpace r with
      | '\x7d' :: r => (.object [] none, some r)
      | r => let (members, stop, rest) := readMembers fuel r; (.object members stop, rest)
    | c :: r => if Text.isDigit c then readNumber false (c :: r) else (.broken .malformed, none)

def readItems : Nat → List Char → List Outline × Option Break × Rest
  | 0, _ => ([], some .malformed, none)
  | fuel + 1, cs =>
    match Outline.read fuel cs with
    | (item, none) => ([item], some .malformed, none)
    | (item, some r) =>
      match skipSpace r with
      | ']' :: r => ([item], none, some r)
      | ',' :: r => let (items, stop, rest) := readItems fuel r; (item :: items, stop, rest)
      | [] => ([item], some .ended, none)
      | _ => ([item], some .malformed, none)

def readMembers : Nat → List Char → List (Option Quoted × Outline) × Option Break × Rest
  | 0, _ => ([], some .malformed, none)
  | fuel + 1, cs =>
    match skipSpace cs with
    | '"' :: r =>
      match Quoted.read r with
      | (key, none) => ([(some key, .broken .malformed)], some .malformed, none)
      | (key, some r) =>
        match skipSpace r with
        | ':' :: r =>
          match Outline.read fuel r with
          | (value, none) => ([(some key, value)], some .malformed, none)
          | (value, some r) =>
            match skipSpace r with
            | '\x7d' :: r => ([(some key, value)], none, some r)
            | ',' :: r =>
              let (members, stop, rest) := readMembers fuel r
              ((some key, value) :: members, stop, rest)
            | [] => ([(some key, value)], some .ended, none)
            | _ => ([(some key, value)], some .malformed, none)
        | [] => ([(some key, .broken .ended)], some .malformed, none)
        | _ => ([(some key, .broken .malformed)], some .malformed, none)
    | r => ([(none, (Outline.read fuel r).1)], some .malformed, none)

end

def Outline.ofText (cs : List Char) : Outline × Rest := Outline.read (2 * cs.length + 2) cs

end Reprieve.Json
