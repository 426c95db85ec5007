import Reprieve.Text

/-! A place in a YAML text, and the characters that have a part to play there. -/
namespace Reprieve.Yaml

/-- No other character may stand in a text at all. -/
def isAllowed (c : Char) : Bool :=
  let n := c.toNat
  n == 0x9 || n == 0xA || n == 0xD || (0x20 ≤ n && n ≤ 0x7E) || n == 0x85
    || (0xA0 ≤ n && n ≤ 0xD7FF) || (0xE000 ≤ n && n ≤ 0xFFFD) || 0x10000 ≤ n

def isBlank (c : Char) : Bool := c == ' ' || c == '\t'

def isBreak (c : Char) : Bool :=
  c == '\n' || c == '\r' || c == '\u0085' || c == '\u2028' || c == '\u2029'

def isSpace (c : Char) : Bool := isBlank c || isBreak c

def isWordChar (c : Char) : Bool :=
  Text.isDigit c || ('A' ≤ c && c ≤ 'Z') || ('a' ≤ c && c ≤ 'z') || c == '_' || c == '-'

def isFlowMark (c : Char) : Bool := c == ',' || c == '[' || c == ']' || c == '\x7b' || c == '\x7d'

def byteOrderMark : Char := '\ufeff'

def atSpace : List Char → Bool
  | [] => true
  | c :: _ => isSpace c

def atBreak : List Char → Bool
  | [] => true
  | c :: _ => isBreak c

def startsWith (p : Char → Bool) : List Char → Bool
  | [] => false
  | c :: _ => p c

/-- The index counts octets, the column characters. The size of the whole text is
fuel enough for a walk from any place in it. -/
structure Cursor where
  rest : List Char
  size : Nat
  index : Nat := 0
  line : Nat := 0
  column : Nat := 0

namespace Cursor

def skip (c : Cursor) (n : Nat) : Cursor :=
  { c with
    rest := c.rest.drop n
    index := c.index + Text.octets (c.rest.take n)
    column := c.column + n }

def skipWhile (p : Char → Bool) (c : Cursor) : Cursor := c.skip (c.rest.takeWhile p).length

/-- Past a break, with the character that stands for it in a scalar. -/
def newline (c : Cursor) : Option (Char × Cursor) :=
  let next (n : Nat) : Cursor := { c.skip n with line := c.line + 1, column := 0 }
  match c.rest with
  | '\r' :: '\n' :: _ => some ('\n', next 2)
  | '\u2028' :: _ => some ('\u2028', next 1)
  | '\u2029' :: _ => some ('\u2029', next 1)
  | b :: _ => if isBreak b then some ('\n', next 1) else none
  | [] => none

def skipNewline (c : Cursor) : Cursor := (c.newline.map (·.2)).getD c

def endLine (c : Cursor) : Option Cursor :=
  let c := c.skipWhile isBlank
  let c := if startsWith (· == '#') c.rest then c.skipWhile (!isBreak ·) else c
  if atBreak c.rest then some c.skipNewline else none

def atDocumentMark (c : Cursor) : Bool :=
  c.column == 0 && match c.rest with
    | '-' :: '-' :: '-' :: r => atSpace r
    | '.' :: '.' :: '.' :: r => atSpace r
    | _ => false

end Cursor

/-- Blanks and breaks between two pieces of a scalar. A first break that is a line
feed folds: into a blank if no other follows, else away. -/
structure Gap where
  blanks : List Char := []
  broken : Bool := false
  first : List Char := []
  more : List Char := []

namespace Gap

def text (g : Gap) : List Char :=
  if !g.broken then g.blanks
  else if g.first == ['\n'] then if g.more.isEmpty then [' '] else g.more
  else g.first ++ g.more

/-- Blanks count only before the first break. After it no tab may stand left of
the column `edge`. -/
def read (edge : Nat) : Nat → Gap → Cursor → Option (Gap × Cursor)
  | 0, _, _ => none
  | fuel + 1, g, c =>
    match c.newline with
    | some (b, d) =>
      read edge fuel (if g.broken then { g with more := g.more ++ [b] }
        else { broken := true, first := [b] }) d
    | none =>
      match c.rest with
      | ch :: _ =>
        if !isBlank ch then some (g, c)
        else if g.broken then
          if ch == '\t' && c.column < edge then none else read edge fuel g (c.skip 1)
        else read edge fuel { g with blanks := g.blanks ++ [ch] } (c.skip 1)
      | [] => some (g, c)

end Gap
end Reprieve.Yaml
