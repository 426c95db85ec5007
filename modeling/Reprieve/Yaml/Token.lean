import Reprieve.Yaml.Scalar
import Reprieve.Yaml.TypeTag

/-! The tokens of a YAML text. Indentation becomes tokens that open and close
blocks. A plain or quoted scalar, an anchor, a tag or a flow collection may turn
out to be a key when a colon follows on the same line; the place where its key
token would go is remembered beside the tokens until then. -/
namespace Reprieve.Yaml

inductive Token where
  | streamEnd
  | version (major minor : Nat)
  | handle (name : List Char) (start : List UInt8)
  | documentStart
  | documentEnd
  | blockList
  | blockMapping
  | blockEnd
  | flowList
  | flowListEnd
  | flowMapping
  | flowMappingEnd
  | blockEntry
  | flowEntry
  | key
  | value
  | alias (name : List Char)
  | anchor (name : List Char)
  | tag (handle : List Char) (suffix : List UInt8)
  | scalar (style : Style) (text : List Char)
  deriving DecidableEq, Repr

/-- Where a key may begin. A required one has to become a key. -/
structure PendingKey where
  number : Nat
  required : Bool
  index : Nat
  line : Nat
  column : Nat

/-- Tokens stand latest first. Of the pending keys there is one place for each
flow collection that is open, the innermost first, and one for the block around. -/
structure Scan where
  cursor : Cursor
  tokens : List Token := []
  count : Nat := 0
  indent : Int := -1
  indents : List Int := []
  keys : List (Option PendingKey) := [none]
  keyAllowed : Bool := true

namespace Scan

def flow (s : Scan) : Bool := 1 < s.keys.length

def emit (t : Token) (s : Scan) : Scan :=
  { s with tokens := t :: s.tokens, count := s.count + 1 }

def emitAt (number : Nat) (t : Token) (s : Scan) : Scan :=
  let later := s.count - number
  { s with
    tokens := s.tokens.take later ++ t :: s.tokens.drop later
    count := s.count + 1 }

def skip (n : Nat) (s : Scan) : Scan := { s with cursor := s.cursor.skip n }

def setKey (k : Option PendingKey) (s : Scan) : Scan := { s with keys := k :: s.keys.tail }

def allowKey (b : Bool) (s : Scan) : Scan := { s with keyAllowed := b }

/-- A required key that is given up is a fault. -/
def dropKey (s : Scan) : Option Scan :=
  match s.keys.head?.join with
  | some k => if k.required then none else some (s.setKey none)
  | none => some s

def saveKey (s : Scan) : Option Scan :=
  if !s.keyAllowed then some s
  else
    let c := s.cursor
    let required := !s.flow && s.indent == c.column
    (s.dropKey).map (·.setKey (some ⟨s.count, required, c.index, c.line, c.column⟩))

/-- A key lies on one line and within 1024 octets. -/
def PendingKey.isStale (k : PendingKey) (c : Cursor) : Bool :=
  k.line < c.line || k.index + 1024 < c.index

def dropStaleKeys (s : Scan) : Option Scan := do
  let keys ← s.keys.mapM fun
    | some k =>
      if PendingKey.isStale k s.cursor then if k.required then none else some none
      else some (some k)
    | none => some none
  return { s with keys }

def closeTo (column : Int) (s : Scan) : Scan :=
  let rec go (s : Scan) : List Int → Scan
    | [] => s
    | i :: is =>
      if column < s.indent then go { s.emit .blockEnd with indent := i, indents := is } is else s
  if s.flow then s else go s s.indents

def openTo (column : Nat) (number : Option Nat) (t : Token) (s : Scan) : Scan :=
  if s.flow || column ≤ s.indent then s
  else
    let s := { s with indent := column, indents := s.indent :: s.indents }
    match number with
    | some n => s.emitAt n t
    | none => s.emit t

/-- To the next character that is neither blank nor comment. Tabs count as blanks
where no key may begin. -/
def toNextToken : Nat → Scan → Scan
  | 0, s => s
  | fuel + 1, s =>
    let c := s.cursor
    let c := if c.column == 0 && startsWith (· == byteOrderMark) c.rest then c.skip 1 else c
    let c := c.skipWhile fun ch => ch == ' ' || (ch == '\t' && (s.flow || !s.keyAllowed))
    let c := if startsWith (· == '#') c.rest then c.skipWhile (!isBreak ·) else c
    match c.newline with
    | some (_, c) => toNextToken fuel { s with cursor := c, keyAllowed := s.keyAllowed || !s.flow }
    | none => { s with cursor := c }

def outside (s : Scan) : Option Scan := do
  return (← (s.closeTo (-1)).dropKey).allowKey false

def openFlow (t : Token) (s : Scan) : Option Scan := do
  let s ← s.saveKey
  return { s with keys := none :: s.keys, keyAllowed := true }.skip 1 |>.emit t

def closeFlow (t : Token) (s : Scan) : Option Scan := do
  let s ← s.dropKey
  return ({ s with
    keys := if s.flow then s.keys.tail else s.keys
    keyAllowed := false }.skip 1).emit t

def flowEntry (s : Scan) : Option Scan := do
  return (((← s.dropKey).allowKey true).skip 1).emit .flowEntry

/-- In a block an indicator stands only where a key may begin. -/
def indicator (block token : Token) (s : Scan) : Option Scan := do
  if !s.flow && !s.keyAllowed then none
  let s ← (s.openTo s.cursor.column none block).dropKey
  return ((s.allowKey (token == .blockEntry || !s.flow)).skip 1).emit token

/-- A colon makes a key of what is pending, or follows a key that has its mark. -/
def value (s : Scan) : Option Scan :=
  match s.keys.head?.join with
  | some k =>
    let s := (s.emitAt k.number .key).openTo k.column (some k.number) .blockMapping
    some ((((s.setKey none).allowKey false).skip 1).emit .value)
  | none => do
    if !s.flow && !s.keyAllowed then none
    let s := s.openTo s.cursor.column none .blockMapping
    return ((s.allowKey !s.flow).skip 1).emit .value

def moveTo (r : List Char) (s : Scan) : Scan := s.skip (s.cursor.rest.length - r.length)

def tag (s : Scan) : Option Scan := do
  let s := (← s.saveKey).allowKey false
  let (handle, suffix, r) ← TypeTag.read? s.cursor.rest
  if atSpace r || (s.flow && startsWith (· == ',') r) then
    return (s.moveTo r).emit (.tag handle suffix)
  else none

def anchor (token : List Char → Token) (s : Scan) : Option Scan := do
  let s := ((← s.saveKey).allowKey false).skip 1
  let name := s.cursor.rest.takeWhile isWordChar
  let s := s.skip name.length
  let ended := atSpace s.cursor.rest
    || startsWith ("?:,]\x7d%@\x60".toList.contains ·) s.cursor.rest
  if name.isEmpty || !ended then none else some (s.emit (token name))

def block (folded : Bool) (s : Scan) : Option Scan := do
  let s := (← s.dropKey).allowKey true
  let (text, c) ← Block.read folded s.indent (s.cursor.skip 1)
  return { s with cursor := c }.emit (.scalar (if folded then .folded else .literal) text)

def quoted (quote : Char) (s : Scan) : Option Scan := do
  let s := (← s.saveKey).allowKey false
  let c := s.cursor.skip 1
  let (text, c) ← Quoted.read quote (c.size + 1) [] c
  return { s with cursor := c }.emit (.scalar .quoted text)

def plain (s : Scan) : Option Scan := do
  let s := (← s.saveKey).allowKey false
  let edge := (s.indent + 1).toNat
  let (text, broken, c) ← Plain.read s.flow edge (s.cursor.size + 1) [] {} s.cursor
  return { s with cursor := c, keyAllowed := broken }.emit (.scalar .plain text)

def digits? (cs : List Char) : Option (Nat × List Char) :=
  let ds := cs.takeWhile Text.isDigit
  if ds.isEmpty || 9 < ds.length then none
  else some (Text.numeral 10 ds, cs.dropWhile Text.isDigit)

def directive? (name cs : List Char) : Option (Token × List Char) := do
  let cs := cs.dropWhile isBlank
  if name == "YAML".toList then
    let (major, cs) ← digits? cs
    let '.' :: cs := cs | none
    let (minor, cs) ← digits? cs
    return (.version major minor, cs)
  else if name == "TAG".toList then
    let (handle, cs) ← TypeTag.handle? cs
    if handle ≠ ['!'] ∧ (handle.length = 1 ∨ handle.getLast? ≠ some '!') then none
    if !startsWith isBlank cs then none
    let (start, cs) ← TypeTag.nonemptyUri true (cs.dropWhile isBlank)
    if !atSpace cs then none
    return (.handle handle start, cs)
  else none

def directive (s : Scan) : Option Scan := do
  let s := (← s.outside).skip 1
  let name := s.cursor.rest.takeWhile isWordChar
  let s := s.skip name.length
  if name.isEmpty || !atSpace s.cursor.rest then none
  let (t, r) ← directive? name s.cursor.rest
  let s := s.moveTo r
  return { s with cursor := ← s.cursor.endLine }.emit t

/-- The end of the text stands on a line of its own. -/
def streamEnd (s : Scan) : Option Scan := do
  return (← s.outside).emit .streamEnd

def reserved : List Char := "-?:,[]\x7b\x7d#&*!|>'\"%@\x60".toList

def startsPlain (flow : Bool) : List Char → Bool
  | [] => false
  | c :: r =>
    (!isSpace c && !reserved.contains c) || (c == '-' && !startsWith isBlank r)
      || (!flow && (c == '?' || c == ':') && !atSpace r)

/-- The next token. The flag says that it was the last one. -/
def next (s : Scan) : Option (Scan × Bool) := do
  let s := s.toNextToken (s.cursor.size + 1)
  let s ← s.dropStaleKeys
  let s := s.closeTo s.cursor.column
  let c := s.cursor
  if c.rest.isEmpty then return (← s.streamEnd, true)
  let go (s : Option Scan) : Option (Scan × Bool) := s.map (·, false)
  if c.column == 0 && startsWith (· == '%') c.rest then go s.directive
  else if c.atDocumentMark then
    go do
      let t := if startsWith (· == '-') c.rest then .documentStart else .documentEnd
      return ((← s.outside).skip 3).emit t
  else
    let spaced := atSpace (c.rest.drop 1)
    match c.rest with
    | '[' :: _ => go (s.openFlow .flowList)
    | '\x7b' :: _ => go (s.openFlow .flowMapping)
    | ']' :: _ => go (s.closeFlow .flowListEnd)
    | '\x7d' :: _ => go (s.closeFlow .flowMappingEnd)
    | ',' :: _ => go s.flowEntry
    | '*' :: _ => go (s.anchor .alias)
    | '&' :: _ => go (s.anchor .anchor)
    | '!' :: _ => go s.tag
    | '\'' :: _ => go (s.quoted '\'')
    | '"' :: _ => go (s.quoted '"')
    | ch :: _ =>
      if ch == '-' && spaced then go (s.indicator .blockList .blockEntry)
      else if ch == '?' && (s.flow || spaced) then go (s.indicator .blockMapping .key)
      else if ch == ':' && (s.flow || spaced) then go s.value
      else if ch == '|' && !s.flow then go (s.block false)
      else if ch == '>' && !s.flow then go (s.block true)
      else if startsPlain s.flow c.rest then go s.plain
      else none
    | [] => none

def all : Nat → Scan → Option (List Token)
  | 0, _ => none
  | fuel + 1, s =>
    match s.next with
    | none => none
    | some (s, true) => some s.tokens.reverse
    | some (s, false) => all fuel s

end Scan

/-- Every token but the last takes a character. -/
def Token.ofText? (cs : List Char) : Option (List Token) :=
  if cs.all isAllowed then Scan.all (cs.length + 1) { cursor := { rest := cs, size := cs.length } }
  else none

end Reprieve.Yaml
