import Reprieve.Yaml.Cursor

/-! The tag that names the type of a node. It is written with characters and with
octets behind percent signs, and what these make together need not be a text. An
octet of zero ends what it stands in. -/
namespace Reprieve.Yaml

structure TypeTag where
  octets : List UInt8
  deriving DecidableEq, Repr

namespace TypeTag

def ofText (s : String) : TypeTag := ⟨s.toUTF8.toList⟩

def bool : TypeTag := .ofText "tag:yaml.org,2002:bool"
def int : TypeTag := .ofText "tag:yaml.org,2002:int"
def float : TypeTag := .ofText "tag:yaml.org,2002:float"
def null : TypeTag := .ofText "tag:yaml.org,2002:null"

/-- A tag of the document's own begins with a mark. -/
def isLocal (t : TypeTag) : Bool := t.octets.head? == some 0x21

def localName? (t : TypeTag) : Option String :=
  if t.isLocal then String.fromUTF8? t.octets.tail.toByteArray else none

/-! ### How a tag is written -/

/-- The characters that stand for themselves are those of ASCII. -/
def ofChars (cs : List Char) : List UInt8 := cs.map fun c => c.toNat.toUInt8

def octet? (cs : List Char) : Option (UInt8 × List Char) :=
  match cs with
  | '%' :: a :: b :: r =>
    if Text.isHexDigit a && Text.isHexDigit b then some ((Text.numeral 16 [a, b]).toUInt8, r)
    else none
  | _ => none

def octetCount? (first : UInt8) : Option Nat :=
  if first < 0x80 then some 1
  else if first / 0x20 = 0x6 then some 2
  else if first / 0x10 = 0xE then some 3
  else if first / 0x8 = 0x1E then some 4
  else none

def trailing? : Nat → List Char → Option (List UInt8 × List Char)
  | 0, cs => some ([], cs)
  | n + 1, cs => do
    let (o, cs) ← octet? cs
    if o / 0x40 ≠ 2 then none
    let (os, cs) ← trailing? n cs
    return (o :: os, cs)

/-- The octets of one character. Nothing is asked of its code, so they may be more
than it needs. -/
def escaped? (cs : List Char) : Option (List UInt8 × List Char) := do
  let (first, r) ← octet? cs
  let (os, r) ← trailing? ((← octetCount? first) - 1) r
  return (first :: os, r)

def isUriChar (verbatim : Bool) (c : Char) : Bool :=
  isWordChar c || ";/?:@&=+$.%!~*'()".toList.contains c || (verbatim && ",[]".toList.contains c)

def uri (verbatim : Bool) : Nat → List Char → Option (List UInt8 × List Char)
  | 0, _ => none
  | _ + 1, [] => some ([], [])
  | fuel + 1, c :: r =>
    if !isUriChar verbatim c then some ([], c :: r)
    else do
      let (os, r) ← if c == '%' then escaped? (c :: r) else some (ofChars [c], r)
      let (more, r) ← uri verbatim fuel r
      return (os ++ more, r)

def cut (os : List UInt8) : List UInt8 := os.takeWhile (· ≠ 0)

/-- A zero counts as something here, though nothing is left of it. -/
def nonemptyUri (verbatim : Bool) (cs : List Char) : Option (List UInt8 × List Char) := do
  let (os, r) ← uri verbatim (cs.length + 1) cs
  if os.isEmpty then none else some (cut os, r)

def handle? (cs : List Char) : Option (List Char × List Char) :=
  match cs with
  | '!' :: r =>
    let word := r.takeWhile isWordChar
    match r.dropWhile isWordChar with
    | '!' :: r => some ('!' :: word ++ ['!'], r)
    | r => some ('!' :: word, r)
  | _ => none

/-- The handle, the octets behind it and the rest of the text. A lone mark is a tag
by itself. -/
def read? (cs : List Char) : Option (List Char × List UInt8 × List Char) :=
  match cs with
  | '!' :: '<' :: r => do
    match ← nonemptyUri true r with
    | (os, '>' :: r) => some ([], os, r)
    | _ => none
  | _ => do
    let (start, r) ← handle? cs
    if 1 < start.length && start.getLast? == some '!' then
      let (os, r) ← nonemptyUri false r
      return (start, os, r)
    let (os, r) ← uri false (r.length + 1) r
    let suffix := cut (ofChars (start.drop 1) ++ os)
    return if suffix.isEmpty then ([], ofChars ['!'], r) else (['!'], suffix, r)

end TypeTag
end Reprieve.Yaml
