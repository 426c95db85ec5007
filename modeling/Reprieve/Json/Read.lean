import Reprieve.Json.Number
import Reprieve.Document

/-! Typed reading of JSON text. Faults come in text order. A value that is skipped
is only looked at for its shape; one that is read must also make sense. -/
namespace Reprieve.Json

inductive Fault where
  | malformed
  | mistyped
  | ended
  deriving DecidableEq, Repr

def Break.asRead : Break → Fault
  | .malformed => .malformed
  | _ => .ended

/-- A number that is skipped counts as malformed where the text ends inside it. -/
def Break.asSkipped : Break → Fault
  | .malformed | .cutNumber => .malformed
  | _ => .ended

/-- In the place of a key or of a fixed word only a quote may stand. -/
def Break.asKey : Break → Fault
  | .ended => .ended
  | _ => .malformed

def Outline.asKey : Outline → Fault
  | .broken b => b.asKey
  | _ => .malformed

def close (fault : Break → Fault) : Option Break → Except Fault Unit
  | none => .ok ()
  | some b => .error (fault b)

def isLead (n : Nat) : Bool := 0xD800 ≤ n && n ≤ 0xDBFF
def isTrail (n : Nat) : Bool := 0xDC00 ≤ n && n ≤ 0xDFFF

def pair (lead trail : Nat) : Char :=
  .ofNat ((lead - 0xD800) * 0x400 + (trail - 0xDC00) + 0x10000)

/-- The characters of a quoted text; half a pair of codes makes no character. -/
def decode : List Glyph → Option Break → Except Fault (List Char)
  | [], stop => do close Break.asRead stop; return []
  | .char c :: r, stop => return c :: (← decode r stop)
  | .code n :: r, stop =>
    if isTrail n then .error .malformed
    else if isLead n then
      match r with
      | .code t :: r =>
        if isTrail t then return pair n t :: (← decode r stop) else .error .malformed
      | .char _ :: _ => .error .malformed
      | [] => .error ((stop.map Break.asRead).getD .malformed)
    else return .ofNat n :: (← decode r stop)

def Quoted.value (q : Quoted) : Except Fault String := do
  return .ofList (← decode q.glyphs q.stop)

def Numeral.value (n : Numeral) : Except Fault Datum :=
  match n.value? with
  | some d => .ok d
  | none => .error .malformed

/-- A value of the wrong type: a number or a text is read to its end before. -/
def Outline.mistyped (o : Outline) : Except Fault α := do
  match o with
  | .broken b => throw b.asRead
  | .number n => let _ ← n.value; throw .mistyped
  | .text q => let _ ← q.value; throw .mistyped
  | _ => throw .mistyped

mutual

def Outline.skip : Outline → Except Fault Unit
  | .text q => close Break.asSkipped q.stop
  | .list items stop => do skipItems items; close Break.asSkipped stop
  | .object members stop => do skipMembers members; close Break.asSkipped stop
  | .broken b => .error b.asSkipped
  | _ => .ok ()

def skipItems : List Outline → Except Fault Unit
  | [] => .ok ()
  | o :: r => do o.skip; skipItems r

def skipMembers : List (Option Quoted × Outline) → Except Fault Unit
  | [] => .ok ()
  | (none, o) :: _ => .error o.asKey
  | (some q, o) :: r => do close Break.asSkipped q.stop; o.skip; skipMembers r

end

def room : Nat := 127

def enter : Nat → Except Fault Nat
  | 0 => .error .malformed
  | n + 1 => .ok n

mutual

def Outline.datum (room : Nat) : Outline → Except Fault Datum
  | .null => .ok .null
  | .bool b => .ok (.bool b)
  | .number n => n.value
  | .text q => return .text (← q.value)
  | .list items stop => do
    let items ← itemData (← enter room) items
    close Break.asRead stop
    return .list items
  | .object members stop => do
    let entries ← memberData (← enter room) members
    close Break.asRead stop
    return .map entries
  | .broken b => .error b.asRead

def itemData (room : Nat) : List Outline → Except Fault (List Datum)
  | [] => .ok []
  | o :: r => return (← o.datum room) :: (← itemData room r)

def memberData (room : Nat) : List (Option Quoted × Outline) → Except Fault (List (Datum × Datum))
  | [] => .ok []
  | (none, o) :: _ => .error o.asKey
  | (some q, o) :: r => do
    let key ← q.value
    let value ← o.datum room
    return (.text key, value) :: (← memberData room r)

end

structure Place where
  room : Nat
  outline : Outline

abbrev Field (ν σ : Type) := String × (ν → σ → Except Fault σ)

/-- The items of a list are the fields of a record in their order. -/
def readRow (room : Nat) : List (Field Place σ) → List Outline → Option Break → σ → Except Fault σ
  | _, [], stop, s => do close Break.asRead stop; return s
  | [], _ :: _, _, _ => .error .malformed
  | (_, f) :: fs, o :: os, stop, s => do readRow room fs os stop (← f ⟨room, o⟩ s)

def readFields (room : Nat) (fields : List (Field Place σ)) :
    List String → List (Option Quoted × Outline) → σ → Except Fault σ
  | _, [], s => .ok s
  | _, (none, o) :: _, _ => .error o.asKey
  | seen, (some q, o) :: r, s => do
    let key ← q.value
    match fields.lookup key with
    | none => o.skip; readFields room fields seen r s
    | some f =>
      if seen.contains key then throw .mistyped
      readFields room fields (key :: seen) r (← f ⟨room, o⟩ s)

def readRecord (fields : List (Field Place σ)) (s : σ) (p : Place) : Except Fault σ := do
  match p.outline with
  | .list items stop => readRow (← enter p.room) fields items stop s
  | .object members stop =>
    let s ← readFields (← enter p.room) fields [] members s
    close Break.asRead stop
    return s
  | o => o.mistyped

def readList (f : Place → Except Fault α) (p : Place) : Except Fault (List α) := do
  match p.outline with
  | .list items stop =>
    let room ← enter p.room
    let xs ← items.mapM fun o => f ⟨room, o⟩
    close Break.asRead stop
    return xs
  | o => o.mistyped

/-- A fixed word is a text, or an object whose only member has it for a key and
null for a value. -/
def readWordOf (words : List String) (p : Place) : Except Fault String := do
  match p.outline with
  | .text q =>
    let s ← q.value
    if words.contains s then return s else throw .mistyped
  | .object members stop =>
    let _ ← enter p.room
    match members with
    | [] => throw .malformed
    | (none, o) :: _ => throw o.asKey
    | (some q, o) :: r =>
      let s ← q.value
      if !words.contains s then throw .mistyped
      match o with
      | .null => if r.isEmpty then close Break.asKey stop else throw .malformed
      | o => o.mistyped
      return s
  | o => throw o.asKey

def document : Document (Except Fault) Place where
  text p := match p.outline with
    | .text q => q.value
    | o => o.mistyped
  flag p := match p.outline with
    | .bool b => .ok b
    | o => o.mistyped
  optional f p := match p.outline with
    | .null => .ok none
    | _ => some <$> f p
  list := readList
  word := readWordOf
  record := readRecord
  datum p := p.outline.datum p.room
  mismatch := .error .mistyped

def read (f : Place → Except Fault α) (text : String) : Except Fault α := do
  let (o, rest) := Outline.ofText text.toList
  let a ← f ⟨room, o⟩
  if (rest.map skipSpace) = some [] then return a else throw .malformed

def datumOfText (text : String) : Except Fault Datum := read document.datum text

end Reprieve.Json
