import Reprieve.Document
import Reprieve.Toml.Number

/-! TOML text as a table, and typed reading of it. A list may stand for a record,
its items being the fields in their order. -/
namespace Reprieve.Toml

mutual

/-- A value at a depth. Loops and values in one another use fuel for every
character at most twice. -/
def value (depth : Nat) : Nat → Reader Value
  | 0, _ => none
  | fuel + 1, cs =>
    match cs with
    | '"' :: _ => (quoted '"' cs).map fun (s, r) => (.text s, r)
    | '\'' :: _ => (quoted '\'' cs).map fun (s, r) => (.text s, r)
    | '[' :: r =>
      if depth + 1 < depthLimit then
        (items (depth + 1) fuel r).map fun (vs, r) => (.list false vs, r)
      else none
    | '\x7b' :: r =>
      if depth + 1 < depthLimit then do
        let (ps, r) ← match skipBlanks r with
          | '\x7d' :: r => some ([], r)
          | r => pairs (depth + 1) fuel r
        return (← Value.ofPairs ps [], r)
      else none
    | c :: _ =>
      match Text.after? "true".toList cs, Text.after? "false".toList cs with
      | some r, _ => some (.bool true, r)
      | none, some r => some (.bool false, r)
      | none, none =>
        if Text.isDigit c || c == '+' || c == '-' || c == 'i' || c == 'n' then numeric cs else none
    | [] => none

def items (depth : Nat) : Nat → Reader (List Value)
  | 0, _ => none
  | fuel + 1, cs =>
    let skip (cs : List Char) := skipLines (cs.length + 1) cs
    match skip cs with
    | ']' :: r => some ([], r)
    | r => do
      let (v, r) ← value depth fuel r
      match skip r with
      | ',' :: r => do
        let (vs, r) ← items depth fuel r
        return (v :: vs, r)
      | ']' :: r => return ([v], r)
      | _ => none

def pairs (depth : Nat) : Nat → Reader (List (List String × String × Value))
  | 0, _ => none
  | fuel + 1, cs => do
    let (keys, r) ← keyPath cs
    let key ← keys.getLast?
    let (v, r) ← value depth fuel (skipBlanks (← expect '=' r))
    match skipBlanks r with
    | ',' :: r => do
      let (ps, r) ← pairs depth fuel r
      return ((keys.dropLast, key, v) :: ps, r)
    | '\x7d' :: r => return ([(keys.dropLast, key, v)], r)
    | _ => none

end

def header (d : Draft) (cs : List Char) : Option (Draft × List Char) :=
  match cs with
  | '[' :: '[' :: r => do
    let (path, r) ← keyPath r
    let r ← endLine? (← expect ']' (← expect ']' r))
    return (← d.openItem path, r)
  | '[' :: r => do
    let (path, r) ← keyPath r
    let r ← endLine? (← expect ']' r)
    return (← d.openTable path, r)
  | _ => none

def keyValue (d : Draft) (cs : List Char) : Option (Draft × List Char) := do
  let (keys, r) ← keyPath cs
  let key ← keys.getLast?
  let (v, r) ← value 0 (2 * cs.length + 2) (skipBlanks (← expect '=' r))
  return (← d.put keys.dropLast key v, ← endLine? r)

def lines : Nat → Draft → List Char → Option Draft
  | 0, _, _ => none
  | fuel + 1, d, cs =>
    match skipBlanks cs with
    | [] => some d
    | '#' :: r => (endLine? ('#' :: r)).bind (lines fuel d)
    | '[' :: r => do
      let (d, r) ← header d ('[' :: r)
      lines fuel d r
    | r =>
      match newline? r with
      | some r => lines fuel d r
      | none => do
        let (d, r) ← keyValue d r
        lines fuel d r

def ofText? (text : String) : Option Value := do
  let cs := match text.toList with
    | '\ufeff' :: r => r
    | cs => cs
  let d ← lines (cs.length + 1) {} cs
  return .table .header (← d.settle)

abbrev Field (σ : Type) := String × (Value → σ → Option σ)

def readRow : List (Field σ) → List Value → σ → Option σ
  | (_, f) :: fs, v :: vs, s => (f v s).bind (readRow fs vs)
  | _, _, s => some s

def readFields (fields : List (Field σ)) : Entries → σ → Option σ
  | [], s => some s
  | (key, v) :: r, s =>
    match fields.lookup key with
    | none => readFields fields r s
    | some f => (f v s).bind (readFields fields r)

/-- A date has no field that a record knows. -/
def readRecord (fields : List (Field σ)) (s : σ) : Value → Option σ
  | .table _ entries => readFields fields entries s
  | .list _ items => readRow fields items s
  | .moment => some s
  | _ => none

mutual

def Value.datum? : Value → Option Datum
  | .text s => some (.text s)
  | .bool b => some (.bool b)
  | .int n => some (.int n)
  | .float f => some (.float f)
  | .moment => none
  | .list _ vs => (data? vs).map .list
  | .table _ es => (entryData? es).map .map

def data? : List Value → Option (List Datum)
  | [] => some []
  | v :: r => do return (← v.datum?) :: (← data? r)

def entryData? : List (String × Value) → Option (List (Datum × Datum))
  | [] => some []
  | (k, v) :: r => do return (.text k, ← v.datum?) :: (← entryData? r)

end

def document : Document Option Value where
  text
    | .text s => some s
    | _ => none
  flag
    | .bool b => some b
    | _ => none
  optional f v := some <$> f v
  list f
    | .list _ vs => vs.mapM f
    | _ => none
  word words
    | .text s => if words.contains s then some s else none
    | _ => none
  record := readRecord
  datum := Value.datum?
  mismatch := none

def read (f : Value → Option α) (text : String) : Option α := (ofText? text).bind f

end Reprieve.Toml
