import Reprieve.Yaml.Cursor

/-! The three ways to write a scalar: plain, quoted, and as a block of lines. Each
reader takes a place and gives the text and the place after it. -/
namespace Reprieve.Yaml

inductive Style where
  | plain
  | quoted
  | literal
  | folded
  deriving DecidableEq, Repr

namespace Plain

/-- The characters up to a blank or to a mark that ends a plain scalar. In a flow
collection a colon may not touch a mark. -/
def run (flow : Bool) : List Char → Option (List Char)
  | [] => some []
  | c :: r =>
    if isSpace c then some []
    else if flow && c == ':' && startsWith (fun d => isFlowMark d || d == '?') r then none
    else if (c == ':' && atSpace r) || (flow && isFlowMark c) then some []
    else (run flow r).map (c :: ·)

/-- The flag says that the scalar ends behind a break. -/
def read (flow : Bool) (edge : Nat) :
    Nat → List Char → Gap → Cursor → Option (List Char × Bool × Cursor)
  | 0, _, _, _ => none
  | fuel + 1, text, gap, c =>
    if c.atDocumentMark || startsWith (· == '#') c.rest then some (text, gap.broken, c)
    else do
      let piece ← run flow c.rest
      if piece.isEmpty then return (text, gap.broken, c)
      let text := text ++ gap.text ++ piece
      let c := c.skip piece.length
      if !startsWith isSpace c.rest then return (text, false, c)
      let (gap, c) ← Gap.read edge (c.size + 1) {} c
      if !flow && c.column < edge then return (text, gap.broken, c)
      read flow edge fuel text gap c

end Plain

namespace Quoted

def short? : Char → Option Char
  | '0' => some '\x00'
  | 'a' => some '\x07'
  | 'b' => some '\x08'
  | 't' | '\t' => some '\t'
  | 'n' => some '\n'
  | 'v' => some '\x0b'
  | 'f' => some '\x0c'
  | 'r' => some '\r'
  | 'e' => some '\x1b'
  | ' ' => some ' '
  | '"' => some '"'
  | '/' => some '/'
  | '\\' => some '\\'
  | 'N' => some '\u0085'
  | '_' => some '\u00a0'
  | 'L' => some '\u2028'
  | 'P' => some '\u2029'
  | _ => none

def codeLength? : Char → Option Nat
  | 'x' => some 2
  | 'u' => some 4
  | 'U' => some 8
  | _ => none

def ofCode? (n : Nat) (cs : List Char) : Option Char :=
  let digits := cs.take n
  if digits.length = n ∧ digits.all Text.isHexDigit then
    let v := Text.numeral 16 digits
    if v.isValidChar then some (.ofNat v) else none
  else none

abbrev Piece := List Char × Bool × Cursor

def push (x : Char) (p : Option Piece) : Option Piece := p.map fun (cs, r) => (x :: cs, r)

/-- The characters up to a blank, a break or the closing quote. The flag says that
an escaped break ended them. -/
def run (quote : Char) : Nat → Cursor → Option Piece
  | 0, _ => none
  | fuel + 1, c =>
    match c.rest with
    | [] => some ([], false, c)
    | ch :: r =>
      if isSpace ch then some ([], false, c)
      else if quote == '\'' && ch == '\'' && startsWith (· == '\'') r then
        push '\'' (run quote fuel (c.skip 2))
      else if ch == quote then some ([], false, c)
      else if quote == '"' && ch == '\\' then
        if startsWith isBreak r then some ([], true, (c.skip 1).skipNewline)
        else do
          let e ← r.head?
          match short? e with
          | some x => push x (run quote fuel (c.skip 2))
          | none =>
            let n ← codeLength? e
            let x ← ofCode? n (r.drop 1)
            push x (run quote fuel (c.skip (2 + n)))
      else push ch (run quote fuel (c.skip 1))

def read (quote : Char) : Nat → List Char → Cursor → Option (List Char × Cursor)
  | 0, _, _ => none
  | fuel + 1, text, c =>
    if c.atDocumentMark || c.rest.isEmpty then none
    else do
      let (piece, escaped, c) ← run quote (c.size + 1) c
      let text := text ++ piece
      if startsWith (· == quote) c.rest then return (text, c.skip 1)
      let (gap, c) ← Gap.read 0 (c.size + 1) { broken := escaped } c
      read quote fuel (text ++ gap.text) c

end Quoted

namespace Block

inductive Chomping where
  | strip
  | clip
  | keep

def chomping? : Char → Option Chomping
  | '+' => some .keep
  | '-' => some .strip
  | _ => none

/-- The chomping mark and the indentation digit, in either order. No indentation
is written as zero. -/
def header (cs : List Char) : Option (Chomping × Nat × Nat) :=
  let digit? (c : Char) : Option Nat := if Text.isDigit c then some (Text.digitValue c) else none
  let checked (k : Chomping) (n taken : Nat) := if n = 0 then none else some (k, n, taken)
  match cs with
  | [] => some (.clip, 0, 0)
  | a :: r =>
    match chomping? a, digit? a with
    | some k, _ =>
      match r.head?.bind digit? with
      | some n => checked k n 2
      | none => some (k, 0, 1)
    | none, some n =>
      match r.head?.bind chomping? with
      | some k => checked k n 2
      | none => checked .clip n 1
    | none, none => some (.clip, 0, 0)

/-- The breaks before a line, and the greatest column at which one of the lines
without text ends. An indentation of zero is not known yet. -/
def breaks (indent : Nat) : Nat → Nat → List Char → Cursor → Option (Nat × List Char × Cursor)
  | 0, _, _, _ => none
  | fuel + 1, widest, found, c =>
    let blanks := (c.rest.takeWhile (· == ' ')).length
    let c := c.skip (if indent = 0 then blanks else min blanks (indent - c.column))
    let widest := max widest c.column
    if (indent = 0 ∨ c.column < indent) ∧ startsWith (· == '\t') c.rest then none
    else
      match c.newline with
      | some (b, c) => breaks indent fuel widest (found ++ [b]) c
      | none => some (widest, found, c)

structure Text where
  text : List Char := []
  leading : List Char := []
  trailing : List Char := []
  indented : Bool := false

/-- Lines fold when both begin with other characters than blanks. -/
def Text.join (folded : Bool) (t : Text) (blank : Bool) : List Char :=
  if folded && t.leading == ['\n'] && !t.indented && !blank then
    t.text ++ (if t.trailing.isEmpty then [' '] else []) ++ t.trailing
  else t.text ++ t.leading ++ t.trailing

def lines (folded : Bool) (indent : Nat) : Nat → Text → Cursor → Option (Text × Cursor)
  | 0, _, _ => none
  | fuel + 1, t, c =>
    if c.column ≠ indent ∨ c.rest.isEmpty then some (t, c)
    else do
      let blank := startsWith isBlank c.rest
      let line := c.rest.takeWhile (!isBreak ·)
      let text := t.join folded blank ++ line
      let c := c.skip line.length
      let (leading, c) := match c.newline with
        | some (b, c) => ([b], c)
        | none => ([], c)
      let (_, trailing, c) ← breaks indent (c.size + 1) 0 [] c
      lines folded indent fuel ⟨text, leading, trailing, blank⟩ c

def read (folded : Bool) (parent : Int) (c : Cursor) : Option (List Char × Cursor) := do
  let (chomping, increment, taken) ← header c.rest
  let c ← (c.skip taken).endLine
  let given := if increment = 0 then 0 else (max parent 0).toNat + increment
  let (widest, trailing, c) ← breaks given (c.size + 1) 0 [] c
  let indent := if given = 0 then max (max widest (parent + 1).toNat) 1 else given
  let (t, c) ← lines folded indent (c.size + 1) { trailing := trailing } c
  let tail := match chomping with
    | .strip => []
    | .clip => t.leading
    | .keep => t.leading ++ t.trailing
  return (t.text ++ tail, c)

end Block
end Reprieve.Yaml
