import Reprieve.Datum
import Reprieve.Number.Notation

/-! JSON text of a value: on one line without blanks, or one item a line. -/
namespace Reprieve.Json

def hexPair (n : Nat) : List Char := [Nat.digitChar (n / 16), Nat.digitChar (n % 16)]

def escape (c : Char) : List Char :=
  match c with
  | '"' => ['\\', '"']
  | '\\' => ['\\', '\\']
  | '\n' => ['\\', 'n']
  | '\r' => ['\\', 'r']
  | '\t' => ['\\', 't']
  | c =>
    if c.toNat = 8 then ['\\', 'b']
    else if c.toNat = 12 then ['\\', 'f']
    else if c.toNat < 32 then '\\' :: 'u' :: '0' :: '0' :: hexPair c.toNat
    else [c]

def quote (s : String) : String := .ofList ('"' :: s.toList.flatMap escape ++ ['"'])

/-- A key is always a text; a number stands as its digits. -/
def keyText : Datum → String
  | .text s => quote s
  | .int n => quote (toString n)
  | _ => quote ""

def scalarText : Datum → String
  | .bool true => "true"
  | .bool false => "false"
  | .int n => toString n
  | .float f => (Number.documentStyle.write? f).getD "null"
  | .text s => quote s
  | _ => "null"

mutual

def compact : Datum → String
  | .list items => "[" ++ compactItems items ++ "]"
  | .map entries => "\x7b" ++ compactEntries entries ++ "\x7d"
  | d => scalarText d

def compactItems : List Datum → String
  | [] => ""
  | [d] => compact d
  | d :: r => compact d ++ "," ++ compactItems r

def compactEntries : List (Datum × Datum) → String
  | [] => ""
  | [(k, d)] => keyText k ++ ":" ++ compact d
  | (k, d) :: r => keyText k ++ ":" ++ compact d ++ "," ++ compactEntries r

end

def newline (depth : Nat) : String := "\n" ++ String.ofList (List.replicate (2 * depth) ' ')

mutual

def indented (depth : Nat) : Datum → String
  | .list [] => "[]"
  | .map [] => "\x7b\x7d"
  | .list items => "[" ++ indentedItems (depth + 1) items ++ newline depth ++ "]"
  | .map entries => "\x7b" ++ indentedEntries (depth + 1) entries ++ newline depth ++ "\x7d"
  | d => scalarText d

def indentedItems (depth : Nat) : List Datum → String
  | [] => ""
  | [d] => newline depth ++ indented depth d
  | d :: r => newline depth ++ indented depth d ++ "," ++ indentedItems depth r

def indentedEntries (depth : Nat) : List (Datum × Datum) → String
  | [] => ""
  | [(k, d)] => newline depth ++ keyText k ++ ": " ++ indented depth d
  | (k, d) :: r =>
    newline depth ++ keyText k ++ ": " ++ indented depth d ++ "," ++ indentedEntries depth r

end

def pretty (d : Datum) : String := indented 0 d

end Reprieve.Json
