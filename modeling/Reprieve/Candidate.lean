import Reprieve.Text

/-! Findings as an analyzer lists them, one `Class::method` a line. -/
namespace Reprieve

structure Candidate where
  className : String
  method : String
  deriving DecidableEq, Repr

namespace Candidate

def display (c : Candidate) : String := c.className ++ "::" ++ c.method

def splitLast? : List Char → Option (List Char × List Char)
  | ':' :: ':' :: r =>
    match splitLast? (':' :: r) with
    | some (l, m) => some (':' :: l, m)
    | none => some ([], r)
  | c :: r => (splitLast? r).map fun (l, m) => (c :: l, m)
  | [] => none

def dropCalls : List Char → List Char
  | ')' :: '(' :: r => dropCalls r
  | cs => cs

def withoutCalls (cs : List Char) : List Char := (dropCalls cs.reverse).reverse

/-- A method name has no blank inside; a class name may. -/
def parseChars? (cs : List Char) : Option (List Char × List Char) := do
  let (left, right) ← splitLast? (Text.trim cs)
  let className := left.dropWhile (· == '\\')
  let method := withoutCalls right
  if className.isEmpty || method.isEmpty || method.any Text.isBlank then none
  else some (className, method)

def parse? (s : String) : Option Candidate :=
  (parseChars? s.toList).map fun (c, m) => ⟨.ofList c, .ofList m⟩

/-- A line, counted from one, that is no finding; the text without outer blanks. -/
structure Malformed where
  line : Nat
  text : String
  deriving DecidableEq, Repr

def Malformed.message (e : Malformed) : String :=
  s!"Line {e.line}: expected `Class::method`, found `{e.text}`"

def isRelevant (line : List Char) : Bool :=
  match Text.trim line with
  | [] => false
  | c :: _ => c != '#'

def parseLine (number : Nat) (line : List Char) : Except Malformed Candidate :=
  match parse? (.ofList line) with
  | some c => .ok c
  | none => .error ⟨number, .ofList (Text.trim line)⟩

def parseLines : Nat → List (List Char) → Except Malformed (List Candidate)
  | _, [] => .ok []
  | n, l :: ls =>
    if isRelevant l then do return (← parseLine n l) :: (← parseLines (n + 1) ls)
    else parseLines (n + 1) ls

def parseAll (s : String) : Except Malformed (List Candidate) := parseLines 1 (Text.lines s.toList)

end Candidate
end Reprieve
