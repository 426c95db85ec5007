import Reprieve.Text

/-! Runtime versions, in three parts or as one number, and what a runtime can
express. A text of three parts may go on after a separator; a third part that is
followed by anything else belongs to what goes on. -/
namespace Reprieve

@[ext] structure Version where
  major : Nat
  minor : Nat
  patch : Nat
  deriving DecidableEq, Repr

namespace Version

def bound : Nat := Nat.pow 2 32

def ofId (id : Nat) : Version := ⟨id / 10000, id / 100 % 100, id % 100⟩

def id (v : Version) : Nat := v.major * 10000 + v.minor * 100 + v.patch

def bounded? (n : Nat) : Option Nat := if n < bound then some n else none

/-- The identifier by sums and products that all have to fit. -/
def id? (v : Version) : Option Nat := do
  let major ← bounded? (v.major * 10000)
  let minor ← bounded? (v.minor * 100)
  let parts ← bounded? (major + minor)
  bounded? (parts + v.patch)

def display (v : Version) : String := s!"{v.major}.{v.minor}.{v.patch}"

instance : Ord Version :=
  ⟨fun a b => (compare a.major b.major).then ((compare a.minor b.minor).then
    (compare a.patch b.patch))⟩

def isSeparator (c : Char) : Bool := c == '-' || c == '+' || c == '.' || c == '~'

def isSuffixChar (c : Char) : Bool :=
  Text.isDigit c || ('A' ≤ c && c ≤ 'Z') || ('a' ≤ c && c ≤ 'z') || isSeparator c

def isSuffix : List Char → Bool
  | [] => true
  | c :: r => isSeparator c && r.all isSuffixChar

def digits (cs : List Char) : List Char × List Char :=
  (cs.takeWhile Text.isDigit, cs.dropWhile Text.isDigit)

def parts? (cs : List Char) : Option (List Char × List Char × List Char) :=
  match digits cs with
  | ([], _) => none
  | (major, '.' :: r) =>
    match digits r with
    | ([], _) => none
    | (minor, '.' :: r) =>
      let (patch, rest) := digits r
      if patch ≠ [] && isSuffix rest then some (major, minor, patch)
      else if isSuffix ('.' :: r) then some (major, minor, [])
      else none
    | (minor, r) => if isSuffix r then some (major, minor, []) else none
  | _ => none

def part? (ds : List Char) : Option Nat := bounded? (Text.numeral 10 ds)

def isId (cs : List Char) : Bool := 5 ≤ cs.length && cs.all Text.isDigit

def ofTrimmed? (cs : List Char) : Option Version :=
  match parts? cs with
  | some (major, minor, patch) => do return ⟨← part? major, ← part? minor, ← part? patch⟩
  | none => if isId cs then (part? cs).map ofId else none

def parse (s : String) : Except String Version :=
  match ofTrimmed? (Text.trim s.toList) with
  | some v => .ok v
  | none => .error s

def invalidMessage (s : String) : String :=
  s!"Invalid runtime version '{s}', expected e.g. \"8.2\", \"7.4.33\" or \"80213\""

def declarativeSince : Version := ⟨8, 0, 0⟩

end Version

structure Capabilities where
  declarativeMetadata : Bool
  deriving DecidableEq, Repr

namespace Capabilities

def ofVersion (v : Version) : Capabilities := ⟨(compare v Version.declarativeSince).isGE⟩

/-- No version known: a current runtime. -/
def modern : Capabilities := ⟨true⟩

def legacy : Capabilities := ⟨false⟩

end Capabilities
end Reprieve
