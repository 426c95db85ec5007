import Reprieve.Class.Descriptor
import Reprieve.Search

/-! Rules, each one convention by which a framework calls a method, and ordered
sets of them, of which the first that applies answers. -/
namespace Reprieve

structure Rule where
  name : String
  applies : Member → Bool

structure RuleSet where
  rules : List Rule := []

namespace RuleSet

def add (s : RuleSet) (r : Rule) : RuleSet := ⟨s.rules ++ [r]⟩

def search (s : RuleSet) (m : Member) : Search Rule String :=
  .run (fun r => if r.applies m then some r.name else none) s.rules

def firstMatch (s : RuleSet) (m : Member) : Option String := (s.search m).hit

def isMatch (s : RuleSet) (m : Member) : Bool := (s.firstMatch m).isSome

def names (s : RuleSet) : List String := s.rules.map (·.name)

def size (s : RuleSet) : Nat := s.rules.length

def isEmpty (s : RuleSet) : Bool := s.rules.isEmpty

end RuleSet
end Reprieve
