import Reprieve.Rule
import Reprieve.Verdict

/-! Usage providers, one for each framework, and their registry, which asks them
in order until one marks the method as used. -/
namespace Reprieve

/-- A verdict is the diagnostic form of the mark: a provider marks a method as used exactly if
its verdict is used, which is what a provider without a marking of its own does. One that
marks by other means than its verdicts has no place here. -/
structure Provider where
  name : String
  enabled : Bool
  verdict : Member → Verdict

def Provider.marksUsed (p : Provider) (m : Member) : Bool := (p.verdict m).used

structure Registry where
  providers : List Provider := []

namespace Registry

def add (r : Registry) (p : Provider) : Registry := ⟨r.providers ++ [p]⟩

def names (r : Registry) : List String := r.providers.map (·.name)

def size (r : Registry) : Nat := r.providers.length

def isEmpty (r : Registry) : Bool := r.providers.isEmpty

def enabledCount (r : Registry) : Nat := r.providers.countP (·.enabled)

def search (r : Registry) (m : Member) : Search Provider Verdict :=
  .run (fun p => let v := p.verdict m; if v.used then some v else none) r.providers

def verdict (r : Registry) (m : Member) : Verdict := (r.search m).hit.getD .unused

def usageSearch (r : Registry) (m : Member) : Search Provider Unit :=
  .run (fun p => if p.marksUsed m then some () else none) r.providers

def isUsed (r : Registry) (m : Member) : Bool := (r.usageSearch m).hit.isSome

/-- A method that the class has not is not used. -/
def isMemberUsed (r : Registry) (c : Descriptor) (method : String) : Bool :=
  match c.member? method with
  | some m => r.isUsed m
  | none => false

end Registry
end Reprieve
