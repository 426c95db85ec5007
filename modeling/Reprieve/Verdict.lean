/-! The answer to a usage query, with the provider and the rule that decided it. -/
namespace Reprieve

structure Verdict where
  used : Bool := false
  provider : Option String := none
  rule : Option String := none
  deriving DecidableEq, Repr

namespace Verdict

def unused : Verdict := {}

def usedBy (provider rule : String) : Verdict := ⟨true, some provider, some rule⟩

end Verdict
end Reprieve
