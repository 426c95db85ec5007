import Reprieve.ClassName
import Reprieve.Document
import Reprieve.Tag.Arguments

/-! A tag: a declarative note on a class or a method. -/
namespace Reprieve

structure Tag where
  name : ClassName
  arguments : Tag.Arguments := {}

namespace Tag

def isNamed (t : Tag) (name : String) : Bool := t.name.matchesText name

def toDatum (t : Tag) : Datum :=
  .fields [("name", .text t.name.declared), ("arguments", t.arguments.toDatum)]

variable {m : Type → Type} {ν : Type} [Monad m]

/-- Arguments are read whole before their shape is judged. -/
def Arguments.read (d : Document m ν) (v : ν) : m Arguments := do
  d.required (Arguments.ofDatum? (← d.datum v))

structure Draft where
  name : Option String := none
  arguments : Arguments := {}

def read (d : Document m ν) (v : ν) : m Tag := do
  let draft ← d.record (σ := Draft)
    [("name", fun v s => return { s with name := some (← d.text v) }),
     ("arguments", fun v s => return { s with arguments := ← Arguments.read d v })] {} v
  return ⟨.ofText (← d.required draft.name), draft.arguments⟩

end Tag
end Reprieve
