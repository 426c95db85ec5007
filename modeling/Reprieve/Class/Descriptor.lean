import Reprieve.Snapshot
import Reprieve.SortedMap

/-! A class with all that it inherits, and its members. -/
namespace Reprieve

structure Method where
  name : String
  isConstructor : Bool
  tags : List Tag := []

/-- Without a word from the host the name decides, in any ASCII case. -/
def Method.isConstructorName (name : String) : Bool := name.folded == "__construct"

def Method.ofRecord (r : MethodRecord) : Method :=
  ⟨r.name, r.constructor.getD (isConstructorName r.name), r.tags⟩

def Method.hasTag (m : Method) (name : String) : Bool := m.tags.any (·.isNamed name)

/-- Ancestors stand nearest first. An interface is held once, by its key. -/
structure Descriptor where
  name : ClassName
  kind : ClassKind := .class
  ancestors : List ClassName := []
  interfaces : SortedMap String ClassName := .empty
  tags : List Tag := []
  methods : List Method := []

structure Member where
  owner : Descriptor
  method : Method

def Member.display (m : Member) : String := m.owner.name.declared ++ "::" ++ m.method.name

namespace Descriptor

def implements (c : Descriptor) (name : String) : Bool :=
  c.interfaces.values.any (·.matchesText name)

/-- Strict in an index built from a snapshot: no class is among its ancestors there. -/
def isSubclassOf (c : Descriptor) (name : String) : Bool := c.ancestors.any (·.matchesText name)

def tagsNamed (c : Descriptor) (name : String) : List Tag := c.tags.filter (·.isNamed name)

def members (c : Descriptor) : List Member := c.methods.map fun m => ⟨c, m⟩

def member? (c : Descriptor) (name : String) : Option Member :=
  (c.methods.find? (·.name == name)).map fun m => ⟨c, m⟩

/-- Of two spellings of one interface the first stays. -/
def addInterface (c : Descriptor) (i : ClassName) : Descriptor :=
  if (c.interfaces.get? i.key).isSome then c
  else { c with interfaces := c.interfaces.insert i.key i }

end Descriptor
end Reprieve
