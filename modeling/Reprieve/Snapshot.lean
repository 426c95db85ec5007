import Reprieve.Tag.Basic

/-! A metadata snapshot as a host writes it: each class with what it declares
itself. What a class inherits is worked out from the records. -/
namespace Reprieve

inductive ClassKind where
  | «class»
  | interface
  | trait
  | enum
  deriving DecidableEq, Repr

namespace ClassKind

def all : List ClassKind := [.class, .interface, .trait, .enum]

def name : ClassKind → String
  | .class => "class"
  | .interface => "interface"
  | .trait => "trait"
  | .enum => "enum"

def ofName? (s : String) : Option ClassKind := all.find? (·.name == s)

theorem ofName?_name (k : ClassKind) : ofName? k.name = some k := by cases k <;> decide

instance : Inhabited ClassKind := ⟨.class⟩

end ClassKind

/-- The flag is there when the host says whether the method is a constructor. -/
structure MethodRecord where
  name : String
  constructor : Option Bool := none
  tags : List Tag := []

structure ClassRecord where
  name : String
  kind : ClassKind := .class
  parent : Option String := none
  interfaces : List String := []
  tags : List Tag := []
  methods : List MethodRecord := []

structure Snapshot where
  runtimeVersion : Option String := none
  classes : List ClassRecord := []

def MethodRecord.toDatum (r : MethodRecord) : Datum :=
  .fields [("name", .text r.name), ("constructor", .optional .bool r.constructor),
    ("tags", .list (r.tags.map Tag.toDatum))]

def ClassRecord.toDatum (r : ClassRecord) : Datum :=
  .fields [("name", .text r.name), ("kind", .text r.kind.name),
    ("parent", .optional .text r.parent), ("interfaces", .list (r.interfaces.map .text)),
    ("tags", .list (r.tags.map Tag.toDatum)),
    ("methods", .list (r.methods.map MethodRecord.toDatum))]

def Snapshot.toDatum (s : Snapshot) : Datum :=
  .fields [("runtime_version", .optional .text s.runtimeVersion),
    ("classes", .list (s.classes.map ClassRecord.toDatum))]

section Reading
variable {m : Type → Type} {ν : Type} [Monad m] (d : Document m ν)

structure MethodRecord.Draft where
  name : Option String := none
  constructor : Option Bool := none
  tags : List Tag := []

def MethodRecord.read (v : ν) : m MethodRecord := do
  let r ← d.record (σ := MethodRecord.Draft)
    [("name", fun v r => return { r with name := some (← d.text v) }),
     ("constructor", fun v r => return { r with constructor := ← d.optional d.flag v }),
     ("tags", fun v r => return { r with tags := ← d.list (Tag.read d) v })] {} v
  return ⟨← d.required r.name, r.constructor, r.tags⟩

structure ClassRecord.Draft where
  name : Option String := none
  kind : ClassKind := .class
  parent : Option String := none
  interfaces : List String := []
  tags : List Tag := []
  methods : List MethodRecord := []

def ClassKind.read (v : ν) : m ClassKind := do
  d.required (ClassKind.ofName? (← d.word (ClassKind.all.map ClassKind.name) v))

def ClassRecord.read (v : ν) : m ClassRecord := do
  let r ← d.record (σ := ClassRecord.Draft)
    [("name", fun v r => return { r with name := some (← d.text v) }),
     ("kind", fun v r => return { r with kind := ← ClassKind.read d v }),
     ("parent", fun v r => return { r with parent := ← d.optional d.text v }),
     ("interfaces", fun v r => return { r with interfaces := ← d.list d.text v }),
     ("tags", fun v r => return { r with tags := ← d.list (Tag.read d) v }),
     ("methods", fun v r => return { r with methods := ← d.list (MethodRecord.read d) v })] {} v
  return ⟨← d.required r.name, r.kind, r.parent, r.interfaces, r.tags, r.methods⟩

def Snapshot.read (v : ν) : m Snapshot :=
  d.record
    [("runtime_version", fun v s => return { s with runtimeVersion := ← d.optional d.text v }),
     ("classes", fun v s => return { s with classes := ← d.list (ClassRecord.read d) v })] {} v

end Reading
end Reprieve
