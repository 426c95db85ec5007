import Reprieve.Class.Lineage

/-! Classes by name. A class keeps the slot in which its key first came. -/
namespace Reprieve

structure Index where
  classes : List Descriptor := []
  slots : List (String × Nat) := []
  runtimeVersion : Option String := none

namespace Index

def slot? (ix : Index) (key : String) : Option Nat := ix.slots.lookup key

/-- A class of the same key is replaced where it stands. -/
def insert (ix : Index) (c : Descriptor) : Index :=
  match ix.slot? c.name.key with
  | some i => { ix with classes := ix.classes.set i c }
  | none =>
    { ix with
      classes := ix.classes ++ [c]
      slots := (c.name.key, ix.classes.length) :: ix.slots }

def ofClasses (cs : List Descriptor) : Index := cs.foldl insert {}

def class? (ix : Index) (name : String) : Option Descriptor :=
  (ix.slot? (ClassName.keyOf name)).bind fun i => ix.classes[i]?

def member? (ix : Index) (name method : String) : Option Member :=
  (ix.class? name).bind fun c => c.member? method

def members (ix : Index) : List Member := ix.classes.flatMap Descriptor.members

def size (ix : Index) : Nat := ix.classes.length

def isEmpty (ix : Index) : Bool := ix.classes.isEmpty

def methodCount (ix : Index) : Nat :=
  ix.classes.foldr (fun c n => c.methods.length + n) 0

def repeated? : List String → List ClassRecord → Option ClassRecord
  | _, [] => none
  | seen, r :: rs =>
    let key := ClassName.keyOf r.name
    if seen.contains key then some r else repeated? (key :: seen) rs

/-- The classes of a snapshot in its order. The error is the name, as written, of
a class that was declared before. -/
def ofSnapshot (s : Snapshot) : Except String Index :=
  match repeated? [] s.classes with
  | some r => .error r.name
  | none => .ok { ofClasses (s.classes.map (Descriptor.resolve s.classes)) with
      runtimeVersion := s.runtimeVersion }

end Index
end Reprieve
