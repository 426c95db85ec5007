import Reprieve.Document
import Reprieve.Yaml.Schema

/-! Typed reading of YAML text. Where a text, a flag or a list is wanted a scalar is
taken by what it says, so numbers make texts. Aliases are followed where they are
read, a hundred times for each piece of the document at most. -/
namespace Reprieve.Yaml

/-- The state is the number of aliases that may still be followed. -/
abbrev Reading := StateT Nat Option

structure Place where
  anchors : List (Nat × Node)
  room : Nat
  node : Node

namespace Place

def follow (p : Place) : Reading Place := do
  match p.node with
  | .alias n =>
    let left + 1 ← get | failure
    set left
    let some node := p.anchors.lookup n | failure
    return { p with node }
  | _ => return p

def inside (p : Place) : Reading (Node → Place) :=
  match p.room with
  | 0 => failure
  | n + 1 => return fun node => { p with room := n, node }

/-- A scalar without a text counts as an empty list or mapping. -/
def isEmpty (p : Place) : Bool :=
  match p.node with
  | .void => true
  | .scalar _ .plain "" => true
  | _ => false

def text (p : Place) : Reading String := do
  match (← p.follow).node with
  | .scalar _ _ s => return s
  | _ => failure

def flag (p : Place) : Reading Bool := do
  match (← p.follow).node with
  | .scalar tag style s =>
    if style = .plain ∨ (style = .literal ∧ tag = some .bool) then
      let some b := Schema.bool? s | failure
      return b
    else failure
  | _ => failure

def isAbsent (p : Place) : Reading Bool := do
  match p.node with
  | .void => return true
  | .scalar tag .plain s =>
    match tag with
    | none => return Schema.isNull s
    | some t =>
      if t = .null then if Schema.isNullWord s then return true else failure
      else return false
  | _ => return false

def optional (f : Place → Reading α) (p : Place) : Reading (Option α) := do
  let p ← p.follow
  if ← p.isAbsent then return none else return some (← f p)

def list (f : Place → Reading α) (p : Place) : Reading (List α) := do
  let p ← p.follow
  match p.node with
  | .list _ items =>
    let at_ ← p.inside
    items.mapM fun n => f (at_ n)
  | _ => if p.isEmpty then return [] else failure

/-- What a tag of the document's own goes with when the tag is the word. -/
def isNothing (p : Place) : Bool :=
  match p.node with
  | .void => true
  | .scalar _ .plain s => Schema.isNull s
  | _ => false

def localName? (p : Place) : Option String :=
  match p.node with
  | .scalar tag _ _ | .list tag _ | .mapping tag _ => tag.bind TypeTag.localName?
  | _ => none

/-- The word is the text of a scalar, or the tag of one that says nothing. -/
def word (words : List String) (p : Place) : Reading String := do
  let p ← p.follow
  let w ← match p.localName?, p.node with
    | some t, _ => if p.isNothing then pure t else failure
    | none, .scalar _ _ s => pure s
    | none, _ => failure
  if words.contains w then return w else failure

abbrev Field (σ : Type) := String × (Place → σ → Reading σ)

def fields (fs : List (Field σ)) (at_ : Node → Place) :
    List String → List (Node × Node) → σ → Reading σ
  | _, [], s => return s
  | seen, (k, v) :: r, s => do
    let key ← (at_ k).text
    match fs.lookup key with
    | none => fields fs at_ seen r s
    | some f =>
      if seen.contains key then failure
      fields fs at_ (key :: seen) r (← f (at_ v) s)

def record (fs : List (Field σ)) (s : σ) (p : Place) : Reading σ := do
  let p ← p.follow
  match p.node with
  | .mapping _ entries => fields fs (← p.inside) [] entries s
  | _ => if p.isEmpty then return s else failure

def datum (anchors : List (Nat × Node)) : Nat → Node → Reading Datum
  | room, node => do
    let p ← (Place.mk anchors room node).follow
    if p.localName?.isSome then failure
    match p.node with
    | .void => return .null
    | .alias _ => failure
    | .scalar tag style s =>
      let some d := Schema.ofScalar? tag style s | failure
      return d
    | .list _ items =>
      match room with
      | 0 => failure
      | room + 1 => return .list (← items.mapM (datum anchors room))
    | .mapping _ entries =>
      match room with
      | 0 => failure
      | room + 1 =>
        return .map (← entries.mapM fun e => do
          return (← datum anchors room e.1, ← datum anchors room e.2))

end Place

def document : Document Reading Place where
  text := Place.text
  flag := Place.flag
  optional := Place.optional
  list := Place.list
  word := Place.word
  record := Place.record
  datum p := Place.datum p.anchors p.room p.node
  mismatch := failure

def room : Nat := 128

def read (f : Place → Reading α) (text : String) : Option α := do
  let g ← Graph.ofText? text
  let (a, _) ← (f ⟨g.anchors, room, g.root⟩).run (100 * g.size)
  return a

end Reprieve.Yaml
