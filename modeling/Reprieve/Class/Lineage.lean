import Reprieve.Class.Descriptor

/-! What the records of a snapshot say that a class inherits. Parents and
interfaces are followed by key from record to record; a name without a record is
kept and leads no further. Both walks end because a record is used once. -/
namespace Reprieve.Lineage

def find? (rs : List ClassRecord) (key : String) : Option ClassRecord :=
  rs.find? fun r => ClassName.keyOf r.name == key

def unseen (rs : List ClassRecord) (seen : List String) : List ClassRecord :=
  rs.filter fun r => !seen.contains (ClassName.keyOf r.name)

theorem unseen_cons_le (rs : List ClassRecord) (seen : List String) (key : String) :
    (unseen rs (key :: seen)).length ≤ (unseen rs seen).length := by
  induction rs with
  | nil => simp [unseen]
  | cons r rs ih =>
    simp only [unseen, List.filter_cons, List.contains_cons] at ih ⊢
    grind

theorem unseen_cons_lt {rs : List ClassRecord} {seen : List String} {key : String} {r : ClassRecord}
    (h : find? rs key = some r) (hs : seen.contains key = false) :
    (unseen rs (key :: seen)).length < (unseen rs seen).length := by
  induction rs with
  | nil => simp [find?] at h
  | cons q rs ih =>
    have := unseen_cons_le rs seen key
    simp only [find?, List.find?_cons, unseen, List.filter_cons, List.contains_cons] at h ih this ⊢
    split at h <;> grind

/-- The parents of a class, nearest first, up to the first key that was there before. -/
def climb (rs : List ClassRecord) (seen : List String) : Option String → List ClassName
  | none => []
  | some parent =>
    let key := ClassName.keyOf parent
    if _hs : seen.contains key then []
    else .ofText parent :: match _h : find? rs key with
      | none => []
      | some r => climb rs (key :: seen) r.parent
termination_by (unseen rs seen).length
decreasing_by exact unseen_cons_lt _h (by simpa using _hs)

def ancestors (rs : List ClassRecord) (r : ClassRecord) : List ClassName :=
  climb rs [ClassName.keyOf r.name] r.parent

/-- The pending names and all that they lead to, the latest first, each key once. -/
def spread (rs : List ClassRecord) (seen : List String) : List String → List ClassName
  | [] => []
  | name :: pending =>
    let key := ClassName.keyOf name
    if _hs : seen.contains key then spread rs seen pending
    else .ofText name :: match _h : find? rs key with
      | none => spread rs (key :: seen) pending
      | some r => spread rs (key :: seen) (r.interfaces.reverse ++ pending)
termination_by pending => ((unseen rs seen).length, pending.length)
decreasing_by
  · exact .right _ (by simp)
  · rcases Nat.lt_or_eq_of_le (unseen_cons_le rs seen key) with hl | he
    · exact .left _ _ hl
    · rw [he]; exact .right _ (by simp)
  · exact .left _ _ (unseen_cons_lt _h (by simpa using _hs))

def declared (rs : List ClassRecord) (r : ClassRecord) : List String :=
  r.interfaces ++ (ancestors rs r).flatMap fun a => ((find? rs a.key).map (·.interfaces)).getD []

def interfaces (rs : List ClassRecord) (r : ClassRecord) : List ClassName :=
  spread rs [] (declared rs r).reverse

end Lineage

def Descriptor.resolve (rs : List ClassRecord) (r : ClassRecord) : Descriptor :=
  (Lineage.interfaces rs r).foldl Descriptor.addInterface
    { name := .ofText r.name
      kind := r.kind
      ancestors := Lineage.ancestors rs r
      tags := r.tags
      methods := r.methods.map Method.ofRecord }

end Reprieve
