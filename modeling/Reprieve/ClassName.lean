import Reprieve.Text

/-! Class names. The leading backslashes of a name say nothing and ASCII case
tells no two names apart, so names are compared by a key; the spelling stays. -/
namespace Reprieve

def bareName (cs : List Char) : List Char := cs.dropWhile (· == '\\')

theorem head?_bareName (cs : List Char) : (bareName cs).head? ≠ some '\\' := by
  induction cs with
  | nil => simp [bareName]
  | cons c r ih =>
    rw [bareName, List.dropWhile_cons]
    split
    · exact ih
    · rename_i h
      simpa using h

structure ClassName where
  declared : String
  bare : declared.toList.head? ≠ some '\\'

namespace ClassName

def ofText (s : String) : ClassName :=
  ⟨.ofList (bareName s.toList), by rw [String.toList_ofList]; exact head?_bareName _⟩

def keyOf (s : String) : String := .ofList (Text.fold (bareName s.toList))

def key (n : ClassName) : String := n.declared.folded

def matchesText (n : ClassName) (s : String) : Bool :=
  Text.fold n.key.toList == Text.fold (bareName s.toList)

instance : BEq ClassName := ⟨fun a b => a.key == b.key⟩

instance : Ord ClassName := ⟨fun a b => compare a.key b.key⟩

instance : ToString ClassName := ⟨declared⟩

@[ext] theorem ext {a b : ClassName} (h : a.declared = b.declared) : a = b := by
  cases a; cases b; cases h; rfl

theorem key_ofText (s : String) : (ofText s).key = keyOf s := by
  simp [key, ofText, keyOf, String.folded]

end ClassName
end Reprieve
