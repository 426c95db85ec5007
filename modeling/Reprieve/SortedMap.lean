/-! Maps as lists in ascending key order, a later entry replacing an earlier one
of its key. -/
namespace Reprieve

structure SortedMap (κ υ : Type) [Ord κ] where
  entries : List (κ × υ) := []
  ascending : entries.Pairwise (fun a b => compare a.1 b.1 = .lt) := by exact .nil

namespace SortedMap
variable {κ υ : Type} [Ord κ]

def empty : SortedMap κ υ := {}

def place (k : κ) (v : υ) : List (κ × υ) → List (κ × υ)
  | [] => [(k, v)]
  | (j, w) :: r =>
    match compare k j with
    | .lt => (k, v) :: (j, w) :: r
    | .eq => (k, v) :: r
    | .gt => (j, w) :: place k v r

theorem mem_place {k : κ} {v : υ} {es : List (κ × υ)} {e : κ × υ} (h : e ∈ place k v es) :
    e = (k, v) ∨ e ∈ es := by
  induction es with
  | nil => simpa [place] using h
  | cons d r ih =>
    simp only [place] at h
    split at h
    · simpa using h
    · rcases List.mem_cons.1 h with h | h <;> simp [h]
    · rcases List.mem_cons.1 h with h | h
      · simp [h]
      · rcases ih h with h | h <;> simp [h]

theorem ascending_place [Std.TransOrd κ] [Std.LawfulEqOrd κ] (k : κ) (v : υ) {es : List (κ × υ)}
    (h : es.Pairwise fun a b => compare a.1 b.1 = .lt) :
    (place k v es).Pairwise fun a b => compare a.1 b.1 = .lt := by
  induction es with
  | nil => simp [place]
  | cons d r ih =>
    obtain ⟨j, w⟩ := d
    rw [List.pairwise_cons] at h
    simp only [place]
    split
    · rename_i hk
      refine List.pairwise_cons.2 ⟨fun e he => ?_, List.pairwise_cons.2 h⟩
      rcases List.mem_cons.1 he with rfl | he
      · exact hk
      · exact Std.TransCmp.lt_trans hk (h.1 e he)
    · rename_i hk
      rw [Std.compare_eq_iff_eq] at hk
      subst hk
      exact List.pairwise_cons.2 h
    · rename_i hk
      refine List.pairwise_cons.2 ⟨fun e he => ?_, ih h.2⟩
      rcases mem_place he with rfl | he
      · exact Std.OrientedCmp.gt_iff_lt.1 hk
      · exact h.1 e he

def insert [Std.TransOrd κ] [Std.LawfulEqOrd κ] (m : SortedMap κ υ) (k : κ) (v : υ) :
    SortedMap κ υ :=
  ⟨place k v m.entries, ascending_place k v m.ascending⟩

/-- Of the entries of one key the last stays. -/
def ofList [Std.TransOrd κ] [Std.LawfulEqOrd κ] (es : List (κ × υ)) : SortedMap κ υ :=
  es.foldl (fun m e => m.insert e.1 e.2) .empty

def get? [BEq κ] (m : SortedMap κ υ) (k : κ) : Option υ := m.entries.lookup k

theorem lookup_place [BEq κ] [LawfulBEq κ] [Std.LawfulEqOrd κ] (k j : κ) (v : υ)
    (es : List (κ × υ)) :
    (place k v es).lookup j = if j == k then some v else es.lookup j := by
  induction es with
  | nil => by_cases h : j == k <;> simp [place, List.lookup_cons, h]
  | cons d r ih =>
    obtain ⟨i, w⟩ := d
    simp only [place]
    split
    · by_cases h : j == k <;> simp [List.lookup_cons, h]
    · rename_i hk
      rw [Std.compare_eq_iff_eq] at hk
      subst hk
      by_cases h : j == k <;> simp [List.lookup_cons, h]
    · rename_i hk
      have hne : k ≠ i := fun h => by simp [h] at hk
      by_cases h : j == i
      · have : ¬ j == k := fun hj => hne ((eq_of_beq hj).symm.trans (eq_of_beq h))
        simp [List.lookup_cons, h, this]
      · simp [List.lookup_cons, h, ih]

theorem get?_insert [BEq κ] [LawfulBEq κ] [Std.TransOrd κ] [Std.LawfulEqOrd κ]
    (m : SortedMap κ υ) (k j : κ) (v : υ) :
    (m.insert k v).get? j = if j == k then some v else m.get? j :=
  lookup_place k j v m.entries

def keys (m : SortedMap κ υ) : List κ := m.entries.map (·.1)

def values (m : SortedMap κ υ) : List υ := m.entries.map (·.2)

@[simp] theorem values_empty : (empty : SortedMap κ υ).values = [] := rfl

def size (m : SortedMap κ υ) : Nat := m.entries.length

def isEmpty (m : SortedMap κ υ) : Bool := m.entries.isEmpty

@[ext] theorem ext {m n : SortedMap κ υ} (h : m.entries = n.entries) : m = n := by
  cases m; cases n; cases h; rfl

instance : Inhabited (SortedMap κ υ) := ⟨.empty⟩

end SortedMap
end Reprieve
