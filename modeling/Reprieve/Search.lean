/-! A search that asks one candidate after the other and stops at the first hit.
It keeps whom it asked. -/
namespace Reprieve

structure Search (α β : Type) where
  asked : List α := []
  hit : Option β := none

namespace Search

def run (p : α → Option β) : List α → Search α β
  | [] => {}
  | a :: r =>
    match p a with
    | some b => ⟨[a], some b⟩
    | none => let s := run p r; ⟨a :: s.asked, s.hit⟩

theorem hit_run (p : α → Option β) (as : List α) : (run p as).hit = as.findSome? p := by
  induction as with
  | nil => rfl
  | cons a r ih => cases h : p a <;> simp [run, h, ih]

end Search
end Reprieve
