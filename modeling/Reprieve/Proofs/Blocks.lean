import Mathlib.Data.List.Induction
import Reprieve.Proofs.Octets
import Reprieve.Proofs.Reports

/-! The blocks of the report for people. Each class has one block, with one header and the
shown members in the order in which they came, and the blocks stand in the order of the names:
from top to bottom the members are sorted, and members of one class keep their order. -/
namespace Reprieve

/-! ### Stable sorting -/

section Sorting
variable {α κ : Type} [DecidableEq κ] (key : α → κ)

variable (le : κ → κ → Bool) (trans : ∀ a b c, le a b = true → le b c = true → le a c = true)
  (total : ∀ a b, (le a b || le b a) = true)
include trans total

end Sorting

namespace TerminalReport

/-! ### Groups -/

def ofClass (c : String) (vs : List MemberVerdict) : List MemberVerdict :=
  vs.filter (·.className == c)

theorem groups_concat (vs : List MemberVerdict) (v : MemberVerdict) :
    groups (vs ++ [v]) = (groups vs).insert v.className
      (((groups vs).get? v.className).getD [] ++ [v]) :=
  List.foldl_concat ..

theorem get?_groups (vs : List MemberVerdict) (c : String) :
    (groups vs).get? c = if ofClass c vs = [] then none else some (ofClass c vs) := by
  induction vs using List.reverseRecOn with
  | nil => rfl
  | append_singleton vs v ih =>
    have hconcat : ofClass c (vs ++ [v]) =
        if v.className = c then ofClass c vs ++ [v] else ofClass c vs := by
      by_cases hc : v.className = c <;> simp [ofClass, List.filter_append, hc]
    rw [groups_concat, SortedMap.get?_insert, hconcat]
    by_cases hc : v.className = c
    · subst hc
      rw [if_pos (beq_self_eq_true _), if_pos rfl, if_neg (by simp), ih]
      split <;> simp [*]
    · rw [if_neg (by simpa using Ne.symm hc), if_neg hc, ih]

theorem ofClass_ne_nil_iff (c : String) (vs : List MemberVerdict) :
    ofClass c vs ≠ [] ↔ ∃ v ∈ vs, v.className = c := by
  simp [ofClass]

theorem mem_keys_groups_iff (vs : List MemberVerdict) (c : String) :
    c ∈ (groups vs).keys ↔ ∃ v ∈ vs, v.className = c := by
  rw [SortedMap.mem_keys_iff, get?_groups, ← ofClass_ne_nil_iff]
  split <;> simp [*]

theorem entries_groups (vs : List MemberVerdict) :
    (groups vs).entries = (groups vs).keys.map fun c => (c, ofClass c vs) := by
  refine (groups vs).entries_eq_map fun c l h => ?_
  rw [get?_groups, Option.ite_none_left_eq_some] at h
  exact (Option.some.inj h.2).symm

theorem ascending_groups (vs : List MemberVerdict) :
    (groups vs).keys.Pairwise fun c d => Text.utf8 c < Text.utf8 d := by
  rw [SortedMap.keys, List.pairwise_map]
  exact (groups vs).ascending.imp fun h => (Text.compare_eq_lt_iff_utf8 _ _).1 h

theorem nodup_keys_groups (vs : List MemberVerdict) : (groups vs).keys.Nodup := by
  refine (ascending_groups vs).imp fun hlt he => ?_
  exact List.lt_irrefl _ (he ▸ hlt)

theorem keys_groups_perm {vs ws : List MemberVerdict} (h : vs.Perm ws) :
    (groups vs).keys = (groups ws).keys := by
  have hmem : ∀ c, c ∈ (groups vs).keys ↔ c ∈ (groups ws).keys := fun c => by
    simp only [mem_keys_groups_iff, h.mem_iff]
  have hperm := (List.perm_ext_iff_of_nodup (nodup_keys_groups vs) (nodup_keys_groups ws)).2 hmem
  exact hperm.eq_of_pairwise (fun c d _ _ hcd hdc => absurd hdc (List.lt_asymm hcd))
    (ascending_groups vs) (ascending_groups ws)

/-! ### From top to bottom -/

theorem blocks_eq_flatMap (vs : List MemberVerdict) :
    blocks (groups vs) = (groups vs).keys.flatMap fun c => block c (ofClass c vs) := by
  rw [blocks, entries_groups, List.flatMap_map]

theorem className_of_mem_ofClass {c : String} {vs : List MemberVerdict} {v : MemberVerdict}
    (h : v ∈ ofClass c vs) : v.className = c := by
  simpa using (List.mem_filter.1 h).2

end TerminalReport

/-! ### Lines -/

namespace Line

def header? : Line → Option (Option ClassKind × String)
  | .header kind c => some (kind, c)
  | _ => none

end Line

namespace TerminalReport

def summaryPart (ls : List Line) : List Line := ls.dropWhile (· != .ruler)

theorem header?_block (c : String) (vs : List MemberVerdict) :
    (block c vs).filterMap Line.header? = [(vs.head?.bind (·.kind), c)] := by
  have hheader (kind : Option ClassKind) : Line.header? (.header kind c) = some (kind, c) := rfl
  have hitems : (vs.map Line.item).filterMap Line.header? = [] := by
    rw [List.filterMap_map]
    exact List.filterMap_eq_nil_iff.2 fun v _ => rfl
  rw [block, List.filterMap_cons_some (hheader _), List.filterMap_append, hitems]
  rfl

theorem filterMap_lines {β : Type} {g : Line → Option β}
    (hg : ∀ l, (∀ v, l ≠ .item v) ∧ (∀ kind c, l ≠ .header kind c) → g l = none)
    (showUnused : Bool) {vs : List MemberVerdict} (h : vs ≠ []) :
    (lines showUnused vs).filterMap g = (groups (shown showUnused vs)).keys.flatMap fun c =>
      (block c (ofClass c (shown showUnused vs))).filterMap g := by
  have hempty : g .empty = none := hg _ ⟨nofun, nofun⟩
  have hsummary : (summaryLines (Summary.ofVerdicts vs)).filterMap g = [] :=
    List.filterMap_eq_nil_iff.2 fun l hl => hg l (figure_of_mem_summaryLines hl)
  rw [lines_of_ne_nil showUnused h, List.cons_append, List.filterMap_cons_none hempty,
    List.filterMap_append, hsummary, List.append_nil, blocks_eq_flatMap, List.filterMap_flatMap]

theorem header?_lines (showUnused : Bool) {vs : List MemberVerdict} (h : vs ≠ []) :
    (lines showUnused vs).filterMap Line.header? =
      (groups (shown showUnused vs)).keys.map fun c =>
        ((ofClass c (shown showUnused vs)).head?.bind (·.kind), c) := by
  have hother (l : Line) (hl : (∀ v, l ≠ .item v) ∧ ∀ kind c, l ≠ .header kind c) :
      l.header? = none := by
    cases l with
    | header kind c => exact absurd rfl (hl.2 kind c)
    | _ => rfl
  rw [filterMap_lines hother showUnused h]
  simp only [header?_block]
  exact List.map_eq_flatMap.symm

theorem summaryPart_lines (showUnused : Bool) {vs : List MemberVerdict} (h : vs ≠ []) :
    summaryPart (lines showUnused vs) = summaryLines (Summary.ofVerdicts vs) := by
  have hbody : ∀ l ∈ Line.empty :: blocks (groups (shown showUnused vs)), (l != .ruler) = true := by
    refine List.forall_mem_cons.2 ⟨rfl, fun l hl => ?_⟩
    obtain rfl | ⟨v, rfl⟩ | ⟨kind, c, rfl⟩ := body_of_mem_blocks hl <;> simp
  rw [lines_of_ne_nil showUnused h, summaryPart, List.dropWhile_append_of_pos hbody]
  rfl

end TerminalReport
end Reprieve
