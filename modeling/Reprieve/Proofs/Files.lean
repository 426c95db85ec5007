import Reprieve.FileTree
import Reprieve.Proofs.Outcomes
import Reprieve.Proofs.Paths

/-! What a write does to a tree of files. It needs a path that leads to a place where no
directory is, and it changes nothing but this place: every walk leads where it led before,
and every other file has the text that it had. -/
namespace Reprieve.FileTree

/-! ### Walks -/

theorem enter_eq_ok_iff (t : FileTree) (a : List String) (u : Unit) :
    t.enter a = .ok u ↔ t.get? a = some .directory := by
  rw [enter]
  cases t.get? a with
  | none => simp
  | some e => cases e <;> simp

theorem locate_eq_ok_iff (t : FileTree) (p : String) (a : List String) :
    t.locate p = .ok a ↔
      accept p = .ok () ∧ (Path.parts p).foldlM t.step (t.start p) = .ok a := by
  rw [locate, Except.bind_eq_ok_iff]
  exact ⟨fun ⟨_, hp, ha⟩ => ⟨hp, ha⟩, fun ⟨hp, ha⟩ => ⟨(), hp, ha⟩⟩

theorem read_eq_ok_iff (t : FileTree) (p s : String) :
    t.read p = .ok s ↔ ∃ a, t.locate p = .ok a ∧ t.get? a = some (.text s) := by
  simp only [read, look, Except.bind_eq_ok_iff]
  constructor
  · rintro ⟨e, ⟨a, ha, he⟩, hs⟩
    refine ⟨a, ha, ?_⟩
    cases hg : t.get? a with
    | none => simp [hg] at he
    | some e' =>
      simp only [hg] at he
      cases he
      cases e with
      | text s' => cases hs; rfl
      | directory => cases hs
      | binary => cases hs
  · rintro ⟨a, ha, hg⟩
    exact ⟨.text s, ⟨a, ha, by rw [hg]; rfl⟩, rfl⟩

theorem exists?_iff (t : FileTree) (p : String) :
    t.exists? p = true ↔ ∃ a, t.locate p = .ok a ∧ (t.get? a).isSome := by
  have hlook : (t.look p).isOk = true ↔ ∃ e, t.look p = .ok e := by
    cases t.look p <;> simp [Except.isOk, Except.toBool]
  rw [exists?, hlook]
  simp only [look, Except.bind_eq_ok_iff]
  constructor
  · intro h
    obtain ⟨e, a, ha, he⟩ := h
    refine ⟨a, ha, ?_⟩
    cases hg : t.get? a with
    | none =>
      rw [hg] at he
      cases he
    | some _ => rfl
  · intro h
    obtain ⟨a, ha, hsome⟩ := h
    obtain ⟨e, hg⟩ := Option.isSome_iff_exists.1 hsome
    exact ⟨e, a, ha, by rw [hg]; rfl⟩

structure Alike (t t' : FileTree) : Prop where
  directory : ∀ a, t'.get? a = some .directory ↔ t.get? a = some .directory
  start : t'.workingDirectory = t.workingDirectory

namespace Alike
variable {t t' : FileTree} (h : Alike t t')
include h

/-- Not an equation: where no step can be made, the two trees may name different faults. -/
theorem step_iff (a : List String) (part : String) (b : List String) :
    t'.step a part = .ok b ↔ t.step a part = .ok b := by
  simp only [step, Except.bind_eq_ok_iff, enter_eq_ok_iff, h.directory]

theorem walk_iff (parts : List String) (a b : List String) :
    parts.foldlM t'.step a = .ok b ↔ parts.foldlM t.step a = .ok b := by
  induction parts generalizing a with
  | nil => rfl
  | cons part parts ih =>
    simp only [List.foldlM_cons, Except.bind_eq_ok_iff, h.step_iff, ih]

theorem locate_iff (p : String) (a : List String) : t'.locate p = .ok a ↔ t.locate p = .ok a := by
  have hs : t'.start p = t.start p := by rw [FileTree.start, FileTree.start, h.start]
  rw [locate_eq_ok_iff, locate_eq_ok_iff, hs, h.walk_iff]

end Alike

theorem ne_nil_of_get? {t : FileTree} {place : List String}
    (h : t.get? place ≠ some .directory) : place ≠ [] := fun he => h (he ▸ rfl)

theorem alike_set {t : FileTree} {place : List String} (h : t.get? place ≠ some .directory)
    (s : String) : Alike t (t.set place (.text s)) := by
  refine ⟨fun a => ?_, rfl⟩
  rw [get?_set t (ne_nil_of_get? h)]
  by_cases ha : a = place
  · subst ha
    simp [h]
  · rw [if_neg ha]

/-! ### A write -/

theorem get?_of_step {t : FileTree} {a b : List String} {part : String}
    (h : t.step a part = .ok b) : t.get? a = some .directory := by
  rw [step, Except.bind_eq_ok_iff] at h
  obtain ⟨u, ha, -⟩ := h
  exact (t.enter_eq_ok_iff a u).1 ha

theorem get?_of_step_empty {t : FileTree} {a b : List String} (h : t.step a "" = .ok b) :
    t.get? b = some .directory := by
  have ha := get?_of_step h
  rw [step, Except.bind_eq_ok_iff] at h
  obtain ⟨u, -, hb⟩ := h
  cases hb
  exact ha

theorem locate_concat {t : FileTree} {p last : String} {init : List String}
    (hp : Path.parts p = init ++ [last]) (b : List String) :
    t.locate p = .ok b ↔ accept p = .ok () ∧
      ∃ a, init.foldlM t.step (t.start p) = .ok a ∧ t.step a last = .ok b := by
  simp [locate_eq_ok_iff, hp, List.foldlM_append, Except.bind_eq_ok_iff]

theorem write_ne_ok_of_slash {p : String} {init : List String}
    (hp : Path.parts p = init ++ [""]) (t t' : FileTree) (s : String) : t.write p s ≠ .ok t' := by
  have hs : (init.reverse.dropWhile (·.isEmpty)).reverse ≠ init ++ [""] := by
    -- the steps leave out the empty end at least, so there are fewer of them
    intro he
    have hle := (List.dropWhile_sublist (l := init.reverse) (·.isEmpty)).length_le
    have hl := congrArg List.length he
    simp only [List.length_reverse, List.length_append, List.length_singleton] at hle hl
    omega
  have hdrop : (init ++ [""]).reverse.dropWhile (·.isEmpty) =
      init.reverse.dropWhile (·.isEmpty) := by simp
  intro h
  simp only [write, hp, hdrop, Except.bind_eq_ok_iff] at h
  obtain ⟨_, -, h⟩ := h
  cases hlast : (init.reverse.dropWhile (·.isEmpty)).reverse.getLast? with
  | none =>
    rw [hlast] at h
    cases h
  | some last =>
    simp only [hlast, Except.bind_eq_ok_iff, if_pos hs] at h
    obtain ⟨_, -, _, -, _, h, -⟩ := h
    cases h

theorem write_of_part {p last : String} {init : List String} (hp : Path.parts p = init ++ [last])
    (hl : last ≠ "") (t t' : FileTree) (s : String) :
    t.write p s = .ok t' ↔ ∃ place, t.locate p = .ok place ∧
      t.get? place ≠ some .directory ∧ t' = t.set place (.text s) := by
  have hs : ((init ++ [last]).reverse.dropWhile (·.isEmpty)).reverse = init ++ [last] := by
    simp [hl]
  simp only [write, hp, hs, locate_concat hp, List.getLast?_concat, List.dropLast_concat,
    Except.bind_eq_ok_iff, ne_eq, not_true_eq_false, if_false]
  constructor
  · rintro ⟨_, ha, above, hw, _, -, place, hst, h⟩
    by_cases hd : t.get? place = some .directory
    · simp only [if_pos hd, Except.bind_eq_ok_iff] at h
      obtain ⟨_, h, -⟩ := h
      cases h
    · rw [if_neg hd] at h
      cases h
      exact ⟨place, ⟨ha, above, hw, hst⟩, hd, rfl⟩
  · rintro ⟨place, ⟨ha, above, hw, hst⟩, hd, rfl⟩
    have he := (t.enter_eq_ok_iff above ()).2 (get?_of_step hst)
    exact ⟨(), ha, above, hw, (), he, place, hst, by rw [if_neg hd]; rfl⟩

theorem write_eq_ok_iff (t t' : FileTree) (p s : String) :
    t.write p s = .ok t' ↔ ∃ place, t.locate p = .ok place ∧
      t.get? place ≠ some .directory ∧ t' = t.set place (.text s) := by
  obtain hnil | ⟨init, last, hp⟩ := List.eq_nil_or_concat' (Path.parts p)
  · exact absurd hnil (Path.parts_ne_nil p)
  by_cases hl : last = ""
  · subst hl
    constructor
    · exact fun h => absurd h (write_ne_ok_of_slash hp t t' s)
    · rintro ⟨place, hpl, hd, -⟩
      obtain ⟨-, a, -, hst⟩ := (locate_concat hp place).1 hpl
      exact absurd (get?_of_step_empty hst) hd
  · exact write_of_part hp hl t t' s

/-- A tree after a write: the path reads as the text that was written, and apart from the
place that it leads to nothing differs, whatever path reads it. -/
structure WrittenAt (t t' : FileTree) (p s : String) (place : List String) : Prop where
  located : t.locate p = .ok place
  holds : t'.get? place = some (.text s)
  reads : t'.read p = .ok s
  elsewhere : ∀ a, a ≠ place → t'.get? a = t.get? a
  others : ∀ q, t.locate q ≠ .ok place → ∀ u, t'.read q = .ok u ↔ t.read q = .ok u

theorem writtenAt_of_write {t t' : FileTree} {p s : String} (h : t.write p s = .ok t') :
    ∃ place, t.WrittenAt t' p s place := by
  obtain ⟨place, hpl, hd, rfl⟩ := (write_eq_ok_iff t t' p s).1 h
  have halike := alike_set hd s
  have hget := get?_set t (ne_nil_of_get? hd)
  have holds : (t.set place (.text s)).get? place = some (.text s) := by rw [hget, if_pos rfl]
  have elsewhere : ∀ a, a ≠ place → (t.set place (.text s)).get? a = t.get? a := by
    intro a ha
    rw [hget, if_neg ha]
  refine ⟨place, hpl, holds, ?reads, elsewhere, ?others⟩
  case reads => exact (read_eq_ok_iff _ p s).2 ⟨place, (halike.locate_iff p place).2 hpl, holds⟩
  case others =>
    intro q hq u
    simp only [read_eq_ok_iff, halike.locate_iff]
    refine exists_congr fun a => and_congr_right fun ha => ?_
    rw [elsewhere a fun he => hq (he ▸ ha)]

end Reprieve.FileTree
