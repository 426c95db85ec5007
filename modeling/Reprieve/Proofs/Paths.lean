import Mathlib.Data.String.Basic
import Reprieve.Path

/-! The parts of a path. They are what stands between the slashes, so they come apart at
every slash, and a name that is joined to a path is its last part. -/
namespace Reprieve.Path
open String (utf8Len)

/-! ### Scanning for slashes

What is behind the scan is the text before the part that is being read, and the part. -/

section Scan
variable (l m : List Char) (acc : List String)

theorem splitOnAux_end :
    (String.ofList (l ++ m)).splitOnAux "/" ⟨utf8Len l⟩ ⟨utf8Len (l ++ m)⟩ 0 acc =
      acc.reverse ++ [.ofList m] := by
  have hend := (String.atEnd_of_valid (l ++ m) []).2 rfl
  have hpart := String.extract_of_valid l m []
  rw [List.append_nil] at hend hpart
  rw [← String.utf8Len_append] at hpart
  rw [String.splitOnAux, if_pos hend, hpart, List.reverse_cons]

theorem next_eq (c : Char) (r : List Char) :
    String.Pos.Raw.next (.ofList (l ++ c :: r)) ⟨utf8Len l⟩ = ⟨utf8Len (l ++ [c])⟩ := by
  rw [String.next_of_valid, String.utf8Len_append, String.utf8Len_cons, String.utf8Len_nil,
    Nat.zero_add]

theorem splitOnAux_slash (r : List Char) :
    (String.ofList (l ++ m ++ '/' :: r)).splitOnAux "/" ⟨utf8Len l⟩ ⟨utf8Len (l ++ m)⟩ 0 acc =
      (String.ofList (l ++ m ++ '/' :: r)).splitOnAux "/" ⟨utf8Len (l ++ m ++ ['/'])⟩
        ⟨utf8Len (l ++ m ++ ['/'])⟩ 0 (.ofList m :: acc) := by
  have hend := (String.atEnd_of_valid (l ++ m) ('/' :: r)).not.2 (List.cons_ne_nil _ _)
  have hget : String.Pos.Raw.get (.ofList (l ++ m ++ '/' :: r)) ⟨utf8Len (l ++ m)⟩ =
      String.Pos.Raw.get "/" 0 := String.get_of_valid (l ++ m) ('/' :: r)
  have hdone : (String.Pos.Raw.next "/" 0).atEnd "/" = true := by decide
  have hback : (⟨utf8Len (l ++ m ++ ['/'])⟩ : String.Pos.Raw).unoffsetBy
      (String.Pos.Raw.next "/" 0) = ⟨utf8Len l + utf8Len m⟩ := by
    rw [String.utf8Len_append, String.utf8Len_append]
    rfl
  rw [String.splitOnAux, if_neg hend, hget, if_pos (beq_self_eq_true _), if_pos hdone,
    next_eq, hback, String.extract_of_valid]

theorem splitOnAux_other {c : Char} (hc : c ≠ '/') (r : List Char) :
    (String.ofList (l ++ m ++ c :: r)).splitOnAux "/" ⟨utf8Len l⟩ ⟨utf8Len (l ++ m)⟩ 0 acc =
      (String.ofList (l ++ m ++ c :: r)).splitOnAux "/" ⟨utf8Len l⟩
        ⟨utf8Len (l ++ m ++ [c])⟩ 0 acc := by
  have hend := (String.atEnd_of_valid (l ++ m) (c :: r)).not.2 (List.cons_ne_nil _ _)
  have hget := String.get_of_valid (l ++ m) (c :: r)
  have hslash : (c == String.Pos.Raw.get "/" 0) = false := beq_false_of_ne hc
  have hback : (⟨utf8Len (l ++ m)⟩ : String.Pos.Raw).unoffsetBy 0 = ⟨utf8Len (l ++ m)⟩ := rfl
  rw [String.splitOnAux, if_neg hend, hget, List.headD_cons, hslash, if_neg Bool.false_ne_true,
    hback, next_eq]

/-- By induction on the text that is left, behind the part that is being read. -/
theorem splitOnAux_eq (r : List Char) :
    (String.ofList (l ++ m ++ r)).splitOnAux "/" ⟨utf8Len l⟩ ⟨utf8Len (l ++ m)⟩ 0 acc =
      acc.reverse ++ (r.splitOnPPrepend (· == '/') m.reverse).map String.ofList := by
  induction r generalizing l m acc with
  | nil => simpa using splitOnAux_end l m acc
  | cons c r ih =>
    by_cases hc : c = '/'
    · subst hc
      have hrest := ih (l ++ m ++ ['/']) [] (.ofList m :: acc)
      rw [List.append_nil, List.append_assoc _ _ r, List.singleton_append] at hrest
      rw [splitOnAux_slash, hrest, List.splitOnPPrepend_cons_eq_if, if_pos (by simp)]
      simp
    · have hrest := ih l (m ++ [c]) acc
      rw [← List.append_assoc, List.append_assoc _ _ r, List.singleton_append] at hrest
      rw [splitOnAux_other l m acc hc, hrest, List.splitOnPPrepend_cons_eq_if,
        if_neg (by simpa using hc)]
      simp

end Scan

/-! ### Parts -/

theorem parts_eq (p : String) : parts p = (p.toList.splitOn '/').map String.ofList := by
  have h := splitOnAux_eq [] [] [] p.toList
  rw [List.nil_append, List.nil_append, String.ofList_toList] at h
  rw [parts, String.splitOn, if_neg (by decide)]
  exact h

theorem parts_ne_nil (p : String) : parts p ≠ [] := by
  rw [parts_eq]
  exact List.map_eq_nil_iff.not.2 (List.splitOn_ne_nil _ _)

theorem parts_append_slash (p q : String) : parts (p ++ "/" ++ q) = parts p ++ parts q := by
  have hlist : (p ++ "/" ++ q).toList = p.toList ++ '/' :: q.toList := by simp
  rw [parts_eq, parts_eq, parts_eq, hlist, List.splitOn_append_cons_self, List.map_append]

theorem parts_of_not_mem {p : String} (h : '/' ∉ p.toList) : parts p = [p] := by
  rw [parts_eq, List.splitOn_eq_singleton h, List.map_singleton, String.ofList_toList]

theorem parts_join (base : String) {name : String} (h : '/' ∉ name.toList) :
    ∃ init, parts (join base name) = init ++ [name] := by
  rw [join]
  split
  · exact ⟨[], parts_of_not_mem h⟩
  · split
    · rename_i hlast
      obtain ⟨cs, hcs⟩ := List.getLast?_eq_some_iff.1 (eq_of_beq hlast)
      have hbase : base = .ofList cs ++ "/" := by
        rw [← base.ofList_toList, hcs]
        simp
      exact ⟨parts (.ofList cs), by rw [hbase, parts_append_slash, parts_of_not_mem h]⟩
    · exact ⟨parts base, by rw [parts_append_slash, parts_of_not_mem h]⟩

end Reprieve.Path
