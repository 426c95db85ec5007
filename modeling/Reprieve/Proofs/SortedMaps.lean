import Mathlib.Algebra.Ring.Nat
import Mathlib.Data.List.Basic
import Reprieve.SortedMap

/-! Maps in ascending order: what an insertion keeps, replaces and adds. A map is known by
what its keys lead to. -/
namespace Reprieve.SortedMap
variable {κ υ : Type} [Ord κ]

/-! ### Entries that come in order -/

theorem place_last {k : κ} {v : υ} {es : List (κ × υ)} [Std.OrientedOrd κ]
    (h : ∀ e ∈ es, compare e.1 k = .lt) : place k v es = es ++ [(k, v)] := by
  induction es with
  | nil => rfl
  | cons e es ih =>
    have hgt : compare k e.1 = .gt := Std.OrientedCmp.gt_iff_lt.2 (h e List.mem_cons_self)
    rw [place, hgt, ih fun d hd => h d (List.mem_cons_of_mem e hd)]
    rfl

theorem zip_keys_values (m : SortedMap κ υ) : m.keys.zip m.values = m.entries := by
  rw [keys, values, List.zip_map']
  exact List.map_id _

section Insert
variable [Std.TransOrd κ] [Std.LawfulEqOrd κ]

theorem mem_keys_insert {m : SortedMap κ υ} {k j : κ} {v : υ} (h : j ∈ (m.insert k v).keys) :
    j = k ∨ j ∈ m.keys := by
  obtain ⟨e, he, rfl⟩ := List.mem_map.1 h
  cases mem_place he with
  | inl he => exact .inl (congrArg Prod.fst he)
  | inr he => exact .inr (List.mem_map_of_mem he)

theorem mem_values_insert {m : SortedMap κ υ} {k : κ} {v w : υ} (h : w ∈ (m.insert k v).values) :
    w = v ∨ w ∈ m.values := by
  obtain ⟨e, he, rfl⟩ := List.mem_map.1 h
  cases mem_place he with
  | inl he => exact .inl (congrArg Prod.snd he)
  | inr he => exact .inr (List.mem_map_of_mem he)

theorem entries_foldl_insert (es : List (κ × υ)) : ∀ m : SortedMap κ υ,
    (m.entries ++ es).Pairwise (fun a b => compare a.1 b.1 = .lt) →
      (es.foldl (fun m e => m.insert e.1 e.2) m).entries = m.entries ++ es := by
  induction es with
  | nil => simp
  | cons e es ih =>
    intro m h
    have hlast : (m.insert e.1 e.2).entries = m.entries ++ [e] :=
      place_last fun d hd => (List.pairwise_append.1 h).2.2 d hd e List.mem_cons_self
    rw [List.foldl_cons, ih (m.insert e.1 e.2) (by rw [hlast]; simpa using h), hlast]
    simp

theorem entries_ofList {es : List (κ × υ)}
    (h : es.Pairwise fun a b => compare a.1 b.1 = .lt) : (ofList es).entries = es :=
  entries_foldl_insert es empty h

theorem foldl_insert_entries (m : SortedMap κ υ) :
    m.entries.foldl (fun m e => m.insert e.1 e.2) empty = m :=
  ext (entries_ofList m.ascending)

theorem mem_of_mem_foldl_insert {e : κ × υ} (es : List (κ × υ)) : ∀ m : SortedMap κ υ,
    e ∈ (es.foldl (fun m e => m.insert e.1 e.2) m).entries → e ∈ m.entries ∨ e ∈ es := by
  induction es with
  | nil => exact fun _ => .inl
  | cons d es ih =>
    intro m he
    cases ih (m.insert d.1 d.2) he with
    | inl hm =>
      cases mem_place hm with
      | inl hd => exact .inr (hd ▸ List.mem_cons_self)
      | inr hm => exact .inl hm
    | inr hes => exact .inr (List.mem_cons_of_mem d hes)

theorem mem_of_mem_ofList {es : List (κ × υ)} {e : κ × υ} (h : e ∈ (ofList es).entries) :
    e ∈ es :=
  (mem_of_mem_foldl_insert es empty h).resolve_left List.not_mem_nil

end Insert

/-! ### Keys and what they lead to -/

section Lookup
variable [Std.LawfulEqOrd κ] [BEq κ] [LawfulBEq κ]

theorem place_perm {k : κ} {v : υ} {es : List (κ × υ)} (h : es.lookup k = none) :
    (place k v es).Perm ((k, v) :: es) := by
  induction es with
  | nil => exact .refl _
  | cons e es ih =>
    obtain ⟨j, w⟩ := e
    simp only [place]
    split
    · exact .refl _
    · rename_i hk
      rw [Std.compare_eq_iff_eq] at hk
      simp [hk] at h
    · have ht : es.lookup k = none := by
        rw [List.lookup_cons] at h
        split at h
        · cases h
        · exact h
      exact ((ih ht).cons _).trans (.swap _ _ _)

theorem mem_iff_lookup {es : List (κ × υ)}
    (h : es.Pairwise fun a b => compare a.1 b.1 = .lt) (k : κ) (v : υ) :
    (k, v) ∈ es ↔ es.lookup k = some v := by
  induction es with
  | nil => simp
  | cons e es ih =>
    obtain ⟨j, w⟩ := e
    rw [List.pairwise_cons] at h
    rw [List.mem_cons, List.lookup_cons, ih h.2]
    by_cases hk : k = j
    · subst hk
      -- no later entry has the key of the first
      have hlater : es.lookup k ≠ some v := by
        intro hv
        have hlt := h.1 (k, v) ((ih h.2).2 hv)
        rw [Std.compare_self] at hlt
        cases hlt
      simp [hlater, eq_comm]
    · simp [hk, beq_eq_false_iff_ne.2 hk]

theorem place_of_lookup [Std.TransOrd κ] {k : κ} (v : υ) {w : υ} {es : List (κ × υ)}
    (h : es.Pairwise fun a b => compare a.1 b.1 = .lt) (hw : es.lookup k = some w) :
    ∃ l r, es = l ++ (k, w) :: r ∧ place k v es = l ++ (k, v) :: r := by
  induction es with
  | nil => cases hw
  | cons e es ih =>
    obtain ⟨j, u⟩ := e
    have hmem := (mem_iff_lookup h k w).2 hw
    rw [List.pairwise_cons] at h
    simp only [place]
    split
    · rename_i hk
      exfalso
      cases List.mem_cons.1 hmem with
      | inl he =>
        cases he
        rw [Std.compare_self] at hk
        cases hk
      | inr he =>
        have hlt := Std.TransCmp.lt_trans hk (h.1 _ he)
        rw [Std.compare_self] at hlt
        cases hlt
    · rename_i hk
      rw [Std.compare_eq_iff_eq] at hk
      subst hk
      obtain rfl : u = w := by simpa using hw
      exact ⟨[], es, rfl, rfl⟩
    · rename_i hk
      have hne : k ≠ j := fun he => by simp [he] at hk
      rw [List.lookup_cons, beq_eq_false_iff_ne.2 hne] at hw
      obtain ⟨l, r, hes, hp⟩ := ih h.2 hw
      exact ⟨(j, u) :: l, r, by rw [hes]; rfl, by rw [hp]; rfl⟩

theorem sum_values_insert [Std.TransOrd κ] (m : SortedMap κ Nat) (k : κ) (n : Nat) :
    (m.insert k n).values.sum + (m.get? k).getD 0 = m.values.sum + n := by
  simp only [values, insert]
  cases hm : m.get? k with
  | none =>
    have hsum := ((place_perm (v := n) hm).map (·.2)).sum_nat
    rw [hsum, List.map_cons, List.sum_cons, Option.getD_none]
    omega
  | some w =>
    obtain ⟨l, r, hes, hpl⟩ := place_of_lookup n m.ascending hm
    rw [hpl, hes, Option.getD_some]
    simp only [List.map_append, List.map_cons, List.sum_append, List.sum_cons]
    omega

theorem isSome_get?_foldl_insert [Std.TransOrd κ] (es : List (κ × υ)) (k : κ) :
    ∀ m : SortedMap κ υ, ((es.foldl (fun m e => m.insert e.1 e.2) m).get? k).isSome = true ↔
      k ∈ es.map Prod.fst ∨ (m.get? k).isSome = true := by
  induction es with
  | nil => simp
  | cons e es ih =>
    intro m
    rw [List.foldl_cons, ih, get?_insert]
    by_cases hk : k = e.1
    · simp [hk]
    · simp [hk, beq_eq_false_iff_ne.2 hk]

theorem isSome_get?_ofList [Std.TransOrd κ] (es : List (κ × υ)) (k : κ) :
    ((ofList es).get? k).isSome = true ↔ k ∈ es.map Prod.fst := by
  rw [ofList, isSome_get?_foldl_insert]
  exact or_iff_left nofun

theorem mem_entries_iff (m : SortedMap κ υ) (k : κ) (v : υ) :
    (k, v) ∈ m.entries ↔ m.get? k = some v :=
  mem_iff_lookup m.ascending k v

theorem mem_keys_iff (m : SortedMap κ υ) (k : κ) : k ∈ m.keys ↔ ∃ v, m.get? k = some v := by
  simp only [← mem_entries_iff]
  constructor
  · intro h
    obtain ⟨e, he, rfl⟩ := List.mem_map.1 h
    exact ⟨e.2, he⟩
  · rintro ⟨v, h⟩
    exact List.mem_map_of_mem h

theorem entries_eq_map (m : SortedMap κ υ) {f : κ → υ}
    (h : ∀ k v, m.get? k = some v → v = f k) : m.entries = m.keys.map fun k => (k, f k) := by
  rw [keys, List.map_map]
  refine (List.map_id m.entries).symm.trans (List.map_congr_left fun e he => ?_)
  rw [Function.comp_apply, ← h e.1 e.2 ((m.mem_entries_iff _ _).1 he)]
  rfl

theorem ext_get? [Std.OrientedOrd κ] {m n : SortedMap κ υ} (h : ∀ k, m.get? k = n.get? k) :
    m = n := by
  have hmem : ∀ e, e ∈ m.entries ↔ e ∈ n.entries := by
    intro e
    rw [mem_iff_lookup m.ascending e.1 e.2, mem_iff_lookup n.ascending e.1 e.2]
    exact (h e.1).congr_left
  have hnodup (m : SortedMap κ υ) : m.entries.Nodup := by
    refine m.ascending.imp fun hlt he => ?_
    rw [he, Std.compare_self] at hlt
    cases hlt
  have hperm := (List.perm_ext_iff_of_nodup (hnodup m) (hnodup n)).2 hmem
  refine ext (hperm.eq_of_pairwise (fun a b _ _ hab hba => ?_) m.ascending n.ascending)
  -- no key is below another and above it
  rw [Std.OrientedCmp.gt_iff_lt.2 hab] at hba
  cases hba

end Lookup
end Reprieve.SortedMap
