import Mathlib.Data.List.Induction
import Mathlib.Logic.Relation
import Reprieve.Proofs.Arguments

/-! Maps of arguments by their slots. What a key denotes is said by the key alone, and a slot
holds the last value that comes for it. So of a document nothing counts but the values for each
slot, in their order. -/
namespace Reprieve.Tag

/-! ### Keys -/

/-- Whole numbers and texts denote slots, and no other key does. -/
inductive Denotes : Datum → Slot → Prop
  | number {i : Nat} (h : i < positionBound) : Denotes (.int i) (.position i)
  | digits {s : String} {i : Nat} (h : ReadsAs s i) : Denotes (.text s) (.position i)
  | name {s : String} (h : ¬ ReadsAsPosition s) : Denotes (.text s) (.name s)

theorem denotes_iff (k : Datum) (slot : Slot) : Denotes k slot ↔ Slot.ofKey? k = some slot := by
  constructor
  · intro h
    cases h with
    | @number i h =>
      rw [Slot.ofKey?, if_pos ⟨Int.natCast_nonneg i, Int.ofNat_lt.2 h⟩, Int.toNat_natCast]
    | digits h => rw [Slot.ofKey?, (position?_eq_some_iff_readsAs _ _).2 h]
    | name h => exact ofKey?_name ((not_readsAsPosition_iff _).1 h)
  · intro h
    cases k with
    | int n =>
      rw [Slot.ofKey?, Option.ite_none_right_eq_some] at h
      obtain ⟨⟨h0, hb⟩, h⟩ := h
      obtain ⟨i, rfl⟩ := Int.eq_ofNat_of_zero_le h0
      cases h
      exact .number (Int.ofNat_lt.1 hb)
    | text s =>
      rw [Slot.ofKey?] at h
      cases hs : position? s with
      | none =>
        rw [hs] at h
        cases h
        exact .name ((not_readsAsPosition_iff s).2 hs)
      | some i =>
        rw [hs] at h
        cases h
        exact .digits ((position?_eq_some_iff_readsAs s i).1 hs)
    | null => cases h
    | bool => cases h
    | float => cases h
    | list => cases h
    | map => cases h

instance (k : Datum) (slot : Slot) : Decidable (Denotes k slot) :=
  decidable_of_iff _ (denotes_iff k slot).symm

theorem position?_toString_eq_none {n : Int} (h : ¬ (0 ≤ n ∧ n < positionBound)) :
    position? (toString n) = none := by
  rw [Option.eq_none_iff_forall_ne_some]
  intro i hi
  rw [position?_eq_some_iff, Text.toList_toString] at hi
  by_cases hn : n < 0
  · -- the minus sign is no digit
    rw [if_pos hn] at hi
    have hd := ((Text.numeral?_eq_some_iff _ i).1 hi.1).2.1 '-' List.mem_cons_self
    cases hd
  · rw [if_neg hn, unsigned_of_isDigit fun _ => Text.isDigit_of_mem_toDigits,
      Text.numeral?_toDigits] at hi
    obtain ⟨hi, hb⟩ := hi
    cases hi
    omega

/-- The text of a number denotes the same, exactly if the number is a position. -/
theorem denotes_toString_iff (n : Int) :
    (∀ slot, Denotes (.int n) slot ↔ Denotes (.text (toString n)) slot) ↔
      0 ≤ n ∧ n < positionBound := by
  simp only [denotes_iff]
  constructor
  · intro h
    by_contra hn
    have hname := (h (.name (toString n))).2 (ofKey?_name (position?_toString_eq_none hn))
    rw [Slot.ofKey?, if_neg hn] at hname
    cases hname
  · intro hn slot
    obtain ⟨i, rfl⟩ := Int.eq_ofNat_of_zero_le hn.1
    rw [Slot.ofKey?, if_pos hn, Int.toNat_natCast, ofKey?_digits (Int.ofNat_lt.1 hn.2)]

/-! ### Values by slots -/

def valuesAt {α : Type} (slot : Slot) (entries : List (Datum × α)) : List α :=
  (entries.filter fun e => decide (Denotes e.1 slot)).map (·.2)

section Values
variable {α β : Type} (slot : Slot)

theorem valuesAt_append (es fs : List (Datum × α)) :
    valuesAt slot (es ++ fs) = valuesAt slot es ++ valuesAt slot fs := by
  simp [valuesAt]

theorem valuesAt_cons (e : Datum × α) (es : List (Datum × α)) :
    valuesAt slot (e :: es) = if Denotes e.1 slot then e.2 :: valuesAt slot es
      else valuesAt slot es := by
  by_cases h : Denotes e.1 slot <;> simp [valuesAt, h]

theorem valuesAt_map (f : α → β) (es : List (Datum × α)) :
    valuesAt slot (es.map fun e => (e.1, f e.2)) = (valuesAt slot es).map f := by
  simp [valuesAt, List.filter_map, Function.comp_def]

end Values

namespace Arguments

def get? (a : Arguments) : Slot → Option Value
  | .position i => a.at? i
  | .name s => a.named? s

theorem ext_get? {a b : Arguments} (h : ∀ slot, a.get? slot = b.get? slot) : a = b := by
  obtain ⟨p, q⟩ := a
  obtain ⟨p', q'⟩ := b
  have hpos : p = p' := SortedMap.ext_get? fun i => h (.position i)
  have hname : q = q' := SortedMap.ext_get? fun s => h (.name s)
  rw [hpos, hname]

theorem get?_put (a : Arguments) (v : Value) (slot t : Slot) :
    (a.put v slot).get? t = if t = slot then some v else a.get? t := by
  cases slot with
  | position i =>
    cases t with
    | position j => simp [put, get?, at?, SortedMap.get?_insert]
    | name s => rfl
  | name s =>
    cases t with
    | position j => rfl
    | name t => simp [put, get?, named?, SortedMap.get?_insert]

theorem get?_entered (a : Arguments) (e : Datum × Value) (slot : Slot) :
    (a.entered e).get? slot = if Denotes e.1 slot then some e.2 else a.get? slot := by
  simp only [denotes_iff, entered]
  cases Slot.ofKey? e.1 with
  | none => rfl
  | some t => simp [get?_put, eq_comm]

theorem get?_ofEntries (es : List (Datum × Value)) (slot : Slot) :
    (ofEntries es).get? slot = (valuesAt slot es).getLast? := by
  induction es using List.reverseRecOn with
  | nil => cases slot <;> rfl
  | append_singleton es e ih =>
    have hstep : ofEntries (es ++ [e]) = (ofEntries es).entered e := List.foldl_concat ..
    rw [hstep, get?_entered, ih, valuesAt_append, valuesAt_cons]
    by_cases h : Denotes e.1 slot
    · simp [h, valuesAt]
    · simp [h, valuesAt]

/-! ### A document of entries -/

def Decodable (entries : List (Datum × Datum)) : Prop :=
  ∀ e ∈ entries, ∃ v, Value.ofDatum? e.2 = some v

/-- Each slot has the last value that came for it, and no more is there. -/
def HoldsLast (a : Arguments) (entries : List (Datum × Datum)) : Prop :=
  ∀ slot, a.get? slot = (valuesAt slot entries).getLast?.bind Value.ofDatum?

theorem mapM_eq_some_iff {entries : List (Datum × Datum)} {es : List (Datum × Value)} :
    (entries.mapM fun e => do return (e.1, ← Value.ofDatum? e.2)) = some es ↔
      (entries.map fun e => (e.1, Value.ofDatum? e.2)) = es.map fun e => (e.1, some e.2) := by
  have hone (e : Datum × Datum) (f : Datum × Value) :
      (do return (e.1, ← Value.ofDatum? e.2)) = some f ↔
        (e.1, Value.ofDatum? e.2) = (f.1, some f.2) := by
    simp [Option.bind_eq_some_iff, Prod.ext_iff, and_comm]
  simp only [mapM_eq_some_iff_forall₂, hone, ← List.forall₂_eq_eq_eq, List.forall₂_map_left_iff,
    List.forall₂_map_right_iff]

theorem exists_mapM_iff (entries : List (Datum × Datum)) :
    (∃ es, (entries.mapM fun e => do return (e.1, ← Value.ofDatum? e.2)) = some es) ↔
      Decodable entries := by
  simp only [mapM_eq_some_iff_forall₂, exists_forall₂_iff, Decodable]
  simp [Option.bind_eq_some_iff]

theorem holdsLast_of_map_eq {entries : List (Datum × Datum)} {es : List (Datum × Value)}
    (h : (entries.map fun e => (e.1, Value.ofDatum? e.2)) = es.map fun e => (e.1, some e.2)) :
    (ofEntries es).HoldsLast entries := by
  intro slot
  have hvalues := congrArg (fun es => (valuesAt slot es).getLast?) h
  simp only [valuesAt_map, List.getLast?_map] at hvalues
  rw [get?_ofEntries]
  simpa [Option.bind_map, Function.comp_def] using (congrArg (·.bind id) hvalues).symm

theorem HoldsLast.unique {a b : Arguments} {entries : List (Datum × Datum)}
    (ha : a.HoldsLast entries) (hb : b.HoldsLast entries) : a = b :=
  ext_get? fun slot => (ha slot).trans (hb slot).symm

theorem ofDatum?_map_eq_some_iff (entries : List (Datum × Datum)) (a : Arguments) :
    ofDatum? (.map entries) = some a ↔ Decodable entries ∧ a.HoldsLast entries := by
  rw [ofDatum?, ← exists_mapM_iff]
  simp only [Option.bind_eq_bind, Option.bind_eq_some_iff, Option.pure_def, Option.some.injEq]
  constructor
  · intro h
    obtain ⟨es, hes, rfl⟩ := h
    exact ⟨⟨es, hes⟩, holdsLast_of_map_eq (mapM_eq_some_iff.1 hes)⟩
  · intro h
    obtain ⟨⟨es, hes⟩, ha⟩ := h
    exact ⟨es, hes, (holdsLast_of_map_eq (mapM_eq_some_iff.1 hes)).unique ha⟩

/-- Documents with the same values for every slot, all of them readable in both or in neither. -/
theorem ofDatum?_map_congr {entries entries' : List (Datum × Datum)}
    (hd : Decodable entries ↔ Decodable entries')
    (hv : ∀ slot, valuesAt slot entries = valuesAt slot entries') :
    ofDatum? (.map entries) = ofDatum? (.map entries') := by
  ext a
  rw [ofDatum?_map_eq_some_iff, ofDatum?_map_eq_some_iff, hd]
  simp only [HoldsLast, hv]

theorem exists_ofDatum?_map_iff (entries : List (Datum × Datum)) :
    (∃ a, ofDatum? (.map entries) = some a) ↔ Decodable entries := by
  rw [← exists_mapM_iff]
  simp only [ofDatum?, Option.bind_eq_bind, Option.bind_eq_some_iff, Option.pure_def,
    Option.some.injEq]
  constructor
  · intro h
    obtain ⟨_, es, hes, -⟩ := h
    exact ⟨es, hes⟩
  · intro h
    obtain ⟨es, hes⟩ := h
    exact ⟨_, es, hes, rfl⟩

theorem denotes_iff_of_ofDatum?_eq {k j : Datum}
    (h : ofDatum? (.map [(k, .null)]) = ofDatum? (.map [(j, .null)])) (slot : Slot) :
    Denotes k slot ↔ Denotes j slot := by
  have hd : Decodable [(k, .null)] := List.forall_mem_singleton.2 ⟨.null, rfl⟩
  obtain ⟨a, ha⟩ := (exists_ofDatum?_map_iff _).2 hd
  have hk := ((ofDatum?_map_eq_some_iff _ a).1 ha).2 slot
  have hj := ((ofDatum?_map_eq_some_iff _ a).1 (h ▸ ha)).2 slot
  rw [hk, valuesAt_cons, valuesAt_cons] at hj
  by_cases hks : Denotes k slot
  · by_cases hjs : Denotes j slot
    · exact iff_of_true hks hjs
    · rw [if_pos hks, if_neg hjs] at hj
      cases hj
  · by_cases hjs : Denotes j slot
    · rw [if_neg hks, if_pos hjs] at hj
      cases hj
    · exact iff_of_false hks hjs

/-! ### Documents that mean the same -/

/-- A number is written as its text, entries change places though not those of one slot, or an
entry comes in whose key denotes no slot. -/
inductive Revised : List (Datum × Datum) → List (Datum × Datum) → Prop
  | respelled (l r : List (Datum × Datum)) {n : Int} (d : Datum)
    (h : 0 ≤ n ∧ n < positionBound) :
    Revised (l ++ (.int n, d) :: r) (l ++ (.text (toString n), d) :: r)
  | reordered {es fs : List (Datum × Datum)} (hp : es.Perm fs)
    (h : ∀ slot, valuesAt slot es = valuesAt slot fs) : Revised es fs
  | inserted (l r : List (Datum × Datum)) {k d : Datum} (hk : ∀ slot, ¬ Denotes k slot)
    (hd : ∃ v, Value.ofDatum? d = some v) : Revised (l ++ r) (l ++ (k, d) :: r)

theorem Revised.swapped (l r : List (Datum × Datum)) {e f : Datum × Datum}
    (h : ∀ slot, Denotes e.1 slot → ¬ Denotes f.1 slot) :
    Revised (l ++ e :: f :: r) (l ++ f :: e :: r) := by
  refine .reordered ((List.Perm.swap f e r).append_left l) fun slot => ?_
  simp only [valuesAt_append, valuesAt_cons]
  by_cases he : Denotes e.1 slot
  · simp only [if_pos he, if_neg (h slot he)]
  · simp only [if_neg he]

theorem Revised.ofDatum?_eq {es fs : List (Datum × Datum)} (h : Revised es fs) :
    ofDatum? (.map es) = ofDatum? (.map fs) := by
  cases h with
  | respelled l r d hn =>
    refine ofDatum?_map_congr ?_ fun slot => ?_
    · simp only [Decodable, List.forall_mem_append, List.forall_mem_cons]
    · simp only [valuesAt_append, valuesAt_cons, (denotes_toString_iff _).2 hn slot]
  | reordered hp h =>
    exact ofDatum?_map_congr (forall_congr' fun e => by rw [hp.mem_iff]) h
  | inserted l r hk hd =>
    refine ofDatum?_map_congr ?_ fun slot => ?_
    · simp only [Decodable, List.forall_mem_append, List.forall_mem_cons, hd, true_and]
    · simp only [valuesAt_append, valuesAt_cons, if_neg (hk slot)]

/-! ### Lists -/

def numbered {α : Type} (items : List α) : List (Datum × α) :=
  items.zipIdx.map fun e => (.int e.2, e.1)

theorem mapM_zipIdx (items : List Datum) : ∀ n : Nat,
    (((items.zipIdx n).map fun e => (Datum.int e.2, e.1)).mapM
      fun e => do return (e.1, ← Value.ofDatum? e.2)) =
      (Value.ofItems? items).map fun vs => (vs.zipIdx n).map fun e => (Datum.int e.2, e.1) := by
  induction items with
  | nil => exact fun _ => rfl
  | cons d items ih =>
    intro n
    rw [List.zipIdx_cons, List.map_cons, List.mapM_cons, ih, Value.ofItems?]
    cases Value.ofDatum? d with
    | none => rfl
    | some v => cases Value.ofItems? items <;> rfl

theorem ofEntries_numbered {vs : List Value} (h : vs.length ≤ positionBound) :
    ofEntries (numbered vs) = ofValues vs := by
  have hslot : ∀ e ∈ vs.zipIdx.map fun e => (e.2, e.1),
      Slot.ofKey? (.int (e.1 : Nat)) = some (.position e.1) := by
    intro e he
    obtain ⟨⟨v, i⟩, hi, rfl⟩ := List.mem_map.1 he
    have hlt : i < vs.length := (List.mem_zipIdx' hi).1
    exact (denotes_iff _ _).1 (.number (Nat.lt_of_lt_of_le hlt h))
  have hmap : numbered vs = (vs.zipIdx.map fun e => (e.2, e.1)).map
      fun e => (Datum.int (e.1 : Nat), e.2) := by
    simp [numbered, Function.comp_def]
  change (numbered vs).foldl entered {} = _
  rw [hmap, foldl_entered (fun i : Nat => .int i) .position hslot, foldl_positions]
  rfl

theorem ofDatum?_numbered {items : List Datum} (h : items.length ≤ positionBound) :
    ofDatum? (.map (numbered items)) = ofDatum? (.list items) := by
  rw [ofDatum?, ofDatum?, numbered, mapM_zipIdx]
  cases hvs : Value.ofItems? items with
  | none => rfl
  | some vs =>
    rw [← Value.length_ofItems? hvs] at h
    exact congrArg some (ofEntries_numbered h)

/-- A map of entries is read when all its values are, and then each slot holds the last value
whose key denotes it, and no more is there. So a number may be written as its text exactly if it
is a position, revised maps are read alike, and a list is read as the map of its items by their
places. -/
theorem read_by_slots :
    (∀ entries a, ofDatum? (.map entries) = some a ↔ Decodable entries ∧ a.HoldsLast entries) ∧
    (∀ entries, (∃ a, ofDatum? (.map entries) = some a) ↔ Decodable entries) ∧
    (∀ n : Int, (∀ l r d, ofDatum? (.map (l ++ (.int n, d) :: r)) =
      ofDatum? (.map (l ++ (.text (toString n), d) :: r))) ↔ 0 ≤ n ∧ n < positionBound) ∧
    (∀ es fs, Relation.EqvGen Revised es fs → ofDatum? (.map es) = ofDatum? (.map fs)) ∧
    ∀ items, items.length ≤ positionBound →
      ofDatum? (.list items) = ofDatum? (.map (numbered items)) := by
  refine ⟨ofDatum?_map_eq_some_iff, exists_ofDatum?_map_iff, fun n => ⟨fun h => ?_, fun h => ?_⟩,
    fun es fs h => ?_, fun items h => (ofDatum?_numbered h).symm⟩
  · exact (denotes_toString_iff n).1 (denotes_iff_of_ofDatum?_eq (h [] [] .null))
  · exact fun l r d => (Revised.respelled l r d h).ofDatum?_eq
  · induction h with
    | rel es fs h => exact h.ofDatum?_eq
    | refl es => rfl
    | symm es fs _ ih => exact ih.symm
    | trans es fs gs _ _ ih ih' => exact ih.trans ih'

def repeated : List (Datum × Datum) :=
  [(.int 1, .text "sync"), (.text "method", .null), (.text "+01", .text "run")]

def reworded : List (Datum × Datum) :=
  [(.text "method", .null), (.bool true, .null), (.text "1", .text "sync"),
    (.text "+01", .text "run")]

theorem repeated_reworded : Relation.EqvGen Revised repeated reworded := by
  have hapart : ∀ slot, Denotes (.text "1") slot → ¬ Denotes (.text "method") slot := by
    intro slot h h'
    have hone : Slot.ofKey? (.text "1") = some (.position 1) := by decide
    have hmethod : Slot.ofKey? (.text "method") = some (.name "method") := by decide
    rw [denotes_iff, hone] at h
    rw [denotes_iff, hmethod, ← h] at h'
    cases h'
  have htext : Revised repeated _ := .respelled [] _ (.text "sync") (by decide)
  have hplace : Revised _ _ :=
    .swapped [] [(.text "+01", .text "run")] (e := (.text "1", .text "sync"))
      (f := (.text "method", .null)) hapart
  have hflag : Revised _ reworded :=
    .inserted [(.text "method", .null)] _ (fun slot h => by cases h) ⟨.null, rfl⟩
  exact .trans _ _ _ (.rel _ _ htext) (.trans _ _ _ (.rel _ _ hplace) (.rel _ _ hflag))

theorem repeated_read :
    Decodable repeated ∧
    (∃ a, ofDatum? (.map repeated) = some a ∧ a.at? 1 = some (.text "run")) ∧
    Relation.EqvGen Revised repeated reworded ∧
    ofDatum? (.map repeated) = ofDatum? (.map reworded) ∧
    [Datum.null, .text "run"].length ≤ positionBound ∧
    ofDatum? (.list [.null, .text "run"]) =
      ofDatum? (.map (numbered [.null, .text "run"])) := by
  obtain ⟨hholds, hread, -, hrevised, hlist⟩ := read_by_slots
  have hd : Decodable repeated := by
    simp [Decodable, repeated, Value.ofDatum?]
  obtain ⟨a, ha⟩ := (hread repeated).2 hd
  have hone : a.at? 1 = (valuesAt (.position 1) repeated).getLast?.bind Value.ofDatum? :=
    ((hholds repeated a).1 ha).2 (.position 1)
  have hlast : valuesAt (.position 1) repeated = [.text "sync", .text "run"] := rfl
  rw [hlast] at hone
  exact ⟨hd, ⟨a, ha, hone⟩, repeated_reworded, hrevised _ _ repeated_reworded, by decide,
    hlist _ (by decide)⟩

/-- A number below zero denotes no slot, and its text is a name. -/
theorem text_of_negative_is_name :
    toString (-1 : Int) = "-1" ∧
    ofDatum? (.map [(.int (-1), .text "sync")]) = some {} ∧
    (ofDatum? (.map [(.text "-1", .text "sync")])).bind (·.named? "-1") = some (.text "sync") ∧
    ofDatum? (.map [(.int (-1), .text "sync")]) ≠ ofDatum? (.map [(.text "-1", .text "sync")]) := by
  have hnone : ofDatum? (.map [(.int (-1), .text "sync")]) = some {} := rfl
  have hname : (ofDatum? (.map [(.text "-1", .text "sync")])).bind (·.named? "-1") =
      some (.text "sync") := rfl
  refine ⟨by decide, hnone, hname, fun h => ?_⟩
  rw [← h, hnone] at hname
  cases hname

end Arguments
end Reprieve.Tag
