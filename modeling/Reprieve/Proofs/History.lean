import Mathlib.Algebra.BigOperators.Group.Finset.Basic
import Reprieve.Proofs.Indexing

/-! Histories of an index: from nothing, a snapshot or a list of classes on, one class
after the other comes in. Of the classes of one key the last is held, in the place that
the first one took. -/
namespace Reprieve.Index

/-- An index, and all classes that came into it, the latest last. -/
inductive Filled : Index → List Descriptor → Prop
  | empty : Filled {} []
  | snapshot {s : Snapshot} {ix : Index} (h : ofSnapshot s = .ok ix) :
    Filled ix (s.classes.map (Descriptor.resolve s.classes))
  | collected (cs : List Descriptor) : Filled (ofClasses cs) cs
  | insert {ix : Index} {cs : List Descriptor} (h : Filled ix cs) (c : Descriptor) :
    Filled (ix.insert c) (cs ++ [c])

def keys (cs : List Descriptor) : List String := cs.map (·.name.key)

theorem keys_concat (cs : List Descriptor) (c : Descriptor) :
    keys (cs ++ [c]) = keys cs ++ [c.name.key] := by
  simp [keys]

def latest? (cs : List Descriptor) (key : String) : Option Descriptor :=
  cs.reverse.find? (·.name.key == key)

theorem latest?_concat (cs : List Descriptor) (c : Descriptor) (key : String) :
    latest? (cs ++ [c]) key = if c.name.key = key then some c else latest? cs key := by
  rw [latest?, List.reverse_concat, List.find?_cons]
  by_cases h : c.name.key = key
  · rw [if_pos h, beq_iff_eq.2 h]
  · rw [if_neg h, beq_eq_false_iff_ne.2 h, latest?]

theorem latest?_eq_none_iff (cs : List Descriptor) (key : String) :
    latest? cs key = none ↔ key ∉ keys cs := by
  simp [latest?, keys]

/-! ### One class comes in -/

section Step
variable {ix : Index} (h : ix.Aligned)
include h

theorem Aligned.held?_eq_none_iff (key : String) : ix.held? key = none ↔ key ∉ keys ix.classes := by
  rw [Option.eq_none_iff_forall_ne_some]
  simp only [ne_eq, h.held?_eq_some_iff, not_and, keys, List.mem_map, not_exists]

theorem Aligned.held?_replace {c : Descriptor} {i : Nat} (hs : ix.slot? c.name.key = some i)
    (key : String) : held? { ix with classes := ix.classes.set i c } key =
      if c.name.key = key then some c else ix.held? key := by
  obtain ⟨d, hd, hdk⟩ := (h _ i).1 hs
  have hi : i < ix.classes.length := (List.getElem?_eq_some_iff.1 hd).1
  change (ix.slot? key).bind (fun j => (ix.classes.set i c)[j]?) = _
  by_cases hk : c.name.key = key
  · subst hk
    rw [if_pos rfl, hs, Option.bind_some, List.getElem?_set_self hi]
  · rw [if_neg hk]
    refine Option.bind_congr fun j hj => List.getElem?_set_ne ?_
    -- two keys have not one slot
    rintro rfl
    obtain ⟨e, he, hek⟩ := (h key i).1 hj
    obtain rfl : d = e := Option.some.inj (hd.symm.trans he)
    exact hk (hdk.symm.trans hek)

theorem Aligned.held?_append (c : Descriptor) (key : String) :
    held? { ix with
        classes := ix.classes ++ [c]
        slots := (c.name.key, ix.classes.length) :: ix.slots } key =
      if c.name.key = key then some c else ix.held? key := by
  simp only [held?, slot?, List.lookup_cons]
  by_cases hk : c.name.key = key
  · subst hk
    simp
  · rw [if_neg hk, beq_eq_false_iff_ne.2 (Ne.symm hk)]
    refine Option.bind_congr fun j hj => List.getElem?_append_left ?_
    obtain ⟨e, he, -⟩ := (h key j).1 hj
    exact (List.getElem?_eq_some_iff.1 he).1

theorem Aligned.held?_insert (c : Descriptor) (key : String) :
    (ix.insert c).held? key = if c.name.key = key then some c else ix.held? key := by
  cases hs : ix.slot? c.name.key with
  | some i =>
    rw [insert_of_slot hs]
    exact h.held?_replace hs key
  | none =>
    rw [insert_of_no_slot hs]
    exact h.held?_append c key

theorem Aligned.keys_insert (c : Descriptor) : keys (ix.insert c).classes =
    if c.name.key ∈ keys ix.classes then keys ix.classes
    else keys ix.classes ++ [c.name.key] := by
  cases hs : ix.slot? c.name.key with
  | some i =>
    obtain ⟨d, hd, hk⟩ := (h _ i).1 hs
    obtain ⟨hi, rfl⟩ := List.getElem?_eq_some_iff.1 hd
    have hlen : i < (keys ix.classes).length := by rwa [keys, List.length_map]
    have hget : (keys ix.classes)[i] = c.name.key := by simp [keys, hk]
    rw [if_pos (hget ▸ List.getElem_mem hlen), insert_of_slot hs, keys, List.map_set, ← hget]
    exact List.set_getElem_self hlen
  | none =>
    have hnew : c.name.key ∉ keys ix.classes := (h.slot?_eq_none_iff _).1 hs
    rw [if_neg hnew, insert_of_no_slot hs, keys_concat]

end Step

/-! ### A whole history -/

/-- What an index is to the classes that came into it. -/
structure Holds (ix : Index) (cs : List Descriptor) : Prop where
  aligned : ix.Aligned
  latest : ∀ key, ix.held? key = latest? cs key
  ordered : (keys ix.classes).Pairwise fun a b => (keys cs).idxOf a < (keys cs).idxOf b

theorem holds_empty : Holds {} [] :=
  ⟨aligned_empty, fun _ => rfl, .nil⟩

theorem Holds.mem_keys_iff {ix : Index} {cs : List Descriptor} (h : Holds ix cs) (key : String) :
    key ∈ keys ix.classes ↔ key ∈ keys cs := by
  rw [← not_iff_not, ← h.aligned.held?_eq_none_iff, h.latest, latest?_eq_none_iff]

theorem Holds.insert {ix : Index} {cs : List Descriptor} (h : Holds ix cs) (c : Descriptor) :
    Holds (ix.insert c) (cs ++ [c]) := by
  refine ⟨h.aligned.insert c, ?latest, ?ordered⟩
  case latest =>
    intro key
    rw [h.aligned.held?_insert, latest?_concat, h.latest]
  case ordered =>
    -- a key that came before keeps its first place
    have hold : (keys ix.classes).Pairwise fun a b =>
        (keys (cs ++ [c])).idxOf a < (keys (cs ++ [c])).idxOf b := by
      refine h.ordered.imp_of_mem fun ha hb hab => ?_
      rw [keys_concat, List.idxOf_append_of_mem ((h.mem_keys_iff _).1 ha),
        List.idxOf_append_of_mem ((h.mem_keys_iff _).1 hb)]
      exact hab
    rw [h.aligned.keys_insert]
    split
    · exact hold
    · rename_i hc
      refine List.pairwise_append.2 ⟨hold, List.pairwise_singleton _ _, fun a ha b hb => ?_⟩
      obtain rfl := List.mem_singleton.1 hb
      have hac := (h.mem_keys_iff a).1 ha
      rw [keys_concat, List.idxOf_append_of_mem hac,
        List.idxOf_append_of_notMem fun hm => hc ((h.mem_keys_iff _).2 hm)]
      exact Nat.lt_add_right _ (List.idxOf_lt_length_of_mem hac)

theorem Holds.foldl_insert (ds : List Descriptor) :
    ∀ {ix : Index} {cs : List Descriptor}, Holds ix cs →
      Holds (ds.foldl Index.insert ix) (cs ++ ds) := by
  induction ds with
  | nil =>
    intro ix cs h
    rwa [List.append_nil]
  | cons d ds ih =>
    intro ix cs h
    rw [List.append_cons]
    exact ih (h.insert d)

theorem holds_ofClasses (cs : List Descriptor) : Holds (ofClasses cs) cs :=
  holds_empty.foldl_insert cs

theorem holds_ofSnapshot {s : Snapshot} {ix : Index} (h : ofSnapshot s = .ok ix) :
    Holds ix (s.classes.map (Descriptor.resolve s.classes)) := by
  rw [ofSnapshot] at h
  split at h
  · cases h
  · cases h
    obtain ⟨aligned, latest, ordered⟩ :=
      holds_ofClasses (s.classes.map (Descriptor.resolve s.classes))
    exact ⟨aligned, latest, ordered⟩

theorem Filled.holds {ix : Index} {cs : List Descriptor} (h : Filled ix cs) : Holds ix cs := by
  induction h with
  | empty => exact holds_empty
  | snapshot h => exact holds_ofSnapshot h
  | collected cs => exact holds_ofClasses cs
  | insert _ c ih => exact ih.insert c

/-! ### Counts -/

theorem Holds.keys_nodup {ix : Index} {cs : List Descriptor} (h : Holds ix cs) :
    (keys ix.classes).Nodup :=
  h.ordered.imp fun hlt he => (he ▸ hlt).false

theorem Holds.toFinset_keys {ix : Index} {cs : List Descriptor} (h : Holds ix cs) :
    (keys ix.classes).toFinset = (keys cs).toFinset := by
  ext key
  simp only [List.mem_toFinset, h.mem_keys_iff]

theorem Holds.size_eq {ix : Index} {cs : List Descriptor} (h : Holds ix cs) :
    ix.size = (keys cs).toFinset.card := by
  rw [← h.toFinset_keys, List.toFinset_card_of_nodup h.keys_nodup, keys, List.length_map, size]

theorem methodCount_eq_sum (ix : Index) :
    ix.methodCount = (ix.classes.map (·.methods.length)).sum := by
  rw [methodCount, List.sum, List.foldr_map]

theorem Holds.methodCount_eq {ix : Index} {cs : List Descriptor} (h : Holds ix cs) :
    ix.methodCount =
      ∑ key ∈ (keys cs).toFinset, ((latest? cs key).map (·.methods.length)).getD 0 := by
  rw [← h.toFinset_keys, List.sum_toFinset _ h.keys_nodup, keys, List.map_map, methodCount_eq_sum]
  congr 1
  refine List.map_congr_left fun c hc => ?_
  rw [Function.comp_apply, ← h.latest, (h.aligned.held?_eq_some_iff _ c).2 ⟨hc, rfl⟩]
  rfl

/-! ### The index after any history -/

/-- Slots and classes belong together, each key leads to the class that came last under it,
the keys stand in the order in which they first came, and nothing counts twice. -/
theorem filled_holds_latest {ix : Index} {cs : List Descriptor} (h : Filled ix cs) :
    (keys ix.classes).Nodup ∧
    (∀ key i, ix.slot? key = some i ↔
      ∃ hi : i < ix.classes.length, ix.classes[i].name.key = key) ∧
    (∀ name, ix.class? name = latest? cs (ClassName.keyOf name)) ∧
    (keys ix.classes).Pairwise (fun a b => (keys cs).idxOf a < (keys cs).idxOf b) ∧
    ix.size = (keys cs).toFinset.card ∧
    ix.methodCount =
      ∑ key ∈ (keys cs).toFinset, ((latest? cs key).map (·.methods.length)).getD 0 := by
  have hh := h.holds
  refine ⟨hh.keys_nodup, fun key i => ?slots, fun name => hh.latest _, hh.ordered, hh.size_eq,
    hh.methodCount_eq⟩
  case slots =>
    rw [hh.aligned key i]
    constructor
    · intro hc
      obtain ⟨c, hc, rfl⟩ := hc
      obtain ⟨hi, rfl⟩ := List.getElem?_eq_some_iff.1 hc
      exact ⟨hi, rfl⟩
    · intro hi
      obtain ⟨hi, rfl⟩ := hi
      exact ⟨ix.classes[i], List.getElem?_eq_getElem hi, rfl⟩

def patch : Descriptor :=
  { name := .ofText "\\APP\\first", methods := [⟨"run", false, []⟩, ⟨"stop", false, []⟩] }

/-- A class that comes again in another spelling is replaced, and no class is added. -/
theorem looped_patched : ∃ ix, ofSnapshot Lineage.looped = .ok ix ∧
    Filled (ix.insert patch)
      (Lineage.looped.classes.map (Descriptor.resolve Lineage.looped.classes) ++ [patch]) ∧
    (ix.insert patch).class? "App\\First" = some patch ∧ (ix.insert patch).size = 5 := by
  obtain ⟨ix, hix, -⟩ := ofSnapshot_of_distinct Lineage.looped_distinct
  have hf := (Filled.snapshot hix).insert patch
  obtain ⟨-, -, hclass, -, hsize, -⟩ := filled_holds_latest hf
  refine ⟨ix, hix, hf, ?_, ?_⟩
  · rw [hclass, latest?_concat, if_pos (by decide)]
  · rw [hsize, keys_concat, keys, keys_resolve]
    decide

end Reprieve.Index
