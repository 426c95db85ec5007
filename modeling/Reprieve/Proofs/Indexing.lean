import Reprieve.Class.Index
import Reprieve.Proofs.Descriptor
import Reprieve.Proofs.Hierarchy

/-! From the records of a snapshot to an index. Slots and classes stay aligned under
insertion, so records of different keys become classes at their own places, and a
snapshot is refused exactly at the first record whose key came before. -/
namespace Reprieve.Index

/-! ### Slots and classes -/

def Aligned (ix : Index) : Prop :=
  ∀ k i, ix.slot? k = some i ↔ ∃ c, ix.classes[i]? = some c ∧ c.name.key = k

theorem aligned_empty : Aligned {} := by
  intro k i
  simp [slot?]

theorem Aligned.slot?_eq_none_iff {ix : Index} (h : ix.Aligned) (k : String) :
    ix.slot? k = none ↔ k ∉ ix.classes.map (·.name.key) := by
  rw [← not_iff_not, not_not, ← ne_eq, Option.ne_none_iff_exists']
  constructor
  · intro hs
    obtain ⟨i, hi⟩ := hs
    obtain ⟨c, hc, rfl⟩ := (h k i).1 hi
    exact List.mem_map_of_mem (List.mem_of_getElem? hc)
  · intro hk
    obtain ⟨c, hc, rfl⟩ := List.mem_map.1 hk
    obtain ⟨i, hi⟩ := List.mem_iff_getElem?.1 hc
    exact ⟨i, (h _ i).2 ⟨c, hi, rfl⟩⟩

theorem insert_of_slot {ix : Index} {c : Descriptor} {i : Nat}
    (h : ix.slot? c.name.key = some i) :
    ix.insert c = { ix with classes := ix.classes.set i c } := by
  rw [Index.insert, h]

theorem insert_of_no_slot {ix : Index} {c : Descriptor} (h : ix.slot? c.name.key = none) :
    ix.insert c =
      { ix with
        classes := ix.classes ++ [c]
        slots := (c.name.key, ix.classes.length) :: ix.slots } := by
  rw [Index.insert, h]

theorem Aligned.replace {ix : Index} (h : ix.Aligned) {c : Descriptor} {i : Nat}
    (hs : ix.slot? c.name.key = some i) :
    Aligned { ix with classes := ix.classes.set i c } := by
  intro k j
  obtain ⟨d, hd, hk⟩ := (h _ i).1 hs
  have hi : i < ix.classes.length := (List.getElem?_eq_some_iff.1 hd).1
  refine (h k j).trans ?_
  by_cases hij : i = j
  · subst hij
    simp [List.getElem?_set_self hi, hd, hk]
  · simp only [List.getElem?_set_ne hij]

theorem Aligned.append {ix : Index} (h : ix.Aligned) {c : Descriptor}
    (hs : ix.slot? c.name.key = none) :
    Aligned
      { ix with
        classes := ix.classes ++ [c]
        slots := (c.name.key, ix.classes.length) :: ix.slots } := by
  intro k j
  have hnew : ∀ d ∈ ix.classes, d.name.key ≠ c.name.key := fun d hd he =>
    (h.slot?_eq_none_iff _).1 hs (he ▸ List.mem_map_of_mem hd)
  have hget (d : Descriptor) : (ix.classes ++ [c])[j]? = some d ↔
      ix.classes[j]? = some d ∨ j = ix.classes.length ∧ c = d := by
    grind
  simp only [slot?, List.lookup_cons, hget]
  by_cases hk : k = c.name.key
  · subst hk
    simp only [beq_self_eq_true, Option.some.injEq]
    constructor
    · intro hj
      exact ⟨c, .inr ⟨hj.symm, rfl⟩, rfl⟩
    · intro hd
      obtain ⟨d, hd | hd, he⟩ := hd
      · exact absurd he (hnew d (List.mem_of_getElem? hd))
      · exact hd.1.symm
  · rw [beq_eq_false_iff_ne.2 hk]
    refine (h k j).trans ⟨fun ⟨d, hd, he⟩ => ⟨d, .inl hd, he⟩, fun hd => ?_⟩
    obtain ⟨d, hd | hd, he⟩ := hd
    · exact ⟨d, hd, he⟩
    · exact absurd (hd.2 ▸ he.symm) hk

theorem Aligned.insert {ix : Index} (h : ix.Aligned) (c : Descriptor) :
    (ix.insert c).Aligned := by
  cases hs : ix.slot? c.name.key with
  | some i =>
    rw [insert_of_slot hs]
    exact h.replace hs
  | none =>
    rw [insert_of_no_slot hs]
    exact h.append hs

theorem Aligned.classes_insert {ix : Index} (h : ix.Aligned) {c : Descriptor}
    (hc : c.name.key ∉ ix.classes.map (·.name.key)) :
    (ix.insert c).classes = ix.classes ++ [c] := by
  rw [insert_of_no_slot ((h.slot?_eq_none_iff _).2 hc)]

theorem Aligned.foldl_insert (cs : List Descriptor) :
    ∀ {ix : Index}, ix.Aligned → (cs.foldl Index.insert ix).Aligned := by
  induction cs with
  | nil => exact fun h => h
  | cons c cs ih => exact fun h => ih (h.insert c)

theorem Aligned.classes_foldl_insert (cs : List Descriptor) :
    ∀ {ix : Index}, ix.Aligned → ((ix.classes ++ cs).map (·.name.key)).Nodup →
      (cs.foldl Index.insert ix).classes = ix.classes ++ cs := by
  induction cs with
  | nil => simp
  | cons c cs ih =>
    intro ix h hn
    have hc : c.name.key ∉ ix.classes.map (·.name.key) := by
      rw [List.map_append, List.nodup_append] at hn
      exact fun hm => hn.2.2 _ hm _ (by simp) rfl
    have happ := h.classes_insert hc
    rw [List.foldl_cons, ih (h.insert c) (by rw [happ]; simpa using hn), happ]
    simp

def held? (ix : Index) (key : String) : Option Descriptor :=
  (ix.slot? key).bind fun i => ix.classes[i]?

theorem Aligned.held?_eq_some_iff {ix : Index} (h : ix.Aligned) (key : String) (c : Descriptor) :
    ix.held? key = some c ↔ c ∈ ix.classes ∧ c.name.key = key := by
  rw [held?, Option.bind_eq_some_iff]
  constructor
  · intro hs
    obtain ⟨i, hi, hc⟩ := hs
    obtain ⟨d, hd, hk⟩ := (h key i).1 hi
    obtain rfl : d = c := Option.some.inj (hd.symm.trans hc)
    exact ⟨List.mem_of_getElem? hc, hk⟩
  · intro hm
    obtain ⟨hc, hk⟩ := hm
    obtain ⟨i, hi⟩ := List.mem_iff_getElem?.1 hc
    exact ⟨i, (h key i).2 ⟨c, hi, hk⟩, hi⟩

theorem Aligned.class?_eq_some_iff {ix : Index} (h : ix.Aligned) (name : String)
    (c : Descriptor) :
    ix.class? name = some c ↔ c ∈ ix.classes ∧ c.name.key = ClassName.keyOf name :=
  h.held?_eq_some_iff (ClassName.keyOf name) c

theorem Aligned.member?_eq_some_iff {ix : Index} (h : ix.Aligned) (name method : String)
    (m : Member) : ix.member? name method = some m ↔
      m.owner ∈ ix.classes ∧ m.owner.name.key = ClassName.keyOf name ∧
        m.owner.FirstNamed method m.method := by
  simp only [member?, Option.bind_eq_some_iff, h.class?_eq_some_iff,
    Descriptor.member?_eq_some_iff]
  constructor
  · intro hm
    obtain ⟨c, ⟨hc, hk⟩, rfl, hfirst⟩ := hm
    exact ⟨hc, hk, hfirst⟩
  · intro hm
    obtain ⟨hc, hk, hfirst⟩ := hm
    exact ⟨m.owner, ⟨hc, hk⟩, rfl, hfirst⟩

theorem Aligned.member?_eq_none_iff {ix : Index} (h : ix.Aligned) (name method : String) :
    ix.member? name method = none ↔
      ∀ c ∈ ix.classes, c.name.key = ClassName.keyOf name → ∀ m ∈ c.methods, m.name ≠ method := by
  simp only [member?, Option.bind_eq_none_iff, h.class?_eq_some_iff,
    Descriptor.member?_eq_none_iff, and_imp]

/-! ### Records -/

/-- The first place whose key came before. -/
structure RepeatsAt (rs : List ClassRecord) (i : Nat) (r : ClassRecord) : Prop where
  here : rs[i]? = some r
  before : ClassName.keyOf r.name ∈ (rs.take i).map fun q => ClassName.keyOf q.name
  first : Lineage.Distinct (rs.take i)

theorem repeated?_eq_none_iff (rs : List ClassRecord) (seen : List String) (hs : seen.Nodup) :
    repeated? seen rs = none ↔ (seen ++ rs.map fun q => ClassName.keyOf q.name).Nodup := by
  induction rs generalizing seen with
  | nil => simpa [repeated?] using hs
  | cons r rs ih =>
    simp only [repeated?, List.contains_iff_mem]
    split
    · rename_i hr
      simp only [reduceCtorEq, List.map_cons, false_iff]
      exact fun hn => (List.nodup_append.1 hn).2.2 _ hr _ List.mem_cons_self rfl
    · rename_i hr
      rw [ih _ (List.nodup_cons.2 ⟨hr, hs⟩), List.map_cons, List.cons_append]
      exact List.perm_middle.symm.nodup_iff

theorem repeated?_eq_some_iff (rs : List ClassRecord) (seen : List String) (hs : seen.Nodup)
    (r : ClassRecord) : repeated? seen rs = some r ↔ ∃ i, rs[i]? = some r ∧
      ClassName.keyOf r.name ∈ seen ++ (rs.take i).map (fun q => ClassName.keyOf q.name) ∧
      (seen ++ (rs.take i).map fun q => ClassName.keyOf q.name).Nodup := by
  induction rs generalizing seen with
  | nil => simp [repeated?]
  | cons q rs ih =>
    simp only [repeated?, List.contains_iff_mem]
    split
    · rename_i hq
      constructor
      · intro h
        obtain rfl := Option.some.inj h
        exact ⟨0, rfl, by simpa using hq, by simpa using hs⟩
      · intro h
        obtain ⟨i, hr, -, hn⟩ := h
        cases i with
        | zero => simpa using hr
        | succ i =>
          rw [List.take_succ_cons, List.map_cons] at hn
          exact absurd rfl ((List.nodup_append.1 hn).2.2 _ hq _ List.mem_cons_self)
    · rename_i hq
      rw [ih _ (List.nodup_cons.2 ⟨hq, hs⟩)]
      have hperm (i : Nat) : (ClassName.keyOf q.name :: seen ++
          (rs.take i).map fun q => ClassName.keyOf q.name).Perm
          (seen ++ ((q :: rs).take (i + 1)).map fun q => ClassName.keyOf q.name) :=
        List.perm_middle.symm
      constructor
      · intro h
        obtain ⟨i, hr, hm, hn⟩ := h
        exact ⟨i + 1, hr, (hperm i).mem_iff.1 hm, (hperm i).nodup_iff.1 hn⟩
      · intro h
        obtain ⟨i, hr, hm, hn⟩ := h
        cases i with
        | zero =>
          obtain rfl : q = r := by simpa using hr
          exact absurd (by simpa using hm) hq
        | succ i => exact ⟨i, hr, (hperm i).mem_iff.2 hm, (hperm i).nodup_iff.2 hn⟩

theorem firstRepeat_iff (rs : List ClassRecord) (r : ClassRecord) :
    repeated? [] rs = some r ↔ ∃ i, RepeatsAt rs i r := by
  rw [repeated?_eq_some_iff rs [] List.nodup_nil]
  constructor
  · intro h
    obtain ⟨i, hr, hm, hn⟩ := h
    exact ⟨i, hr, hm, hn⟩
  · intro h
    obtain ⟨i, hi⟩ := h
    exact ⟨i, hi.here, hi.before, hi.first⟩

theorem noRepeat_iff (rs : List ClassRecord) : repeated? [] rs = none ↔ Lineage.Distinct rs :=
  repeated?_eq_none_iff rs [] List.nodup_nil

theorem ofSnapshot_eq_error_iff (s : Snapshot) (name : String) :
    ofSnapshot s = .error name ↔ ∃ i r, RepeatsAt s.classes i r ∧ r.name = name := by
  rw [ofSnapshot]
  cases h : repeated? [] s.classes with
  | none =>
    simp only [reduceCtorEq, false_iff]
    intro he
    obtain ⟨i, r, hr, -⟩ := he
    cases h.symm.trans ((firstRepeat_iff s.classes r).2 ⟨i, hr⟩)
  | some q =>
    simp only [Except.error.injEq]
    constructor
    · intro hq
      obtain ⟨i, hi⟩ := (firstRepeat_iff s.classes q).1 h
      exact ⟨i, q, hi, hq⟩
    · intro he
      obtain ⟨i, r, hr, hn⟩ := he
      have hq : q = r := Option.some.inj (h.symm.trans ((firstRepeat_iff s.classes r).2 ⟨i, hr⟩))
      rw [hq, hn]

/-- An index of a snapshot has one class for each record, in the order of the records. -/
structure Of (s : Snapshot) (ix : Index) : Prop where
  distinct : Lineage.Distinct s.classes
  classes : ix.classes = s.classes.map (Descriptor.resolve s.classes)
  aligned : ix.Aligned

theorem keys_resolve (rs qs : List ClassRecord) :
    (qs.map (Descriptor.resolve rs)).map (·.name.key) =
      qs.map fun q => ClassName.keyOf q.name := by
  simp [ClassName.key_ofText]

theorem ofClasses_resolve {rs : List ClassRecord} (hd : Lineage.Distinct rs) :
    (ofClasses (rs.map (Descriptor.resolve rs))).classes = rs.map (Descriptor.resolve rs) := by
  rw [ofClasses, aligned_empty.classes_foldl_insert]
  · rfl
  · rw [List.nil_append, keys_resolve]
    exact hd

theorem ofSnapshot_of_distinct {s : Snapshot} (hd : Lineage.Distinct s.classes) :
    ∃ ix, ofSnapshot s = .ok ix ∧ Of s ix := by
  refine ⟨{ ofClasses (s.classes.map (Descriptor.resolve s.classes)) with
    runtimeVersion := s.runtimeVersion }, ?_, hd, ofClasses_resolve hd, ?_⟩
  · rw [ofSnapshot, (noRepeat_iff s.classes).2 hd]
  · exact aligned_empty.foldl_insert (s.classes.map (Descriptor.resolve s.classes))

theorem of_ofSnapshot {s : Snapshot} {ix : Index} (h : ofSnapshot s = .ok ix) : Of s ix := by
  cases hr : repeated? [] s.classes with
  | none =>
    obtain ⟨jx, hj, ho⟩ := ofSnapshot_of_distinct ((noRepeat_iff s.classes).1 hr)
    obtain rfl := Except.ok.inj (h.symm.trans hj)
    exact ho
  | some r =>
    rw [ofSnapshot, hr] at h
    cases h

theorem refused_iff (s : Snapshot) :
    (∃ name, ofSnapshot s = .error name) ↔ ¬ Lineage.Distinct s.classes := by
  constructor
  · intro h hd
    obtain ⟨name, he⟩ := h
    obtain ⟨ix, hix, -⟩ := ofSnapshot_of_distinct hd
    cases he.symm.trans hix
  · intro hd
    cases hs : ofSnapshot s with
    | error name => exact ⟨name, rfl⟩
    | ok ix => exact absurd (of_ofSnapshot hs).distinct hd

theorem Of.class?_eq_some_iff {s : Snapshot} {ix : Index} (h : Of s ix) (name : String)
    (d : Descriptor) : ix.class? name = some d ↔
      ∃ r ∈ s.classes, ClassName.keyOf r.name = ClassName.keyOf name ∧
        Descriptor.resolve s.classes r = d := by
  rw [h.aligned.class?_eq_some_iff, h.classes, List.mem_map]
  constructor
  · intro hd
    obtain ⟨⟨r, hr, rfl⟩, hk⟩ := hd
    rw [Descriptor.resolve_name, ClassName.key_ofText] at hk
    exact ⟨r, hr, hk, rfl⟩
  · intro hd
    obtain ⟨r, hr, hk, rfl⟩ := hd
    rw [Descriptor.resolve_name, ClassName.key_ofText]
    exact ⟨⟨r, hr, rfl⟩, hk⟩

theorem Of.class?_of_mem {s : Snapshot} {ix : Index} (h : Of s ix) {r : ClassRecord}
    (hr : r ∈ s.classes) {name : String} (hn : ClassName.keyOf r.name = ClassName.keyOf name) :
    ix.class? name = some (Descriptor.resolve s.classes r) :=
  (h.class?_eq_some_iff _ _).2 ⟨r, hr, hn, rfl⟩

theorem Of.resolve_mem {s : Snapshot} {ix : Index} (h : Of s ix) {r : ClassRecord}
    (hr : r ∈ s.classes) : Descriptor.resolve s.classes r ∈ ix.classes := by
  rw [h.classes]
  exact List.mem_map_of_mem hr

end Reprieve.Index
