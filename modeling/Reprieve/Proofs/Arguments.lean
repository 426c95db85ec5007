import Reprieve.Proofs.JsonText
import Reprieve.Proofs.Outcomes
import Reprieve.Proofs.Values
import Reprieve.Tag.Basic

/-! Arguments of tags, written and read again. Positions and names come back as long as no
name reads as a position, and what was read before has no such name. -/
namespace Reprieve.Tag

/-! ### Positions -/

/-- Decimal digits, behind one plus sign or not, that write a number below the bound. -/
def ReadsAsPosition (s : String) : Prop :=
  ∃ digits, (s.toList = digits ∨ s.toList = '+' :: digits) ∧ digits ≠ [] ∧
    (∀ c ∈ digits, c.isDigit = true) ∧ Nat.ofDigitChars 10 digits 0 < positionBound

def unsigned (cs : List Char) : List Char :=
  match cs with
  | '+' :: r => r
  | cs => cs

theorem position?_eq_some_iff (s : String) (i : Nat) : position? s = some i ↔
    Text.numeral? 10 (unsigned s.toList) = some i ∧ i < positionBound := by
  have hposition : position? s = (Text.numeral? 10 (unsigned s.toList)).bind fun n =>
      if n < positionBound then some n else none := by
    rw [position?, unsigned.eq_def]
    generalize Text.numeral? 10 _ = n
    cases n <;> rfl
  rw [hposition, Option.bind_eq_some_iff]
  constructor
  · intro h
    obtain ⟨n, hn, h⟩ := h
    rw [Option.ite_none_right_eq_some] at h
    exact ⟨h.2 ▸ hn, by cases h.2; exact h.1⟩
  · exact fun h => ⟨i, h.1, if_pos h.2⟩

theorem unsigned_of_isDigit {cs : List Char} (h : ∀ c ∈ cs, c.isDigit = true) :
    unsigned cs = cs := by
  rw [unsigned.eq_def]
  split
  · cases h '+' List.mem_cons_self
  · rfl

def ReadsAs (s : String) (i : Nat) : Prop :=
  ∃ digits, (s.toList = digits ∨ s.toList = '+' :: digits) ∧ digits ≠ [] ∧
    (∀ c ∈ digits, c.isDigit = true) ∧ Nat.ofDigitChars 10 digits 0 = i ∧ i < positionBound

theorem position?_eq_some_iff_readsAs (s : String) (i : Nat) :
    position? s = some i ↔ ReadsAs s i := by
  rw [position?_eq_some_iff, Text.numeral?_eq_some_iff]
  constructor
  · intro h
    obtain ⟨⟨hne, hd, hv⟩, hb⟩ := h
    refine ⟨unsigned s.toList, ?_, hne, hd, hv, hb⟩
    rw [unsigned.eq_def]
    split
    · exact .inr ‹_›
    · exact .inl rfl
  · intro h
    obtain ⟨digits, hs, hne, hd, hv, hb⟩ := h
    have hu : unsigned s.toList = digits := by
      cases hs with
      | inl hs => rw [hs, unsigned_of_isDigit hd]
      | inr hs => rw [hs]; rfl
    rw [hu]
    exact ⟨⟨hne, hd, hv⟩, hb⟩

theorem readsAsPosition_iff (s : String) : ReadsAsPosition s ↔ ∃ i, position? s = some i := by
  simp only [position?_eq_some_iff_readsAs]
  constructor
  · intro h
    obtain ⟨digits, hs, hne, hd, hb⟩ := h
    exact ⟨_, digits, hs, hne, hd, rfl, hb⟩
  · intro h
    obtain ⟨i, digits, hs, hne, hd, rfl, hb⟩ := h
    exact ⟨digits, hs, hne, hd, hb⟩

theorem not_readsAsPosition_iff (s : String) : ¬ ReadsAsPosition s ↔ position? s = none := by
  rw [readsAsPosition_iff, ← Option.ne_none_iff_exists', not_not]

theorem position?_toString {i : Nat} (h : i < positionBound) :
    position? (toString (i : Int)) = some i := by
  rw [position?_eq_some_iff, Text.toList_toString, if_neg (by omega), Int.natAbs_natCast,
    unsigned_of_isDigit fun _ => Text.isDigit_of_mem_toDigits]
  exact ⟨Text.numeral?_toDigits i, h⟩

theorem ofKey?_name {s : String} (h : position? s = none) :
    Slot.ofKey? (.text s) = some (.name s) := by
  rw [Slot.ofKey?, h]

theorem ofKey?_digits {i : Nat} (h : i < positionBound) :
    Slot.ofKey? (.text (toString (i : Int))) = some (.position i) := by
  rw [Slot.ofKey?, position?_toString h]

/-- No key of whatever kind gives a position beyond the bound, or a name that reads as one. -/
theorem ofKey?_eq_some {k : Datum} {slot : Slot} (h : Slot.ofKey? k = some slot) :
    match slot with
    | .position i => i < positionBound
    | .name s => position? s = none := by
  cases k with
  | int n =>
    rw [Slot.ofKey?] at h
    split at h
    · rename_i hn
      obtain rfl := Option.some.inj h
      change n.toNat < positionBound
      omega
    · cases h
  | text s =>
    rw [Slot.ofKey?] at h
    cases hs : position? s with
    | none =>
      rw [hs] at h
      obtain rfl := Option.some.inj h
      exact hs
    | some i =>
      rw [hs] at h
      obtain rfl := Option.some.inj h
      exact ((position?_eq_some_iff s i).1 hs).2
  | null => cases h
  | bool => cases h
  | float => cases h
  | list => cases h
  | map => cases h

/-! ### Values in a text -/

namespace Value

mutual

theorem carried_toDatum : ∀ v : Value, Json.carried v.toDatum = v.toDatum
  | .null | .bool _ | .int _ | .float _ | .text _ => rfl
  | .list items => by rw [toDatum, Json.carried, carried_toItems]
  | .map entries => by rw [toDatum, Json.carried, carried_toEntries]

theorem carried_toItems : ∀ vs : List Value, Json.carriedItems (toItems vs) = toItems vs
  | [] => rfl
  | v :: vs => by rw [toItems, Json.carriedItems, carried_toDatum v, carried_toItems vs]

theorem carried_toEntries : ∀ es : List (String × Value),
    Json.carriedEntries (toEntries es) = toEntries es
  | [] => rfl
  | (k, v) :: es => by
    rw [toEntries, Json.carriedEntries, carried_toDatum v, carried_toEntries es]
    rfl

end

theorem plain_toDatum {v : Value} (hp : v.Proper) (hf : v.FloatFree) : Json.Plain v.toDatum := by
  induction hp with
  | null => exact .null
  | bool b => exact .bool b
  | int h => exact .int ⟨h.1, Int.lt_trans h.2 (by decide)⟩
  | float f => cases hf
  | text s => exact .text s
  | list _ ih =>
    cases hf with
    | list hf =>
      rw [toDatum, toItems_eq_map]
      exact .list (List.forall_mem_map.2 fun v hv => ih v hv (hf v hv))
  | map _ _ ih =>
    cases hf with
    | map hf =>
      rw [toDatum, toEntries_eq_map]
      exact .map (List.forall_mem_map.2 fun e he => ih e he (hf e he))

end Value

namespace Arguments

/-! ### What arguments can be -/

structure Proper (a : Arguments) : Prop where
  positional : ∀ v ∈ a.positional.values, v.Proper
  named : ∀ v ∈ a.named.values, v.Proper

structure FloatFree (a : Arguments) : Prop where
  positional : ∀ v ∈ a.positional.values, v.FloatFree
  named : ∀ v ∈ a.named.values, v.FloatFree

def InBound (a : Arguments) : Prop := ∀ i ∈ a.positional.keys, i < positionBound

def NoPositionNamed (a : Arguments) : Prop := ∀ name ∈ a.named.keys, ¬ ReadsAsPosition name

/-- Values at `0, …, n - 1` and no others. -/
def Row (a : Arguments) : Prop := a.named.keys = [] ∧ ∃ n, a.positional.keys = List.range n

/-- Arguments that a reading gives, and what values under names and behind the last position
make of them. No list that is read has more items than there are positions. -/
inductive Built : Arguments → Prop
  | empty : Built {}
  | decoded {d : Datum} {a : Arguments} (h : ofDatum? d = some a)
    (fits : ∀ items, d = .list items → items.length ≤ positionBound) : Built a
  | push {a : Arguments} (h : Built a) {v : Value} (hv : v.Proper) : Built (a.push v)
  | set {a : Arguments} (h : Built a) (name : String) {v : Value} (hv : v.Proper) :
    Built (a.set name v)

theorem proper_empty : Proper {} := ⟨nofun, nofun⟩

theorem inBound_empty : InBound {} := nofun

theorem Proper.put {a : Arguments} (h : a.Proper) {v : Value} (hv : v.Proper) (slot : Slot) :
    (a.put v slot).Proper := by
  have hmem {w : Value} {ws : List Value} (hws : ∀ w ∈ ws, w.Proper) :
      w = v ∨ w ∈ ws → w.Proper := fun hw => hw.elim (fun he => he ▸ hv) (hws w)
  cases slot with
  | position i => exact ⟨fun w hw => hmem h.positional (SortedMap.mem_values_insert hw), h.named⟩
  | name s => exact ⟨h.positional, fun w hw => hmem h.named (SortedMap.mem_values_insert hw)⟩

theorem InBound.put {a : Arguments} (h : a.InBound) (v : Value) {slot : Slot}
    (hs : ∀ i, slot = .position i → i < positionBound) : (a.put v slot).InBound := by
  cases slot with
  | position i =>
    intro j hj
    cases SortedMap.mem_keys_insert hj with
    | inl he => exact he ▸ hs i rfl
    | inr hj => exact h j hj
  | name s => exact h

theorem nextPosition_lt (a : Arguments) : a.nextPosition < positionBound := by
  have hb : 0 < positionBound := Nat.pow_pos (by decide)
  rw [nextPosition]
  split <;> omega

/-! ### What is read -/

theorem entries_ofValues (vs : List Value) :
    (ofValues vs).positional.entries = vs.zipIdx.map fun e => (e.2, e.1) := by
  refine SortedMap.entries_ofList (List.pairwise_map.2 ?_)
  have hlt : (vs.zipIdx.map Prod.snd).Pairwise (· < ·) := by
    rw [List.zipIdx_map_snd]
    exact List.pairwise_lt_range'
  exact (List.pairwise_map.1 hlt).imp fun h => Nat.compare_eq_lt.2 h

theorem keys_ofValues (vs : List Value) :
    (ofValues vs).positional.keys = List.range vs.length := by
  rw [SortedMap.keys, entries_ofValues, List.map_map, List.range_eq_range']
  exact List.zipIdx_map_snd 0 vs

theorem values_ofValues (vs : List Value) : (ofValues vs).positional.values = vs := by
  rw [SortedMap.values, entries_ofValues, List.map_map]
  exact List.zipIdx_map_fst 0 vs

/-- What the entries of a map leave: nothing beyond the bound, no name that is a position. -/
structure Settled (a : Arguments) : Prop where
  proper : a.Proper
  inBound : a.InBound
  named : a.NoPositionNamed

theorem Settled.put {a : Arguments} (h : a.Settled) {k : Datum} {slot : Slot}
    (hk : Slot.ofKey? k = some slot) {v : Value} (hv : v.Proper) : (a.put v slot).Settled where
  proper := h.proper.put hv slot
  inBound := h.inBound.put v fun i hi => by
    subst hi
    exact ofKey?_eq_some hk
  named := by
    cases slot with
    | position i => exact h.named
    | name s =>
      intro t ht
      cases SortedMap.mem_keys_insert ht with
      | inl he => exact he ▸ (not_readsAsPosition_iff s).2 (ofKey?_eq_some hk)
      | inr ht => exact h.named t ht

theorem settled_ofEntries {es : List (Datum × Value)} (h : ∀ e ∈ es, e.2.Proper) :
    (ofEntries es).Settled := by
  refine List.foldlRecOn es _ ⟨proper_empty, inBound_empty, nofun⟩ fun a ha e he => ?_
  cases hk : Slot.ofKey? e.1 with
  | none => exact ha
  | some slot => exact ha.put hk (h e he)

theorem proper_of_mapM {entries : List (Datum × Datum)} {es : List (Datum × Value)}
    (h : (entries.mapM fun e => do return (e.1, ← Value.ofDatum? e.2)) = some es) :
    ∀ e ∈ es, e.2.Proper := by
  rw [mapM_eq_some_iff_forall₂] at h
  induction h with
  | nil => exact nofun
  | cons hread _ ih =>
    obtain ⟨v, hv, he⟩ := Option.bind_eq_some_iff.1 hread
    cases he
    exact List.forall_mem_cons.2 ⟨Value.proper_of_ofDatum? hv, ih⟩

theorem ofDatum?_cases {d : Datum} {a : Arguments} (h : ofDatum? d = some a) :
    (∃ items vs, d = .list items ∧ Value.ofItems? items = some vs ∧ a = ofValues vs) ∨
      a.Settled := by
  cases d with
  | list items =>
    obtain ⟨vs, hvs, rfl⟩ := Option.map_eq_some_iff.1 h
    exact .inl ⟨items, vs, rfl, hvs, rfl⟩
  | map entries =>
    simp only [ofDatum?, Option.bind_eq_bind, Option.bind_eq_some_iff] at h
    obtain ⟨es, hes, h⟩ := h
    cases h
    exact .inr (settled_ofEntries (proper_of_mapM hes))
  | null => cases h
  | bool => cases h
  | int => cases h
  | float => cases h
  | text => cases h

theorem row_ofValues (vs : List Value) : (ofValues vs).Row := ⟨rfl, vs.length, keys_ofValues vs⟩

theorem proper_of_ofDatum? {d : Datum} {a : Arguments} (h : ofDatum? d = some a) : a.Proper := by
  obtain ⟨items, vs, rfl, hvs, rfl⟩ | h := ofDatum?_cases h
  · refine ⟨?_, nofun⟩
    rw [values_ofValues]
    exact Value.proper_of_ofItems? hvs
  · exact h.proper

theorem noPositionNamed_of_ofDatum? {d : Datum} {a : Arguments} (h : ofDatum? d = some a) :
    a.NoPositionNamed := by
  obtain ⟨items, vs, rfl, hvs, rfl⟩ | h := ofDatum?_cases h
  · exact nofun
  · exact h.named

theorem row_or_inBound_of_ofDatum? {d : Datum} {a : Arguments} (h : ofDatum? d = some a) :
    a.Row ∨ a.InBound := by
  obtain ⟨items, vs, rfl, hvs, rfl⟩ | h := ofDatum?_cases h
  · exact .inl (row_ofValues vs)
  · exact .inr h.inBound

theorem Built.proper {a : Arguments} (h : a.Built) : a.Proper := by
  induction h with
  | empty => exact proper_empty
  | decoded h fits => exact proper_of_ofDatum? h
  | push _ hv ih => exact ih.put hv _
  | set _ name hv ih => exact ih.put hv _

theorem Built.inBound {a : Arguments} (h : a.Built) : a.InBound := by
  induction h with
  | empty => exact inBound_empty
  | decoded h fits =>
    -- Only a list gives positions without looking at the bound.
    obtain ⟨items, vs, rfl, hvs, rfl⟩ | h := ofDatum?_cases h
    · intro i hi
      rw [keys_ofValues, List.mem_range, Value.length_ofItems? hvs] at hi
      exact Nat.lt_of_lt_of_le hi (fits items rfl)
    · exact h.inBound
  | @push a _ v hv ih =>
    exact ih.put v fun i hi => by
      obtain rfl := Slot.position.inj hi
      exact a.nextPosition_lt
  | @set a _ name v hv ih => exact ih.put v nofun

/-! ### What is written -/

theorem row_iff (a : Arguments) : a.Row ↔ (a.named.isEmpty && a.isDense) = true := by
  have hlength : a.positional.keys.length = a.positional.size := List.length_map ..
  rw [Bool.and_eq_true, isDense, beq_iff_eq, SortedMap.isEmpty, List.isEmpty_iff]
  constructor
  · intro h
    obtain ⟨hn, n, hk⟩ := h
    have hsize : n = a.positional.size := by rw [← hlength, hk, List.length_range]
    exact ⟨List.map_eq_nil_iff.1 hn, hsize ▸ hk⟩
  · exact fun h => ⟨List.map_eq_nil_iff.2 h.1, _, h.2⟩

theorem toDatum_row {a : Arguments} (h : a.Row) :
    a.toDatum = .list (a.positional.values.map Value.toDatum) := by
  rw [toDatum, if_pos ((row_iff a).1 h)]

theorem toDatum_sparse {a : Arguments} (h : ¬ a.Row) :
    a.toDatum = .map (a.positional.entries.map (fun e => (.int e.1, e.2.toDatum))
      ++ a.named.entries.map (fun e => (.text e.1, e.2.toDatum))) := by
  rw [toDatum, if_neg fun hr => h ((row_iff a).2 hr)]

theorem plain_toDatum {a : Arguments} (hp : a.Proper) (hf : a.FloatFree) :
    Json.Plain a.toDatum := by
  have hpos : ∀ e ∈ a.positional.entries, Json.Plain e.2.toDatum := fun e he =>
    Value.plain_toDatum (hp.positional e.2 (List.mem_map_of_mem he))
      (hf.positional e.2 (List.mem_map_of_mem he))
  have hname : ∀ e ∈ a.named.entries, Json.Plain e.2.toDatum := fun e he =>
    Value.plain_toDatum (hp.named e.2 (List.mem_map_of_mem he))
      (hf.named e.2 (List.mem_map_of_mem he))
  by_cases h : a.Row
  · rw [toDatum_row h, SortedMap.values, List.map_map]
    exact .list (List.forall_mem_map.2 hpos)
  · rw [toDatum_sparse h]
    refine .map fun e he => ?_
    cases List.mem_append.1 he with
    | inl he => exact List.forall_mem_map (P := fun e => Json.Plain e.2).2 hpos e he
    | inr he => exact List.forall_mem_map (P := fun e => Json.Plain e.2).2 hname e he

/-! ### What comes back -/

def keyed (a : Arguments) : List (Datum × Value) :=
  a.positional.entries.map (fun e => (.text (toString (e.1 : Int)), e.2)) ++
    a.named.entries.map (fun e => (.text e.1, e.2))

theorem carried_sparse {a : Arguments} (h : ¬ a.Row) :
    Json.carried a.toDatum = .map (a.keyed.map fun e => (e.1, e.2.toDatum)) := by
  rw [toDatum_sparse h, Json.carried, Json.carriedEntries_eq_map, keyed]
  simp only [List.map_append, List.map_map, Function.comp_def, Value.carried_toDatum,
    Json.keyString]

theorem carried_row {a : Arguments} (h : a.Row) : Json.carried a.toDatum = a.toDatum := by
  rw [toDatum_row h, ← Value.toItems_eq_map, Json.carried, Value.carried_toItems]

theorem mapM_toDatum {es : List (Datum × Value)}
    (h : ∀ e ∈ es, Value.ofDatum? e.2.toDatum = some e.2) :
    (es.map fun e => (e.1, e.2.toDatum)).mapM (fun e => do return (e.1, ← Value.ofDatum? e.2)) =
      some es := by
  induction es with
  | nil => rfl
  | cons e es ih =>
    rw [List.map_cons, List.mapM_cons, ih fun d hd => h d (List.mem_cons_of_mem e hd),
      h e List.mem_cons_self]
    rfl

def entered (a : Arguments) (e : Datum × Value) : Arguments :=
  ((Slot.ofKey? e.1).map (a.put e.2)).getD a

theorem foldl_entered {κ : Type} (key : κ → Datum) (slot : κ → Slot) {es : List (κ × Value)}
    (h : ∀ e ∈ es, Slot.ofKey? (key e.1) = some (slot e.1)) :
    ∀ a : Arguments, (es.map fun e => (key e.1, e.2)).foldl entered a =
      es.foldl (fun a e => a.put e.2 (slot e.1)) a := by
  induction es with
  | nil => exact fun _ => rfl
  | cons e es ih =>
    intro a
    have he : entered a (key e.1, e.2) = a.put e.2 (slot e.1) := by
      rw [entered, h e List.mem_cons_self]
      rfl
    rw [List.map_cons, List.foldl_cons, List.foldl_cons, he,
      ih fun d hd => h d (List.mem_cons_of_mem e hd)]

theorem foldl_positions (es : List (Nat × Value)) (a : Arguments) :
    es.foldl (fun a e => a.put e.2 (.position e.1)) a =
      { a with positional := es.foldl (fun m e => m.insert e.1 e.2) a.positional } :=
  List.foldl_hom (fun m => { a with positional := m }) fun _ _ => rfl

theorem foldl_names (es : List (String × Value)) (a : Arguments) :
    es.foldl (fun a e => a.put e.2 (.name e.1)) a =
      { a with named := es.foldl (fun m e => m.insert e.1 e.2) a.named } :=
  List.foldl_hom (fun m => { a with named := m }) fun _ _ => rfl

theorem ofEntries_keyed {a : Arguments} (hb : a.InBound) (hn : a.NoPositionNamed) :
    ofEntries a.keyed = a := by
  have hpos : ∀ e ∈ a.positional.entries,
      Slot.ofKey? (.text (toString (e.1 : Int))) = some (.position e.1) :=
    fun e he => ofKey?_digits (hb e.1 (List.mem_map_of_mem he))
  have hname : ∀ e ∈ a.named.entries, Slot.ofKey? (.text e.1) = some (.name e.1) :=
    fun e he => ofKey?_name ((not_readsAsPosition_iff e.1).1 (hn e.1 (List.mem_map_of_mem he)))
  change a.keyed.foldl entered {} = a
  rw [keyed, List.foldl_append, foldl_entered (fun i : Nat => .text (toString (i : Int)))
    .position hpos, foldl_positions, foldl_entered .text .name hname, foldl_names]
  exact congrArg₂ mk a.positional.foldl_insert_entries a.named.foldl_insert_entries

theorem ofValues_values {a : Arguments} (h : a.Row) : ofValues a.positional.values = a := by
  obtain ⟨hn, n, hk⟩ := h
  have hlength : a.positional.values.length = n := by
    rw [← List.length_range (n := n), ← hk, SortedMap.keys, SortedMap.values, List.length_map,
      List.length_map]
  have hpos : (ofValues a.positional.values).positional = a.positional := by
    apply SortedMap.ext
    rw [← SortedMap.zip_keys_values, ← SortedMap.zip_keys_values a.positional, keys_ofValues,
      values_ofValues, hk, hlength]
  have hname : a.named = .empty := SortedMap.ext (List.map_eq_nil_iff.1 hn)
  exact congrArg₂ mk hpos hname.symm

theorem ofDatum?_carried {a : Arguments} (hp : a.Proper) (hf : a.FloatFree)
    (hb : a.Row ∨ a.InBound) (hn : a.NoPositionNamed) :
    ofDatum? (Json.carried a.toDatum) = some a := by
  have hpos : ∀ v ∈ a.positional.values, Value.ofDatum? v.toDatum = some v :=
    fun v hv => Value.ofDatum?_toDatum (hp.positional v hv) (hf.positional v hv)
  have hname : ∀ v ∈ a.named.values, Value.ofDatum? v.toDatum = some v :=
    fun v hv => Value.ofDatum?_toDatum (hp.named v hv) (hf.named v hv)
  -- A list leaves the positions out; in a map each key must denote the slot it stands for.
  by_cases h : a.Row
  · rw [carried_row h, toDatum_row h, ← Value.toItems_eq_map, ofDatum?,
      Value.ofItems?_toItems hpos, Option.map_some, ofValues_values h]
  · have hvalues : ∀ e ∈ a.keyed, Value.ofDatum? e.2.toDatum = some e.2 := by
      intro e he
      cases List.mem_append.1 he with
      | inl he =>
        obtain ⟨d, hd, rfl⟩ := List.mem_map.1 he
        exact hpos d.2 (List.mem_map_of_mem hd)
      | inr he =>
        obtain ⟨d, hd, rfl⟩ := List.mem_map.1 he
        exact hname d.2 (List.mem_map_of_mem hd)
    rw [carried_sparse h, ofDatum?, mapM_toDatum hvalues, Option.bind_eq_bind, Option.bind_some,
      ofEntries_keyed (hb.resolve_left h) hn]
    rfl

theorem returns_of_ofDatum? {d : Datum} {a : Arguments} (h : ofDatum? d = some a)
    (hf : a.FloatFree) : ofDatum? (Json.carried a.toDatum) = some a :=
  ofDatum?_carried (proper_of_ofDatum? h) hf (row_or_inBound_of_ofDatum? h)
    (noPositionNamed_of_ofDatum? h)

theorem required_eq_ok {o : Option α} {a : α} : Json.document.required o = .ok a ↔ o = some a := by
  cases o with
  | none => exact ⟨nofun, nofun⟩
  | some b =>
    constructor
    · intro h
      cases h
      rfl
    · rintro ⟨⟩
      rfl

theorem read_compact_iff {a b : Arguments} (h : Json.Plain a.toDatum)
    (hn : Json.nesting a.toDatum ≤ Json.room) :
    Json.read (read Json.document) (Json.compact a.toDatum) = .ok b ↔
      ofDatum? (Json.carried a.toDatum) = some b := by
  rw [Json.read_compact h, ← required_eq_ok]
  change (do Json.document.required (ofDatum? (← (Json.Outline.ofDatum a.toDatum).datum Json.room)))
    = _ ↔ _
  rw [Json.kept h Json.room hn]
  rfl

/-- How arguments are written: a list when there are no names and no gaps, and otherwise a map
with the positions from the lowest, and the names behind them. -/
structure Written (a : Arguments) (d : Datum) : Prop where
  row : a.Row → d = .list (a.positional.values.map Value.toDatum)
  sparse : ¬ a.Row → d = .map (a.positional.entries.map (fun e => (.int e.1, e.2.toDatum))
    ++ a.named.entries.map (fun e => (.text e.1, e.2.toDatum)))
  ascending : a.positional.keys.Pairwise (· < ·)

theorem written_toDatum (a : Arguments) : a.Written a.toDatum where
  row := toDatum_row
  sparse := toDatum_sparse
  ascending := List.pairwise_map.2 (a.positional.ascending.imp Nat.compare_eq_lt.1)

/-- Arguments without floats come back, from the value and from its text, exactly when no name
of theirs reads as a position. No name does in arguments that were read before. -/
theorem returned_iff_noPositionNamed :
    (∀ a : Arguments, a.Built → a.FloatFree →
      a.Written a.toDatum ∧
      (ofDatum? (Json.carried a.toDatum) = some a ↔ a.NoPositionNamed) ∧
      (Json.nesting a.toDatum ≤ Json.room →
        (Json.read (read Json.document) (Json.compact a.toDatum) = .ok a ↔ a.NoPositionNamed))) ∧
    ∀ (d : Datum) (a : Arguments), ofDatum? d = some a → a.FloatFree →
      ofDatum? (Json.carried a.toDatum) = some a ∧
      (Json.nesting a.toDatum ≤ Json.room →
        Json.read (read Json.document) (Json.compact a.toDatum) = .ok a) := by
  refine ⟨fun a h hf => ?_, fun d a h hf => ?_⟩
  · have hiff : ofDatum? (Json.carried a.toDatum) = some a ↔ a.NoPositionNamed :=
      ⟨noPositionNamed_of_ofDatum?, ofDatum?_carried h.proper hf (.inr h.inBound)⟩
    exact ⟨written_toDatum a, hiff,
      fun hn => (read_compact_iff (plain_toDatum h.proper hf) hn).trans hiff⟩
  · have hback := returns_of_ofDatum? h hf
    have hplain := plain_toDatum (proper_of_ofDatum? h) hf
    exact ⟨hback, fun hn => (read_compact_iff hplain hn).2 hback⟩

/-- A flag behind a position, under a name that is none and under one that is. -/
def flagged (name : String) : Arguments := (push {} (.int 7)).set name (.bool true)

theorem flag_lost_under_position :
    ofDatum? (Json.carried (flagged "on").toDatum) = some (flagged "on") ∧
    ofDatum? (Json.carried (flagged "+01").toDatum) ≠ some (flagged "+01") ∧
    ofDatum? (Json.carried (ofValues [.null, .text "a"]).toDatum) =
      some (ofValues [.null, .text "a"]) := by
  have hbuilt (name : String) : (flagged name).Built :=
    .set (.push .empty (.int (by decide))) name (.bool true)
  have hfree (name : String) : (flagged name).FloatFree :=
    ⟨List.forall_mem_singleton.2 (.int 7), List.forall_mem_singleton.2 (.bool true)⟩
  refine ⟨?_, ?_, ?_⟩
  · refine (returned_iff_noPositionNamed.1 _ (hbuilt "on") (hfree "on")).2.1.2 ?_
    exact List.forall_mem_singleton.2 ((not_readsAsPosition_iff "on").2 (by decide))
  · intro h
    have hn := (returned_iff_noPositionNamed.1 _ (hbuilt "+01") (hfree "+01")).2.1.1 h
    exact List.forall_mem_singleton.1 hn ((readsAsPosition_iff "+01").2 ⟨1, by decide⟩)
  · refine (returned_iff_noPositionNamed.2 (.list [.null, .text "a"]) _ rfl ⟨?_, nofun⟩).1
    rw [values_ofValues]
    exact List.forall_mem_cons.2 ⟨.null, List.forall_mem_singleton.2 (.text "a")⟩

end Arguments
end Reprieve.Tag
