import Reprieve.Proofs.SortedMaps
import Reprieve.Tag.Value

/-! Values of tag arguments as data. Without a float, what a value is written as is read
as that value again. -/
namespace Reprieve

namespace Tag.Value

/-- What an argument can be: a whole number fits 64 bits with a sign, and a map has its
keys in order, each once. -/
inductive Proper : Value → Prop
  | null : Proper .null
  | bool (b : Bool) : Proper (.bool b)
  | int {n : Int} (h : -Int.pow 2 63 ≤ n ∧ n < Int.pow 2 63) : Proper (.int n)
  | float (f : Float) : Proper (.float f)
  | text (s : String) : Proper (.text s)
  | list {items : List Value} (h : ∀ v ∈ items, Proper v) : Proper (.list items)
  | map {entries : List (String × Value)}
    (ascending : entries.Pairwise fun a b => compare a.1 b.1 = .lt)
    (h : ∀ e ∈ entries, Proper e.2) : Proper (.map entries)

inductive FloatFree : Value → Prop
  | null : FloatFree .null
  | bool (b : Bool) : FloatFree (.bool b)
  | int (n : Int) : FloatFree (.int n)
  | text (s : String) : FloatFree (.text s)
  | list {items : List Value} (h : ∀ v ∈ items, FloatFree v) : FloatFree (.list items)
  | map {entries : List (String × Value)} (h : ∀ e ∈ entries, FloatFree e.2) :
    FloatFree (.map entries)

theorem proper_ofInt (n : Int) : (ofInt n).Proper := by
  rw [ofInt]
  split
  · rename_i h
    exact .int h
  · exact .float _

mutual

theorem proper_of_ofDatum? : ∀ {d : Datum} {v : Value}, ofDatum? d = some v → v.Proper
  | .null, _, h => by cases h; exact .null
  | .bool b, _, h => by cases h; exact .bool b
  | .int n, _, h => by cases h; exact proper_ofInt n
  | .float f, _, h => by cases h; exact .float f
  | .text s, _, h => by cases h; exact .text s
  | .list items, _, h => by
    simp only [ofDatum?, Option.bind_eq_bind, Option.bind_eq_some_iff] at h
    obtain ⟨vs, hvs, h⟩ := h
    cases h
    exact .list (proper_of_ofItems? hvs)
  | .map entries, _, h => by
    simp only [ofDatum?, Option.bind_eq_bind, Option.bind_eq_some_iff] at h
    obtain ⟨es, hes, h⟩ := h
    cases h
    exact .map (SortedMap.ofList es).ascending fun e he =>
      proper_of_ofEntries? hes e (SortedMap.mem_of_mem_ofList he)

theorem proper_of_ofItems? : ∀ {ds : List Datum} {vs : List Value}, ofItems? ds = some vs →
    ∀ v ∈ vs, v.Proper
  | [], _, h => by cases h; exact nofun
  | d :: ds, _, h => by
    simp only [ofItems?, Option.bind_eq_bind, Option.bind_eq_some_iff] at h
    obtain ⟨v, hv, vs, hvs, h⟩ := h
    cases h
    exact List.forall_mem_cons.2 ⟨proper_of_ofDatum? hv, proper_of_ofItems? hvs⟩

theorem proper_of_ofEntries? : ∀ {ds : List (Datum × Datum)} {es : List (String × Value)},
    ofEntries? ds = some es → ∀ e ∈ es, e.2.Proper
  | [], _, h => by cases h; exact nofun
  | (.text k, d) :: ds, _, h => by
    simp only [ofEntries?, Option.bind_eq_bind, Option.bind_eq_some_iff] at h
    obtain ⟨v, hv, es, hes, h⟩ := h
    cases h
    exact List.forall_mem_cons.2 ⟨proper_of_ofDatum? hv, proper_of_ofEntries? hes⟩
  | (.null, _) :: _, _, h | (.bool _, _) :: _, _, h | (.int _, _) :: _, _, h
  | (.float _, _) :: _, _, h | (.list _, _) :: _, _, h | (.map _, _) :: _, _, h => by cases h

end

theorem length_ofItems? : ∀ {ds : List Datum} {vs : List Value}, ofItems? ds = some vs →
    vs.length = ds.length
  | [], _, h => by cases h; rfl
  | d :: ds, _, h => by
    simp only [ofItems?, Option.bind_eq_bind, Option.bind_eq_some_iff] at h
    obtain ⟨v, _, vs, hvs, h⟩ := h
    cases h
    rw [List.length_cons, List.length_cons, length_ofItems? hvs]

theorem ofItems?_toItems {vs : List Value} (h : ∀ v ∈ vs, ofDatum? v.toDatum = some v) :
    ofItems? (toItems vs) = some vs := by
  induction vs with
  | nil => rfl
  | cons v vs ih =>
    rw [toItems, ofItems?, h v List.mem_cons_self, ih fun w hw => h w (List.mem_cons_of_mem v hw)]
    rfl

theorem ofEntries?_toEntries {es : List (String × Value)}
    (h : ∀ e ∈ es, ofDatum? e.2.toDatum = some e.2) : ofEntries? (toEntries es) = some es := by
  induction es with
  | nil => rfl
  | cons e es ih =>
    rw [toEntries, ofEntries?, h e List.mem_cons_self,
      ih fun d hd => h d (List.mem_cons_of_mem e hd)]
    rfl

theorem ofDatum?_toDatum {v : Value} (hp : v.Proper) (hf : v.FloatFree) :
    ofDatum? v.toDatum = some v := by
  induction hp with
  | null => rfl
  | bool b => rfl
  | int h => rw [toDatum, ofDatum?, ofInt, if_pos h]
  | float f => cases hf
  | text s => rfl
  | list h ih =>
    cases hf with
    | list hf =>
      rw [toDatum, ofDatum?, ofItems?_toItems fun v hv => ih v hv (hf v hv)]
      rfl
  | map hs h ih =>
    cases hf with
    | map hf =>
      rw [toDatum, ofDatum?, ofEntries?_toEntries fun e he => ih e he (hf e he),
        Option.bind_eq_bind, Option.bind_some, SortedMap.entries_ofList hs]
      rfl

theorem toItems_eq_map (vs : List Value) : toItems vs = vs.map toDatum := by
  induction vs with
  | nil => rfl
  | cons v vs ih => rw [toItems, ih, List.map_cons]

theorem toEntries_eq_map (es : List (String × Value)) :
    toEntries es = es.map fun e => (.text e.1, e.2.toDatum) := by
  induction es with
  | nil => rfl
  | cons e es ih => rw [toEntries, ih, List.map_cons]

end Tag.Value
end Reprieve
