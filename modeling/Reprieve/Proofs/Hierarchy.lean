import Mathlib.Data.List.Nodup
import Mathlib.Logic.Relation
import Reprieve.Class.Lineage
import Reprieve.Proofs.Spelling

/-! The records of a snapshot as a graph on keys, with an edge for every parent and
for every interface that a record declares, and the two walks along these edges
round by round. -/
namespace Reprieve.Lineage
open Relation (ReflTransGen)

def Distinct (rs : List ClassRecord) : Prop := (rs.map fun r => ClassName.keyOf r.name).Nodup

instance (rs : List ClassRecord) : Decidable (Distinct rs) :=
  inferInstanceAs (Decidable (List.Nodup _))

def Parent (rs : List ClassRecord) (a b : String) : Prop :=
  ∃ r ∈ rs, ∃ p, ClassName.keyOf r.name = a ∧ r.parent = some p ∧ ClassName.keyOf p = b

def Declares (rs : List ClassRecord) (a b : String) : Prop :=
  ∃ r ∈ rs, ∃ i ∈ r.interfaces, ClassName.keyOf r.name = a ∧ ClassName.keyOf i = b

def parent? (rs : List ClassRecord) (key : String) : Option String :=
  (find? rs key).bind (·.parent)

def declaredBy (rs : List ClassRecord) (key : String) : List String :=
  ((find? rs key).map (·.interfaces)).getD []

theorem mem_of_find? {rs : List ClassRecord} {key : String} {r : ClassRecord}
    (h : find? rs key = some r) : r ∈ rs ∧ ClassName.keyOf r.name = key :=
  ⟨List.mem_of_find?_eq_some h, by simpa using List.find?_some h⟩

theorem Distinct.find?_keyOf {rs : List ClassRecord} (hd : Distinct rs) {r : ClassRecord}
    (hr : r ∈ rs) : find? rs (ClassName.keyOf r.name) = some r := by
  cases h : find? rs (ClassName.keyOf r.name) with
  | none => exact absurd (List.find?_eq_none.1 h r hr) (by simp)
  | some q =>
    obtain ⟨hq, hk⟩ := mem_of_find? h
    rw [List.inj_on_of_nodup_map hd hq hr hk]

theorem Distinct.find?_eq_some_iff {rs : List ClassRecord} (hd : Distinct rs) (key : String)
    (r : ClassRecord) : find? rs key = some r ↔ r ∈ rs ∧ ClassName.keyOf r.name = key := by
  refine ⟨mem_of_find?, fun h => ?_⟩
  obtain ⟨hr, rfl⟩ := h
  exact hd.find?_keyOf hr

theorem Distinct.parent?_keyOf {rs : List ClassRecord} (hd : Distinct rs) {r : ClassRecord}
    (hr : r ∈ rs) : parent? rs (ClassName.keyOf r.name) = r.parent := by
  rw [parent?, hd.find?_keyOf hr]
  rfl

theorem Distinct.declaredBy_keyOf {rs : List ClassRecord} (hd : Distinct rs) {r : ClassRecord}
    (hr : r ∈ rs) : declaredBy rs (ClassName.keyOf r.name) = r.interfaces := by
  rw [declaredBy, hd.find?_keyOf hr]
  rfl

theorem Distinct.parent?_eq_some_iff {rs : List ClassRecord} (hd : Distinct rs) (a p : String) :
    parent? rs a = some p ↔ ∃ r ∈ rs, ClassName.keyOf r.name = a ∧ r.parent = some p := by
  constructor
  · intro h
    obtain ⟨r, hf, hp⟩ := Option.bind_eq_some_iff.1 h
    obtain ⟨hr, hk⟩ := mem_of_find? hf
    exact ⟨r, hr, hk, hp⟩
  · intro h
    obtain ⟨r, hr, hk, hp⟩ := h
    rw [← hk, hd.parent?_keyOf hr, hp]

theorem mem_declaredBy {rs : List ClassRecord} {a i : String} (h : i ∈ declaredBy rs a) :
    ∃ r ∈ rs, ClassName.keyOf r.name = a ∧ i ∈ r.interfaces := by
  cases hf : find? rs a with
  | none => simp [declaredBy, hf] at h
  | some r =>
    obtain ⟨hr, hk⟩ := mem_of_find? hf
    exact ⟨r, hr, hk, by simpa [declaredBy, hf] using h⟩

theorem Distinct.mem_declaredBy_iff {rs : List ClassRecord} (hd : Distinct rs) (a i : String) :
    i ∈ declaredBy rs a ↔ ∃ r ∈ rs, ClassName.keyOf r.name = a ∧ i ∈ r.interfaces := by
  refine ⟨mem_declaredBy, fun h => ?_⟩
  obtain ⟨r, hr, hk, hi⟩ := h
  rwa [← hk, hd.declaredBy_keyOf hr]

theorem declares_of_mem_declaredBy {rs : List ClassRecord} {a i : String}
    (h : i ∈ declaredBy rs a) : Declares rs a (ClassName.keyOf i) := by
  obtain ⟨r, hr, hk, hi⟩ := mem_declaredBy h
  exact ⟨r, hr, i, hi, hk, rfl⟩

theorem Distinct.exists_declaredBy {rs : List ClassRecord} (hd : Distinct rs) {a b : String}
    (h : Declares rs a b) : ∃ i ∈ declaredBy rs a, ClassName.keyOf i = b := by
  obtain ⟨r, hr, i, hi, hk, hb⟩ := h
  exact ⟨i, (hd.mem_declaredBy_iff a i).2 ⟨r, hr, hk, hi⟩, hb⟩

/-! ### The walks round by round -/

/-- A walk between two rounds: the keys met, what comes next, the names found. -/
structure Walk (ν : Type) where
  seen : List String
  next : ν
  found : List ClassName := []

/-- Rounds are made until none is left to make. -/
def Ends {σ : Type} (round : σ → Option σ) (s t : σ) : Prop :=
  ReflTransGen (fun a b => round a = some b) s t ∧ round t = none

theorem Ends.head {σ : Type} {round : σ → Option σ} {s t u : σ} (hst : round s = some t)
    (h : Ends round t u) : Ends round s u :=
  ⟨.head hst h.1, h.2⟩

def climbRound (rs : List ClassRecord) (w : Walk (Option String)) :
    Option (Walk (Option String)) :=
  w.next.bind fun p =>
    let key := ClassName.keyOf p
    if key ∈ w.seen then none
    else some ⟨key :: w.seen, parent? rs key, w.found ++ [.ofText p]⟩

def spreadRound (rs : List ClassRecord) (w : Walk (List String)) :
    Option (Walk (List String)) :=
  match w.next with
  | [] => none
  | n :: pending =>
    let key := ClassName.keyOf n
    if key ∈ w.seen then some { w with next := pending }
    else some ⟨key :: w.seen, (declaredBy rs key).reverse ++ pending, w.found ++ [.ofText n]⟩

/-- What one round of the climb may do: there is no parent, the parent was met before,
or it is taken and the climb goes on from its record. -/
theorem climb_induction {rs : List ClassRecord}
    {motive : List String → Option String → List ClassName → Prop}
    (absent : ∀ seen, motive seen none [])
    (repeated : ∀ seen p, ClassName.keyOf p ∈ seen → motive seen (some p) [])
    (fresh : ∀ seen p l, ClassName.keyOf p ∉ seen →
      motive (ClassName.keyOf p :: seen) (parent? rs (ClassName.keyOf p)) l →
      motive seen (some p) (.ofText p :: l))
    (seen : List String) (next : Option String) : motive seen next (climb rs seen next) := by
  fun_induction climb rs seen next with
  | case1 seen => exact absent seen
  | case2 seen p key hs => exact repeated seen p (by simpa using hs)
  | case3 seen p key hs ih =>
    refine fresh seen p _ (by simpa using hs) ?_
    change motive (key :: seen) (parent? rs key) _
    split
    · rename_i h
      rw [parent?, h]
      exact absent (key :: seen)
    · rename_i r h
      rw [parent?, h]
      exact ih r h

theorem climb_of_mem {rs : List ClassRecord} {seen : List String} {p : String}
    (h : ClassName.keyOf p ∈ seen) : climb rs seen (some p) = [] := by
  rw [climb]
  simp [h]

theorem climb_of_not_mem {rs : List ClassRecord} {seen : List String} {p : String}
    (h : ClassName.keyOf p ∉ seen) : climb rs seen (some p) =
      .ofText p :: climb rs (ClassName.keyOf p :: seen) (parent? rs (ClassName.keyOf p)) := by
  rw [climb, dif_neg (by simpa using h), parent?]
  cases find? rs (ClassName.keyOf p) with
  | none => simp [climb]
  | some r => rfl

/-- What one round of the spread may do: nothing is pending, the next name was met
before, or it is taken and what its record declares is pending too. -/
theorem spread_induction {rs : List ClassRecord}
    {motive : List String → List String → List ClassName → Prop}
    (done : ∀ seen, motive seen [] [])
    (repeated : ∀ seen n pending l, ClassName.keyOf n ∈ seen → motive seen pending l →
      motive seen (n :: pending) l)
    (fresh : ∀ seen n pending l, ClassName.keyOf n ∉ seen →
      motive (ClassName.keyOf n :: seen)
        ((declaredBy rs (ClassName.keyOf n)).reverse ++ pending) l →
      motive seen (n :: pending) (.ofText n :: l))
    (seen pending : List String) : motive seen pending (spread rs seen pending) := by
  fun_induction spread rs seen pending with
  | case1 seen => exact done seen
  | case2 seen n pending key hs ih => exact repeated seen n pending _ (by simpa using hs) ih
  | case3 seen n pending key hs ihNone ihSome =>
    refine fresh seen n pending _ (by simpa using hs) ?_
    change motive (key :: seen) ((declaredBy rs key).reverse ++ pending) _
    split
    · rename_i h
      rw [declaredBy, h]
      exact ihNone
    · rename_i r h
      rw [declaredBy, h]
      exact ihSome r h

theorem spread_of_mem {rs : List ClassRecord} {seen pending : List String} {n : String}
    (h : ClassName.keyOf n ∈ seen) : spread rs seen (n :: pending) = spread rs seen pending := by
  rw [spread]
  simp [h]

theorem spread_of_not_mem {rs : List ClassRecord} {seen pending : List String} {n : String}
    (h : ClassName.keyOf n ∉ seen) : spread rs seen (n :: pending) =
      .ofText n :: spread rs (ClassName.keyOf n :: seen)
        ((declaredBy rs (ClassName.keyOf n)).reverse ++ pending) := by
  rw [spread, dif_neg (by simpa using h), declaredBy]
  cases find? rs (ClassName.keyOf n) with
  | none => rfl
  | some r => rfl

theorem climb_congr {rs rs' : List ClassRecord} (h : ∀ k, parent? rs' k = parent? rs k)
    (seen : List String) (next : Option String) : climb rs' seen next = climb rs seen next := by
  refine climb_induction (motive := fun seen next l => climb rs' seen next = l)
    ?absent ?repeated ?fresh seen next
  case absent => exact fun seen => by rw [climb]
  case repeated => exact fun seen p hp => climb_of_mem hp
  case fresh =>
    intro seen p l hp ih
    rw [climb_of_not_mem hp, h, ih]

theorem spread_congr {rs rs' : List ClassRecord} (h : ∀ k, declaredBy rs' k = declaredBy rs k)
    (seen pending : List String) : spread rs' seen pending = spread rs seen pending := by
  refine spread_induction (motive := fun seen pending l => spread rs' seen pending = l)
    ?done ?repeated ?fresh seen pending
  case done => exact fun seen => by rw [spread]
  case repeated => exact fun seen n pending l hn ih => (spread_of_mem hn).trans ih
  case fresh =>
    intro seen n pending l hn ih
    rw [spread_of_not_mem hn, h, ih]

theorem climb_ends (rs : List ClassRecord) (seen : List String) (next : Option String) :
    ∀ found, ∃ w, Ends (climbRound rs) ⟨seen, next, found⟩ w ∧
      w.found = found ++ climb rs seen next := by
  refine climb_induction
    (motive := fun seen next l => ∀ found, ∃ w, Ends (climbRound rs) ⟨seen, next, found⟩ w ∧
      w.found = found ++ l) ?absent ?repeated ?fresh seen next
  case absent => exact fun _ _ => ⟨_, ⟨.refl, rfl⟩, by simp⟩
  case repeated =>
    exact fun seen p hp found => ⟨_, ⟨.refl, by simp [climbRound, hp]⟩, by simp⟩
  case fresh =>
    intro seen p l hp ih found
    obtain ⟨w, hw, hf⟩ := ih (found ++ [.ofText p])
    exact ⟨w, hw.head (by simp [climbRound, hp]), by simp [hf]⟩

theorem spread_ends (rs : List ClassRecord) (seen pending : List String) :
    ∀ found, ∃ w, Ends (spreadRound rs) ⟨seen, pending, found⟩ w ∧
      w.found = found ++ spread rs seen pending := by
  refine spread_induction
    (motive := fun seen pending l => ∀ found, ∃ w,
      Ends (spreadRound rs) ⟨seen, pending, found⟩ w ∧ w.found = found ++ l)
    ?done ?repeated ?fresh seen pending
  case done => exact fun _ _ => ⟨_, ⟨.refl, rfl⟩, by simp⟩
  case repeated =>
    intro seen n pending l hn ih found
    obtain ⟨w, hw, hf⟩ := ih found
    exact ⟨w, hw.head (by simp [spreadRound, hn]), hf⟩
  case fresh =>
    intro seen n pending l hn ih found
    obtain ⟨w, hw, hf⟩ := ih (found ++ [.ofText n])
    exact ⟨w, hw.head (by simp [spreadRound, hn]), by simp [hf]⟩

/-! ### No key twice -/

/-- The names have keys of their own, which were not met before. -/
def Fresh (seen : List String) (l : List ClassName) : Prop :=
  (l.map ClassName.key).Nodup ∧ ∀ k ∈ l.map ClassName.key, k ∉ seen

theorem Fresh.cons {seen : List String} {n : String} {l : List ClassName}
    (hn : ClassName.keyOf n ∉ seen) (h : Fresh (ClassName.keyOf n :: seen) l) :
    Fresh seen (.ofText n :: l) := by
  rw [Fresh, List.map_cons, ClassName.key_ofText]
  refine ⟨List.nodup_cons.2 ⟨fun hm => h.2 _ hm List.mem_cons_self, h.1⟩, ?_⟩
  intro k hk
  cases List.mem_cons.1 hk with
  | inl he => rwa [he]
  | inr hk => exact fun hs => h.2 k hk (List.mem_cons_of_mem _ hs)

theorem climb_fresh (rs : List ClassRecord) (seen : List String) (next : Option String) :
    Fresh seen (climb rs seen next) :=
  climb_induction (motive := fun seen _ l => Fresh seen l) (by simp [Fresh]) (by simp [Fresh])
    (fun _ _ _ hp h => h.cons hp) seen next

theorem spread_fresh (rs : List ClassRecord) (seen pending : List String) :
    Fresh seen (spread rs seen pending) :=
  spread_induction (motive := fun seen _ l => Fresh seen l) (by simp [Fresh])
    (fun _ _ _ _ _ h => h) (fun _ _ _ _ hn h => h.cons hn) seen pending

/-! ### A snapshot with loops -/

def child : ClassRecord :=
  { name := "App\\Child", parent := some "\\app\\First", methods := [{ name := "run" }] }

def first : ClassRecord :=
  { name := "App\\First", parent := some "App\\second", interfaces := ["App\\Marked"] }

def second : ClassRecord := { name := "\\App\\Second", parent := some "APP\\FIRST" }

def marked : ClassRecord :=
  { name := "App\\Marked", kind := .interface, interfaces := ["\\App\\Tagged"] }

def tagged : ClassRecord :=
  { name := "App\\Tagged", kind := .interface
    interfaces := ["App\\marked", "doctrine\\common\\EventSubscriber"] }

/-- Below two classes that are each other's parents stands a third, and two interfaces
extend each other and one that has no record. -/
def looped : Snapshot := { classes := [child, first, second, marked, tagged] }

theorem looped_distinct : Distinct looped.classes := by decide

theorem looped_parents :
    Parent looped.classes "app\\child" "app\\first" ∧
      Parent looped.classes "app\\first" "app\\second" :=
  ⟨⟨child, by simp [looped], "\\app\\First", by decide, rfl, by decide⟩,
    ⟨first, by simp [looped], "App\\second", by decide, rfl, by decide⟩⟩

end Reprieve.Lineage
