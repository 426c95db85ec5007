import Reprieve.Packages
import Reprieve.Proofs.Outcomes
import Reprieve.Proofs.SortedMaps
import Reprieve.Proofs.Spelling

/-! Entries of installed packages. An object is one if it has one name and at most one map of what
it replaces and of what it provides, and then it stands for its name and for the keys of these
maps. Nothing else that an object has matters. -/
namespace Reprieve.Packages

/-! ### Names -/

def SameLetters (s t : String) : Prop :=
  List.Forall₂ (fun a b : Char => a.toLower = b.toLower) s.toList t.toList

theorem folded_eq_iff (s t : String) : s.folded = t.folded ↔ SameLetters s t := by
  rw [SameLetters, ← ClassName.fold_eq_iff_forall₂]
  exact ⟨fun h => by simpa [String.folded] using congrArg String.toList h, congrArg String.ofList⟩

theorem isInstalled_ofNames_iff (ns : List String) (q : String) :
    (ofNames ns).isInstalled q = true ↔ ∃ n ∈ ns, SameLetters n q := by
  simp only [isInstalled, ofNames, SortedMap.isSome_get?_ofList, List.map_map, List.mem_map,
    Function.comp_apply, folded_eq_iff]

/-! ### Objects -/

def given (key : String) : List (String × Datum) → List Datum
  | [] => []
  | (k, d) :: fs => if k = key then d :: given key fs else given key fs

theorem mem_given_iff {key : String} {fs : List (String × Datum)} {d : Datum} :
    d ∈ given key fs ↔ (key, d) ∈ fs := by
  induction fs with
  | nil => simp [given]
  | cons f fs ih =>
    obtain ⟨k, v⟩ := f
    by_cases hk : k = key
    · simp [given, hk, ih]
    · simp [given, hk, ih, Ne.symm hk]

/-- A value of a field is read where the field is given for the first time, and stays where it is
not given. -/
def Taken {α : Type} (read : Datum → Option α) (key : String) (seen : List String)
    (fs : List (String × Datum)) (old new : α) : Prop :=
  given key fs = [] ∧ new = old ∨ ∃ d, given key fs = [d] ∧ key ∉ seen ∧ read d = some new

section Taken
variable {α : Type} {read : Datum → Option α} {key k : String} {seen : List String}
  {fs : List (String × Datum)} {d : Datum} {old new : α}

theorem taken_cons_self : Taken read key seen ((key, d) :: fs) old new ↔
    key ∉ seen ∧ ∃ a, read d = some a ∧ Taken read key (key :: seen) fs a new := by
  simp only [Taken, given, if_true, List.cons.injEq, reduceCtorEq, false_and, false_or,
    List.mem_cons, true_or, not_true]
  constructor
  · rintro ⟨_, ⟨rfl, hfs⟩, hseen, hread⟩
    exact ⟨hseen, new, hread, .inl ⟨hfs, rfl⟩⟩
  · rintro ⟨hseen, a, hread, ⟨hfs, rfl⟩ | ⟨_, _, hno, _⟩⟩
    · exact ⟨d, ⟨rfl, hfs⟩, hseen, hread⟩

theorem taken_cons_of_ne (h : k ≠ key) :
    Taken read key seen ((k, d) :: fs) old new ↔ Taken read key seen fs old new := by
  simp only [Taken, given, if_neg h]

theorem taken_seen_cons (h : k ≠ key) :
    Taken read key (k :: seen) fs old new ↔ Taken read key seen fs old new := by
  simp only [Taken, List.mem_cons, Ne.symm h, false_or]

end Taken

/-! ### Entries -/

/-- The names that a field of an object maps, and none where the field is absent. -/
inductive Maps (key : String) (fs : List (String × Datum)) : List String → Prop
  | absent (h : given key fs = []) : Maps key fs []
  | given {m : List (String × Datum)} (h : given key fs = [.fields m]) :
    Maps key fs (m.map Prod.fst)

/-- An object with one name, and with one map at most for what it replaces and for what it
provides. -/
structure Entry.Of (fs : List (String × Datum)) (e : Entry) : Prop where
  name : given "name" fs = [.text e.name]
  replaced : Maps "replace" fs e.replaced
  provided : Maps "provide" fs e.provided

theorem keys?_eq_some_iff (d : Datum) (ks : List String) :
    keys? d = some ks ↔ ∃ m : List (String × Datum), d = .fields m ∧ m.map Prod.fst = ks := by
  cases d with
  | map entries =>
    simp only [keys?, mapM_eq_some_iff_forall₂, Datum.fields, Datum.map.injEq]
    constructor
    · intro h
      induction h with
      | nil => exact ⟨[], rfl, rfl⟩
      | @cons e k entries ks he _ ih =>
        obtain ⟨m, rfl, rfl⟩ := ih
        obtain ⟨key, d⟩ := e
        cases key with
        | text s =>
          obtain rfl := Option.some.inj he
          exact ⟨(s, d) :: m, rfl, rfl⟩
        | _ => cases he
    · rintro ⟨m, rfl, rfl⟩
      rw [List.forall₂_map_left_iff, List.forall₂_map_right_iff]
      exact List.forall₂_same.2 fun _ _ => rfl
  | _ => simp [keys?, Datum.fields]

def Entry.readers : List (Datum.Field Entry.Draft) :=
  [("name", fun v e => return { e with name := some (← Datum.document.text v) }),
   ("replace", fun v e => return { e with replaced := ← keys? v }),
   ("provide", fun v e => return { e with provided := ← keys? v })]

theorem Entry.ofDatum?_eq (v : Datum) : Entry.ofDatum? v = do
    let e ← Datum.readRecord Entry.readers {} v
    return ⟨← e.name, e.replaced, e.provided⟩ := rfl

theorem readFields_cons_of_lookup {σ : Type} {fields : List (Datum.Field σ)} {key : String}
    {f : Datum → σ → Option σ} (h : fields.lookup key = some f) (seen : List String) (d : Datum)
    (r : List (Datum × Datum)) (s t : σ) :
    Datum.readFields fields seen ((.text key, d) :: r) s = some t ↔
      key ∉ seen ∧ ∃ u, f d s = some u ∧ Datum.readFields fields (key :: seen) r u = some t := by
  rw [Datum.readFields, h]
  by_cases hk : key ∈ seen
  · simp [hk]
  · simp [hk, Option.bind_eq_some_iff]

theorem readFields_cons_of_lookup_eq_none {σ : Type} {fields : List (Datum.Field σ)}
    {key : String} (h : fields.lookup key = none) (seen : List String) (d : Datum)
    (r : List (Datum × Datum)) (s : σ) : Datum.readFields fields seen ((.text key, d) :: r) s =
      Datum.readFields fields seen r s := by
  rw [Datum.readFields, h]

theorem readFields_readers_iff (fs : List (String × Datum)) :
    ∀ (seen : List String) (s t : Entry.Draft),
      Datum.readFields Entry.readers seen (fs.map fun f => (.text f.1, f.2)) s = some t ↔
        Taken (fun d => some <$> Datum.document.text d) "name" seen fs s.name t.name ∧
        Taken keys? "replace" seen fs s.replaced t.replaced ∧
        Taken keys? "provide" seen fs s.provided t.provided := by
  -- The keys seen so far go into the induction; one more of them matters to its own field alone.
  induction fs with
  | nil =>
    intro seen s t
    obtain ⟨a, b, c⟩ := s
    obtain ⟨a', b', c'⟩ := t
    simp [Datum.readFields, Taken, given, eq_comm]
  | cons f fs ih =>
    intro seen s t
    obtain ⟨key, d⟩ := f
    rw [List.map_cons]
    by_cases hname : key = "name"
    · subst hname
      rw [readFields_cons_of_lookup rfl, taken_cons_self, taken_cons_of_ne (by decide),
        taken_cons_of_ne (by decide)]
      simp only [ih, taken_seen_cons (show "name" ≠ "replace" by decide),
        taken_seen_cons (show "name" ≠ "provide" by decide)]
      cases Datum.document.text d <;> simp [and_assoc]
    by_cases hreplace : key = "replace"
    · subst hreplace
      rw [readFields_cons_of_lookup rfl, taken_cons_of_ne (by decide), taken_cons_self,
        taken_cons_of_ne (by decide)]
      simp only [ih, taken_seen_cons (show "replace" ≠ "name" by decide),
        taken_seen_cons (show "replace" ≠ "provide" by decide)]
      cases keys? d <;> simp [and_left_comm, and_assoc]
    by_cases hprovide : key = "provide"
    · subst hprovide
      rw [readFields_cons_of_lookup rfl, taken_cons_of_ne (by decide),
        taken_cons_of_ne (by decide), taken_cons_self]
      simp only [ih, taken_seen_cons (show "provide" ≠ "name" by decide),
        taken_seen_cons (show "provide" ≠ "replace" by decide)]
      cases keys? d <;> simp [and_left_comm]
    have hlookup : Entry.readers.lookup key = none := by
      simp [Entry.readers, List.lookup_cons, beq_eq_false_iff_ne.2 hname,
        beq_eq_false_iff_ne.2 hreplace, beq_eq_false_iff_ne.2 hprovide]
    rw [readFields_cons_of_lookup_eq_none hlookup, ih, taken_cons_of_ne hname,
      taken_cons_of_ne hreplace, taken_cons_of_ne hprovide]

theorem taken_name_iff (fs : List (String × Datum)) (n : String) :
    Taken (fun d => some <$> Datum.document.text d) "name" [] fs none (some n) ↔
      given "name" fs = [.text n] := by
  have htext (d : Datum) : Datum.document.text d = some n ↔ d = .text n := by
    cases d <;> simp [Datum.document]
  simp [Taken, htext]

theorem taken_keys_iff (key : String) (fs : List (String × Datum)) (ns : List String) :
    Taken keys? key [] fs [] ns ↔ Maps key fs ns := by
  simp only [Taken, keys?_eq_some_iff]
  constructor
  · rintro (⟨h, rfl⟩ | ⟨_, h, -, m, rfl, rfl⟩)
    · exact .absent h
    · exact .given h
  · intro h
    cases h with
    | absent h => exact .inl ⟨h, rfl⟩
    | given h => exact .inr ⟨_, h, List.not_mem_nil, _, rfl, rfl⟩

theorem Entry.ofDatum?_fields_iff (fs : List (String × Datum)) (e : Entry) :
    Entry.ofDatum? (.fields fs) = some e ↔ Entry.Of fs e := by
  have hread (t : Entry.Draft) : Datum.readRecord Entry.readers {} (.fields fs) = some t ↔ _ :=
    readFields_readers_iff fs [] {} t
  simp only [Entry.ofDatum?_eq, Option.bind_eq_bind, Option.bind_eq_some_iff, hread,
    Option.pure_def, Option.some.injEq]
  constructor
  · rintro ⟨t, ⟨hname, hreplaced, hprovided⟩, n, hn, rfl⟩
    rw [hn] at hname
    exact ⟨(taken_name_iff fs n).1 hname, (taken_keys_iff _ fs _).1 hreplaced,
      (taken_keys_iff _ fs _).1 hprovided⟩
  · intro h
    exact ⟨⟨some e.name, e.replaced, e.provided⟩, ⟨(taken_name_iff fs e.name).2 h.name,
      (taken_keys_iff _ fs _).2 h.replaced, (taken_keys_iff _ fs _).2 h.provided⟩, e.name, rfl, rfl⟩

/-! ### Names of an entry -/

/-- The names that an object has as an entry: its own and the keys of two of its maps. -/
inductive Names (fs : List (String × Datum)) (n : String) : Prop
  | own (h : ("name", .text n) ∈ fs)
  | mapped {field : String} (hf : field = "replace" ∨ field = "provide")
    {m : List (String × Datum)} (h : (field, .fields m) ∈ fs) (hn : n ∈ m.map Prod.fst)

theorem fields_injective : Function.Injective Datum.fields := by
  intro m m' h
  have hpair : Function.Injective fun f : String × Datum => (Datum.text f.1, f.2) := by
    rintro ⟨k, d⟩ ⟨k', d'⟩ he
    simpa using he
  exact hpair.list_map (Datum.map.inj h)

theorem Maps.mem_iff {key : String} {fs : List (String × Datum)} {ns : List String}
    (h : Maps key fs ns) (n : String) :
    n ∈ ns ↔ ∃ m, (key, .fields m) ∈ fs ∧ n ∈ m.map Prod.fst := by
  simp only [← mem_given_iff]
  cases h with
  | absent h => simp [h]
  | @given m h =>
    simp only [h, List.mem_singleton]
    constructor
    · exact fun hn => ⟨m, rfl, hn⟩
    · rintro ⟨m', he, hn⟩
      exact fields_injective he ▸ hn

theorem Entry.Of.mem_names_iff {fs : List (String × Datum)} {e : Entry} (h : Entry.Of fs e)
    (n : String) : n ∈ e.names ↔ Names fs n := by
  have hown : ("name", .text n) ∈ fs ↔ n = e.name := by
    rw [← mem_given_iff, h.name, List.mem_singleton, Datum.text.injEq]
  rw [Entry.names, List.mem_cons, List.mem_append, h.replaced.mem_iff, h.provided.mem_iff, ← hown]
  constructor
  · rintro (hn | ⟨m, hm, hn⟩ | ⟨m, hm, hn⟩)
    · exact .own hn
    · exact .mapped (.inl rfl) hm hn
    · exact .mapped (.inr rfl) hm hn
  · intro hn
    cases hn with
    | own hn => exact .inl hn
    | mapped hf hm hn =>
      rcases hf with rfl | rfl
      · exact .inr (.inl ⟨_, hm, hn⟩)
      · exact .inr (.inr ⟨_, hm, hn⟩)

end Reprieve.Packages
