import Reprieve.Proofs.JsonScalars

/-! JSON text that was written here and is read again. The outline of the text is that of the
value, and with enough room the value comes back, its keys as texts. -/
namespace Reprieve.Json

/-! ### Values -/

/-- A value without floats and without numbers that are too wide to be whole ones. -/
inductive Plain : Datum → Prop
  | null : Plain .null
  | bool (b : Bool) : Plain (.bool b)
  | int {n : Int} (h : Fits n) : Plain (.int n)
  | text (s : String) : Plain (.text s)
  | list {items : List Datum} (h : ∀ d ∈ items, Plain d) : Plain (.list items)
  | map {entries : List (Datum × Datum)} (h : ∀ e ∈ entries, Plain e.2) : Plain (.map entries)

theorem plain_fields {es : List (String × Datum)} (h : ∀ e ∈ es, Plain e.2) :
    Plain (.fields es) :=
  .map (List.forall_mem_map.2 h)

def keyString : Datum → String
  | .text s => s
  | .int n => toString n
  | _ => ""

theorem keyText_eq (k : Datum) : keyText k = quote (keyString k) := by
  cases k <;> rfl

mutual

def Outline.ofDatum : Datum → Outline
  | .null => .null
  | .bool b => .bool b
  | .int n => .number (.ofNat (n < 0) n.natAbs)
  | .float _ => .null
  | .text s => .text (.ofText s)
  | .list items => .list (ofItems items) none
  | .map entries => .object (ofEntries entries) none

def Outline.ofItems : List Datum → List Outline
  | [] => []
  | d :: r => .ofDatum d :: ofItems r

def Outline.ofEntries : List (Datum × Datum) → List (Option Quoted × Outline)
  | [] => []
  | (k, d) :: r => (some (.ofText (keyString k)), .ofDatum d) :: ofEntries r

end

theorem toList_quote (s : String) (r : List Char) :
    (quote s).toList ++ r = '"' :: (s.toList.flatMap escape ++ '"' :: r) := by
  simp [quote]

theorem read_quote (s : String) (r : List Char) :
    Quoted.read (s.toList.flatMap escape ++ '"' :: r) = (.ofText s, some r) :=
  read_escapes s.toList r

theorem skipSpace_cons {c : Char} (hc : isSpace c = false) (r : List Char) :
    skipSpace (c :: r) = c :: r :=
  List.dropWhile_cons_of_neg (by simp [hc])

theorem isSpace_of_isDigit {c : Char} (hc : c.isDigit = true) : isSpace c = false := by
  simp only [isSpace, Bool.or_eq_false_iff, beq_eq_false_iff_ne]
  refine ⟨⟨⟨?_, ?_⟩, ?_⟩, ?_⟩ <;> (rintro rfl; cases hc)

theorem read_digit (fuel : Nat) {c : Char} (hc : c.isDigit = true) (r : List Char) :
    Outline.read (fuel + 1) (c :: r) = readNumber false (c :: r) := by
  rw [Outline.read, skipSpace_cons (isSpace_of_isDigit hc)]
  split
  all_goals try (rename_i h; obtain ⟨rfl, -⟩ := List.cons.inj h; cases hc)
  · rename_i h
    cases h
  · rename_i h
    obtain ⟨rfl, rfl⟩ := List.cons.inj h
    rw [if_pos ((Text.isDigit_iff _).2 hc)]

theorem read_int (fuel : Nat) (n : Int) {r : List Char} (hr : Ends r) :
    Outline.read (fuel + 1) ((toString n).toList ++ r) = (.ofDatum (.int n), some r) := by
  rw [Text.toList_toString, Outline.ofDatum]
  by_cases hn : n < 0
  · rw [if_pos hn, List.cons_append, Outline.read, skipSpace_cons (by decide)]
    simp only [readNumber_toDigits true n.natAbs hr, hn, decide_true]
  · rw [if_neg hn]
    obtain ⟨c, ds, hds⟩ :=
      List.exists_cons_of_ne_nil (Nat.toDigits_ne_nil (n := n.natAbs) (b := 10))
    have hc : c.isDigit = true :=
      Text.isDigit_of_mem_toDigits (n := n.natAbs) (hds ▸ List.mem_cons_self)
    have hread := readNumber_toDigits false n.natAbs hr
    rw [hds] at hread ⊢
    rw [List.cons_append, read_digit fuel hc]
    simpa [hn] using hread

theorem ends_of_mem {c : Char} (hc : c ∈ [',', ']', '\x7d']) (r : List Char) : Ends (c :: r) := by
  intro d hd
  obtain rfl : c = d := Option.some.inj hd
  simp only [List.mem_cons, List.not_mem_nil, or_false] at hc
  rcases hc with rfl | rfl | rfl <;> decide

theorem head_toString (n : Int) :
    ∃ c ∈ (toString n).toList.head?, isSpace c = false ∧ c ≠ ']' := by
  rw [Text.toList_toString]
  split
  · exact ⟨'-', rfl, by decide, by decide⟩
  · obtain ⟨c, ds, hds⟩ :=
      List.exists_cons_of_ne_nil (Nat.toDigits_ne_nil (n := n.natAbs) (b := 10))
    have hc : c.isDigit = true :=
      Text.isDigit_of_mem_toDigits (n := n.natAbs) (hds ▸ List.mem_cons_self)
    refine ⟨c, by rw [hds]; rfl, isSpace_of_isDigit hc, ?_⟩
    rintro rfl
    cases hc

theorem head_compact {d : Datum} (h : Plain d) :
    ∃ c ∈ (compact d).toList.head?, isSpace c = false ∧ c ≠ ']' := by
  cases h with
  | null => exact ⟨'n', rfl, by decide, by decide⟩
  | bool b => cases b <;> exact ⟨_, rfl, by decide, by decide⟩
  | int h => exact head_toString _
  | text s => exact ⟨'"', by simp [compact, scalarText, quote], by decide, by decide⟩
  | list h => exact ⟨'[', by simp [compact], by decide, by decide⟩
  | map h => exact ⟨'\x7b', by simp [compact], by decide, by decide⟩

/-- A value with its text is read as the value's shape, whatever follows. -/
def Readable (d : Datum) : Prop :=
  ∀ fuel r, (compact d).toList.length < fuel → Ends r →
    Outline.read fuel ((compact d).toList ++ r) = (.ofDatum d, some r)

theorem readItems_compact {ds : List Datum} (hd : ∀ d ∈ ds, Readable d) (hne : ds ≠ [])
    (fuel : Nat) (r : List Char) (hf : (compactItems ds).toList.length + 1 < fuel) :
    readItems fuel ((compactItems ds).toList ++ ']' :: r) = (Outline.ofItems ds, none, some r) := by
  induction ds generalizing fuel with
  | nil => exact absurd rfl hne
  | cons d ds ih =>
    obtain ⟨fuel, rfl⟩ : ∃ n, fuel = n + 1 := ⟨fuel - 1, by omega⟩
    cases ds with
    | nil =>
      rw [compactItems] at hf ⊢
      rw [readItems, hd d List.mem_cons_self fuel _ (by omega) (ends_of_mem (by decide) _)]
      rfl
    | cons e ds =>
      have htext (r : List Char) : (compactItems (d :: e :: ds)).toList ++ r =
          (compact d).toList ++ ',' :: ((compactItems (e :: ds)).toList ++ r) := by
        simp [compactItems]
      have hlen := congrArg List.length (htext [])
      simp only [List.append_nil, List.length_append, List.length_cons] at hlen
      rw [htext, readItems, hd d List.mem_cons_self fuel _ (by omega) (ends_of_mem (by decide) _)]
      simp only [skipSpace_cons (c := ',') (by decide)]
      rw [ih (fun x hx => hd x (List.mem_cons_of_mem d hx)) (List.cons_ne_nil e ds) fuel (by omega)]
      rfl

theorem readMembers_compact {es : List (Datum × Datum)} (he : ∀ e ∈ es, Readable e.2)
    (hne : es ≠ []) (fuel : Nat) (r : List Char)
    (hf : (compactEntries es).toList.length + 1 < fuel) :
    readMembers fuel ((compactEntries es).toList ++ '\x7d' :: r) =
      (Outline.ofEntries es, none, some r) := by
  induction es generalizing fuel with
  | nil => exact absurd rfl hne
  | cons e es ih =>
    obtain ⟨k, d⟩ := e
    obtain ⟨fuel, rfl⟩ : ∃ n, fuel = n + 1 := ⟨fuel - 1, by omega⟩
    have hd : Readable d := he (k, d) List.mem_cons_self
    cases es with
    | nil =>
      have htext (r : List Char) : (compactEntries [(k, d)]).toList ++ r =
          '"' :: ((keyString k).toList.flatMap escape ++
            '"' :: ':' :: ((compact d).toList ++ r)) := by
        simp [compactEntries, keyText_eq, quote]
      have hlen := congrArg List.length (htext [])
      simp only [List.append_nil, List.length_append, List.length_cons] at hlen
      rw [htext, readMembers, skipSpace_cons (by decide)]
      simp only [read_quote, skipSpace_cons (c := ':') (by decide)]
      rw [hd fuel _ (by omega) (ends_of_mem (by decide) _)]
      rfl
    | cons e' es =>
      have htext (r : List Char) : (compactEntries ((k, d) :: e' :: es)).toList ++ r =
          '"' :: ((keyString k).toList.flatMap escape ++ '"' :: ':' ::
            ((compact d).toList ++ ',' :: ((compactEntries (e' :: es)).toList ++ r))) := by
        simp [compactEntries, keyText_eq, quote]
      have hlen := congrArg List.length (htext [])
      simp only [List.append_nil, List.length_append, List.length_cons] at hlen
      rw [htext, readMembers, skipSpace_cons (by decide)]
      simp only [read_quote, skipSpace_cons (c := ':') (by decide)]
      rw [hd fuel _ (by omega) (ends_of_mem (by decide) _)]
      simp only [skipSpace_cons (c := ',') (by decide)]
      rw [ih (fun x hx => he x (List.mem_cons_of_mem _ hx)) (List.cons_ne_nil e' es) fuel
        (by omega)]
      rfl

theorem head_compactItems {d : Datum} (hd : Plain d) (ds : List Datum) :
    ∃ c ∈ (compactItems (d :: ds)).toList.head?, isSpace c = false ∧ c ≠ ']' := by
  obtain ⟨c, hc, hs⟩ := head_compact hd
  refine ⟨c, ?_, hs⟩
  cases ds with
  | nil => exact hc
  | cons e ds =>
    have hne : (compact d).toList ≠ [] := fun hn => by rw [hn] at hc; cases hc
    rw [compactItems, String.toList_append, String.toList_append, List.append_assoc,
      List.head?_append_of_ne_nil _ hne]
    · exact hc
    · exact List.cons_ne_nil e ds

theorem head_compactEntries (e : Datum × Datum) (es : List (Datum × Datum)) :
    (compactEntries (e :: es)).toList.head? = some '"' := by
  cases es <;> simp [compactEntries, keyText_eq, quote]

theorem read_bracket (fuel : Nat) {c : Char} (hs : isSpace c = false) (hc : c ≠ ']')
    (r : List Char) : Outline.read (fuel + 1) ('[' :: c :: r) =
      (.list (readItems fuel (c :: r)).1 (readItems fuel (c :: r)).2.1,
        (readItems fuel (c :: r)).2.2) := by
  rw [Outline.read, skipSpace_cons (by decide)]
  simp only [skipSpace_cons hs]
  split
  · rename_i h
    exact absurd (List.cons.inj h).1 hc
  · rename_i h
    cases h
  · rfl

theorem read_brace (fuel : Nat) (r : List Char) : Outline.read (fuel + 1) ('\x7b' :: '"' :: r) =
    (.object (readMembers fuel ('"' :: r)).1 (readMembers fuel ('"' :: r)).2.1,
      (readMembers fuel ('"' :: r)).2.2) := by
  rw [Outline.read, skipSpace_cons (by decide)]
  rfl

theorem readable_list {items : List Datum} (hp : ∀ d ∈ items, Plain d)
    (h : ∀ d ∈ items, Readable d) : Readable (.list items) := by
  intro fuel r hf _
  obtain ⟨fuel, rfl⟩ : ∃ n, fuel = n + 1 := ⟨fuel - 1, by omega⟩
  cases items with
  | nil => rfl
  | cons d ds =>
    have htext (r : List Char) : (compact (.list (d :: ds))).toList ++ r =
        '[' :: ((compactItems (d :: ds)).toList ++ ']' :: r) := by simp [compact]
    have hlen := congrArg List.length (htext [])
    simp only [List.append_nil, List.length_append, List.length_cons, List.length_nil] at hlen
    have hitems := readItems_compact h (List.cons_ne_nil d ds) fuel r (by omega)
    obtain ⟨c, hc, hspace, hclose⟩ := head_compactItems (hp d List.mem_cons_self) ds
    obtain ⟨t, ht⟩ := List.head?_eq_some_iff.1 hc
    rw [htext]
    rw [ht, List.cons_append] at hitems ⊢
    rw [read_bracket fuel hspace hclose, hitems, Outline.ofDatum]

theorem readable_map {entries : List (Datum × Datum)} (h : ∀ e ∈ entries, Readable e.2) :
    Readable (.map entries) := by
  intro fuel r hf _
  obtain ⟨fuel, rfl⟩ : ∃ n, fuel = n + 1 := ⟨fuel - 1, by omega⟩
  cases entries with
  | nil => rfl
  | cons e es =>
    have htext (r : List Char) : (compact (.map (e :: es))).toList ++ r =
        '\x7b' :: ((compactEntries (e :: es)).toList ++ '\x7d' :: r) := by simp [compact]
    have hlen := congrArg List.length (htext [])
    simp only [List.append_nil, List.length_append, List.length_cons, List.length_nil] at hlen
    have hentries := readMembers_compact h (List.cons_ne_nil e es) fuel r (by omega)
    obtain ⟨t, ht⟩ := List.head?_eq_some_iff.1 (head_compactEntries e es)
    rw [htext]
    rw [ht, List.cons_append] at hentries ⊢
    rw [read_brace, hentries, Outline.ofDatum]

theorem readable {d : Datum} (h : Plain d) : Readable d := by
  induction h with
  | list h ih => exact readable_list h ih
  | map _ ih => exact readable_map ih
  | null =>
    intro fuel r hf _
    obtain ⟨fuel, rfl⟩ : ∃ n, fuel = n + 1 := ⟨fuel - 1, by omega⟩
    rfl
  | bool b =>
    intro fuel r hf _
    obtain ⟨fuel, rfl⟩ : ∃ n, fuel = n + 1 := ⟨fuel - 1, by omega⟩
    cases b <;> rfl
  | int h =>
    intro fuel r hf hr
    obtain ⟨fuel, rfl⟩ : ∃ n, fuel = n + 1 := ⟨fuel - 1, by omega⟩
    exact read_int fuel _ hr
  | text s =>
    intro fuel r hf _
    obtain ⟨fuel, rfl⟩ : ∃ n, fuel = n + 1 := ⟨fuel - 1, by omega⟩
    have htext : (compact (.text s)).toList ++ r =
        '"' :: (s.toList.flatMap escape ++ '"' :: r) := toList_quote s r
    rw [htext, Outline.read, skipSpace_cons (by decide)]
    simp only [read_quote, Outline.ofDatum]

theorem ofText_compact {d : Datum} (h : Plain d) :
    Outline.ofText (compact d).toList = (.ofDatum d, some []) := by
  have hread := readable h (2 * (compact d).toList.length + 2) [] (by omega) nofun
  rwa [List.append_nil] at hread

/-! ### What a reader makes of them -/

mutual

/-- What a text keeps of a value: the keys are texts. -/
def carried : Datum → Datum
  | .list items => .list (carriedItems items)
  | .map entries => .map (carriedEntries entries)
  | d => d

def carriedItems : List Datum → List Datum
  | [] => []
  | d :: r => carried d :: carriedItems r

def carriedEntries : List (Datum × Datum) → List (Datum × Datum)
  | [] => []
  | (k, d) :: r => (.text (keyString k), carried d) :: carriedEntries r

end

theorem carriedItems_eq_map (ds : List Datum) : carriedItems ds = ds.map carried := by
  induction ds with
  | nil => rfl
  | cons d ds ih => rw [carriedItems, ih, List.map_cons]

theorem carriedEntries_eq_map (es : List (Datum × Datum)) :
    carriedEntries es = es.map fun e => (.text (keyString e.1), carried e.2) := by
  induction es with
  | nil => rfl
  | cons e es ih => rw [carriedEntries, ih, List.map_cons]

mutual

def nesting : Datum → Nat
  | .list items => nestingItems items + 1
  | .map entries => nestingEntries entries + 1
  | _ => 0

def nestingItems : List Datum → Nat
  | [] => 0
  | d :: r => max (nesting d) (nestingItems r)

def nestingEntries : List (Datum × Datum) → Nat
  | [] => 0
  | (_, d) :: r => max (nesting d) (nestingEntries r)

end

/-- A reader with so much room reads the shape of a value as what its text keeps. -/
def Kept (d : Datum) : Prop :=
  ∀ room, nesting d ≤ room → (Outline.ofDatum d).datum room = .ok (carried d)

theorem itemData_ofItems {ds : List Datum} (h : ∀ d ∈ ds, Kept d) {room : Nat}
    (hr : nestingItems ds ≤ room) : itemData room (Outline.ofItems ds) = .ok (carriedItems ds) := by
  induction ds with
  | nil => rfl
  | cons d ds ih =>
    rw [nestingItems, Nat.max_le] at hr
    rw [Outline.ofItems, itemData, h d List.mem_cons_self room hr.1,
      ih (fun e he => h e (List.mem_cons_of_mem d he)) hr.2]
    rfl

theorem memberData_ofEntries {es : List (Datum × Datum)} (h : ∀ e ∈ es, Kept e.2) {room : Nat}
    (hr : nestingEntries es ≤ room) :
    memberData room (Outline.ofEntries es) = .ok (carriedEntries es) := by
  induction es with
  | nil => rfl
  | cons e es ih =>
    obtain ⟨k, d⟩ := e
    rw [nestingEntries, Nat.max_le] at hr
    rw [Outline.ofEntries, memberData, value_ofText, h (k, d) List.mem_cons_self room hr.1,
      ih (fun e he => h e (List.mem_cons_of_mem _ he)) hr.2]
    rfl

theorem enter_eq_ok {n room : Nat} (h : n + 1 ≤ room) :
    ∃ inner, enter room = .ok inner ∧ n ≤ inner := by
  cases room with
  | zero => omega
  | succ inner => exact ⟨inner, rfl, by omega⟩

theorem kept {d : Datum} (h : Plain d) : Kept d := by
  induction h with
  | null => exact fun _ _ => rfl
  | bool b => exact fun _ _ => rfl
  | @int n h =>
    intro room _
    rw [Outline.ofDatum, Outline.datum, Numeral.value, value?_ofNat h]
    rfl
  | text s =>
    intro room _
    rw [Outline.ofDatum, Outline.datum, value_ofText]
    rfl
  | list _ ih =>
    intro room hr
    rw [nesting] at hr
    obtain ⟨inner, hin, hr⟩ := enter_eq_ok hr
    rw [Outline.ofDatum, Outline.datum, hin]
    change (do let items ← itemData inner _; _) = _
    rw [itemData_ofItems ih hr]
    rfl
  | map _ ih =>
    intro room hr
    rw [nesting] at hr
    obtain ⟨inner, hin, hr⟩ := enter_eq_ok hr
    rw [Outline.ofDatum, Outline.datum, hin]
    change (do let entries ← memberData inner _; _) = _
    rw [memberData_ofEntries ih hr]
    rfl

theorem read_compact {d : Datum} (h : Plain d) (f : Place → Except Fault α) :
    read f (compact d) = f ⟨room, .ofDatum d⟩ := by
  rw [read, ofText_compact h]
  dsimp only
  cases f ⟨room, .ofDatum d⟩ <;> rfl

/-- Written and read, a value is what it was but for its keys. -/
theorem datumOfText_compact {d : Datum} (h : Plain d) (hn : nesting d ≤ room) :
    datumOfText (compact d) = .ok (carried d) := by
  rw [datumOfText, read_compact h]
  exact kept h room hn

/-! ### Values that nest too deep -/

def Refused (d : Datum) : Prop :=
  ∀ room, room < nesting d → (Outline.ofDatum d).datum room = .error .malformed

theorem itemData_refused {ds : List Datum} (hp : ∀ d ∈ ds, Plain d) (h : ∀ d ∈ ds, Refused d)
    {room : Nat} (hr : room < nestingItems ds) :
    itemData room (Outline.ofItems ds) = .error .malformed := by
  induction ds with
  | nil => cases hr
  | cons d ds ih =>
    rw [Outline.ofItems, itemData]
    by_cases hd : room < nesting d
    · rw [h d List.mem_cons_self room hd]
      rfl
    · have hrest : room < nestingItems ds := by
        rw [nestingItems] at hr
        omega
      rw [kept (hp d List.mem_cons_self) room (Nat.le_of_not_lt hd),
        ih (fun e he => hp e (List.mem_cons_of_mem d he))
          (fun e he => h e (List.mem_cons_of_mem d he)) hrest]
      rfl

theorem memberData_refused {es : List (Datum × Datum)} (hp : ∀ e ∈ es, Plain e.2)
    (h : ∀ e ∈ es, Refused e.2) {room : Nat} (hr : room < nestingEntries es) :
    memberData room (Outline.ofEntries es) = .error .malformed := by
  induction es with
  | nil => cases hr
  | cons e es ih =>
    obtain ⟨k, d⟩ := e
    rw [Outline.ofEntries, memberData, value_ofText]
    by_cases hd : room < nesting d
    · rw [h (k, d) List.mem_cons_self room hd]
      rfl
    · have hrest : room < nestingEntries es := by
        rw [nestingEntries] at hr
        omega
      rw [kept (hp (k, d) List.mem_cons_self) room (Nat.le_of_not_lt hd),
        ih (fun e he => hp e (List.mem_cons_of_mem _ he))
          (fun e he => h e (List.mem_cons_of_mem _ he)) hrest]
      rfl

theorem refused {d : Datum} (h : Plain d) : Refused d := by
  induction h with
  | null => exact nofun
  | bool => exact nofun
  | int => exact nofun
  | text => exact nofun
  | list hp ih =>
    intro room hr
    rw [nesting] at hr
    cases room with
    | zero => rfl
    | succ inner =>
      rw [Outline.ofDatum, Outline.datum]
      change (do let items ← itemData inner _; _) = _
      rw [itemData_refused hp ih (by omega)]
      rfl
  | map hp ih =>
    intro room hr
    rw [nesting] at hr
    cases room with
    | zero => rfl
    | succ inner =>
      rw [Outline.ofDatum, Outline.datum]
      change (do let entries ← memberData inner _; _) = _
      rw [memberData_refused hp ih (by omega)]
      rfl

end Reprieve.Json
