import Mathlib.Data.List.Forall2
import Reprieve.Datum.Document
import Reprieve.Proofs.JsonText
import Reprieve.Yaml.Read

/-! What typed reading owes to its format. In every format a reading returns nothing that its
readers do not return, and a format that shows a value as it is gives it back. -/
open MonadAttach LawfulMonadAttach

/-! ### What can be returned -/

instance Except.instMonadAttach {ε : Type} : MonadAttach (Except ε) where
  CanReturn x a := x = .ok a
  attach
    | .ok a => .ok ⟨a, rfl⟩
    | .error e => .error e

instance Except.instLawfulMonadAttach {ε : Type} : LawfulMonadAttach (Except ε) where
  map_attach {α x} := by cases x <;> rfl
  canReturn_map_imp {α P x a h} := by
    cases x with
    | error e => cases h
    | ok b =>
      cases h
      exact b.2

namespace Reprieve

section Returning
variable {m : Type → Type} [Monad m] [LawfulMonad m] [MonadAttach m] [LawfulMonadAttach m]

theorem mem_of_canReturn_mapM {f : ν → m α} : ∀ {us : List ν} {xs : List α},
    CanReturn (us.mapM f) xs → ∀ x ∈ xs, ∃ u ∈ us, CanReturn (f u) x
  | [], xs, h => by
    rw [List.mapM_nil] at h
    obtain rfl := eq_of_canReturn_pure h
    exact nofun
  | u :: us, xs, h => by
    rw [List.mapM_cons] at h
    obtain ⟨y, hy, h⟩ := canReturn_bind_imp' h
    obtain ⟨ys, hys, h⟩ := canReturn_bind_imp' h
    obtain rfl := eq_of_canReturn_pure h
    refine List.forall_mem_cons.2 ⟨⟨u, List.mem_cons_self, hy⟩, fun x hx => ?_⟩
    obtain ⟨v, hv, hx⟩ := mem_of_canReturn_mapM hys x hx
    exact ⟨v, List.mem_cons_of_mem u hv, hx⟩

end Returning

theorem mem_of_lookup {α : Type} {key : String} {es : List (String × α)} {a : α}
    (h : es.lookup key = some a) : (key, a) ∈ es := by
  obtain ⟨l, r, rfl, _⟩ := List.lookup_eq_some_iff.1 h
  exact List.mem_append_right l List.mem_cons_self

namespace Document
variable {m : Type → Type} {ν : Type}

/-- Lists hold what their reader returns, records are the work of their fields, and a mismatch
returns nothing. -/
structure Sound [MonadAttach m] (d : Document m ν) : Prop where
  list {α : Type} {f : ν → m α} {v : ν} {xs : List α} (h : CanReturn (d.list f v) xs) :
    ∀ x ∈ xs, ∃ u, CanReturn (f u) x
  record {σ : Type} {fields : List (String × (ν → σ → m σ))} {v : ν} {s t : σ}
    (h : CanReturn (d.record fields s v) t) {I : σ → Prop} (hs : I s)
    (hf : ∀ f ∈ fields, ∀ u s t, I s → CanReturn (f.2 u s) t → I t) : I t
  mismatch {α : Type} {a : α} : ¬ CanReturn (d.mismatch : m α) a

theorem Sound.required [Monad m] [LawfulMonad m] [MonadAttach m] [LawfulMonadAttach m]
    {d : Document m ν} (hd : d.Sound) {α : Type} {o : Option α} {a : α}
    (h : CanReturn (d.required o) a) : o = some a := by
  cases o with
  | none => exact absurd h hd.mismatch
  | some b => exact congrArg some (eq_of_canReturn_pure h)

end Document

namespace Json

theorem canReturn_readFields {room : Nat} {σ : Type} {fields : List (Field Place σ)} {I : σ → Prop}
    (hf : ∀ f ∈ fields, ∀ u s t, I s → CanReturn (f.2 u s) t → I t)
    (ms : List (Option Quoted × Outline)) : ∀ {seen : List String} {s t : σ}, I s →
      CanReturn (readFields room fields seen ms s) t → I t := by
  -- Along the members: a key that no field has leaves the state alone.
  induction ms with
  | nil =>
    intro seen s t hs h
    exact eq_of_canReturn_pure (m := Except Fault) h ▸ hs
  | cons e ms ih =>
    intro seen s t hs h
    obtain ⟨q, o⟩ := e
    cases q with
    | none => cases h
    | some q =>
      obtain ⟨key, _, h⟩ := canReturn_bind_imp' h
      cases hl : fields.lookup key with
      | none =>
        simp only [hl] at h
        obtain ⟨_, _, h⟩ := canReturn_bind_imp' h
        exact ih hs h
      | some f =>
        simp only [hl] at h
        split at h
        · cases h
        · obtain ⟨u, hu, h⟩ := canReturn_bind_imp' h
          exact ih (hf (key, f) (mem_of_lookup hl) _ s u hs hu) h

theorem canReturn_readRow {room : Nat} {σ : Type} {I : σ → Prop} (os : List Outline) :
    ∀ {fields : List (Field Place σ)} {stop : Option Break} {s t : σ},
      (∀ f ∈ fields, ∀ u s t, I s → CanReturn (f.2 u s) t → I t) → I s →
      CanReturn (readRow room fields os stop s) t → I t := by
  induction os with
  | nil =>
    intro fields stop s t hf hs h
    have h : CanReturn (do close Break.asRead stop; return s) t := by
      cases fields <;> exact h
    obtain ⟨_, _, h⟩ := canReturn_bind_imp' h
    exact eq_of_canReturn_pure h ▸ hs
  | cons o os ih =>
    intro fields stop s t hf hs h
    cases fields with
    | nil => cases h
    | cons f fields =>
      obtain ⟨u, hu, h⟩ := canReturn_bind_imp' h
      exact ih (fun g hg => hf g (List.mem_cons_of_mem f hg))
        (hf f List.mem_cons_self _ s u hs hu) h

theorem not_canReturn_mistyped {o : Outline} {α : Type} {a : α} :
    ¬ CanReturn (o.mistyped : Except Fault α) a := by
  intro h
  cases o with
  | number n =>
    obtain ⟨_, _, h⟩ := canReturn_bind_imp' h
    cases h
  | text q =>
    obtain ⟨_, _, h⟩ := canReturn_bind_imp' h
    cases h
  | null => cases h
  | bool => cases h
  | list => cases h
  | object => cases h
  | broken => cases h

theorem sound : document.Sound where
  list {α f p xs} h := by
    change CanReturn (readList f p) xs at h
    rw [readList] at h
    split at h
    · obtain ⟨inner, _, h⟩ := canReturn_bind_imp' h
      obtain ⟨ys, hys, h⟩ := canReturn_bind_imp' h
      obtain ⟨_, _, h⟩ := canReturn_bind_imp' h
      obtain rfl := eq_of_canReturn_pure h
      intro x hx
      obtain ⟨o, _, hx⟩ := mem_of_canReturn_mapM hys x hx
      exact ⟨_, hx⟩
    · exact absurd h not_canReturn_mistyped
  record {σ fields p s t} h I hs hf := by
    change CanReturn (readRecord fields s p) t at h
    rw [readRecord] at h
    split at h
    · obtain ⟨inner, _, h⟩ := canReturn_bind_imp' h
      exact canReturn_readRow _ hf hs h
    · obtain ⟨inner, _, h⟩ := canReturn_bind_imp' h
      obtain ⟨u, hu, h⟩ := canReturn_bind_imp' h
      obtain ⟨_, _, h⟩ := canReturn_bind_imp' h
      obtain rfl := eq_of_canReturn_pure h
      exact canReturn_readFields hf _ hs hu
    · exact absurd h not_canReturn_mistyped
  mismatch := nofun

theorem canReturn_read {α : Type} {f : Place → Except Fault α} {text : String} {a : α}
    (h : read f text = .ok a) : ∃ p, CanReturn (f p) a := by
  rw [read] at h
  generalize Outline.ofText text.toList = r at h
  obtain ⟨o, rest⟩ := r
  obtain ⟨b, hb, h⟩ := canReturn_bind_imp' (m := Except Fault) h
  refine ⟨⟨room, o⟩, ?_⟩
  split at h
  · obtain rfl := eq_of_canReturn_pure (m := Except Fault) h
    exact hb
  · cases h

end Json

namespace Yaml
open Place

theorem not_canReturn_failure {α : Type} {a : α} : ¬ CanReturn (failure : Reading α) a :=
  fun ⟨_, _, h⟩ => nomatch h

theorem canReturn_fields {σ : Type} {fs : List (Place.Field σ)} {at_ : Node → Place} {I : σ → Prop}
    (hf : ∀ f ∈ fs, ∀ u s t, I s → CanReturn (f.2 u s) t → I t)
    (es : List (Node × Node)) : ∀ {seen : List String} {s t : σ}, I s →
      CanReturn (fields fs at_ seen es s) t → I t := by
  induction es with
  | nil =>
    intro seen s t hs h
    exact eq_of_canReturn_pure (m := Reading) h ▸ hs
  | cons e es ih =>
    intro seen s t hs h
    obtain ⟨key, _, h⟩ := canReturn_bind_imp' h
    cases hl : fs.lookup key with
    | none =>
      simp only [hl] at h
      exact ih hs h
    | some f =>
      simp only [hl] at h
      split at h
      · exact absurd h not_canReturn_failure
      · obtain ⟨u, hu, h⟩ := canReturn_bind_imp' h
        exact ih (hf (key, f) (mem_of_lookup hl) _ s u hs hu) h

theorem sound : Yaml.document.Sound where
  list {α f p xs} h := by
    obtain ⟨p, _, h⟩ := canReturn_bind_imp' h
    split at h
    · obtain ⟨at_, _, h⟩ := canReturn_bind_imp' h
      intro x hx
      obtain ⟨n, _, hx⟩ := mem_of_canReturn_mapM h x hx
      exact ⟨_, hx⟩
    · split at h
      · obtain rfl := eq_of_canReturn_pure h
        exact nofun
      · exact absurd h not_canReturn_failure
  record {σ fields p s t} h I hs hf := by
    obtain ⟨p, _, h⟩ := canReturn_bind_imp' h
    split at h
    · obtain ⟨at_, _, h⟩ := canReturn_bind_imp' h
      exact canReturn_fields hf _ hs h
    · split at h
      · exact eq_of_canReturn_pure h ▸ hs
      · exact absurd h not_canReturn_failure
  mismatch := not_canReturn_failure

theorem canReturn_read {α : Type} {f : Place → Reading α} {text : String} {a : α}
    (h : read f text = some a) : ∃ p, CanReturn (f p) a := by
  obtain ⟨g, _, h⟩ := Option.bind_eq_some_iff.1 h
  obtain ⟨⟨b, left⟩, hb, h⟩ := Option.bind_eq_some_iff.1 h
  obtain rfl := Option.some.inj h
  exact ⟨_, _, _, hb⟩

end Yaml

/-! ### What is shown comes back -/

namespace Document
section Faithful
variable {m : Type → Type} {ν : Type} [Monad m]

def fill {σ : Type} (fields : List (String × (ν → σ → m σ))) : List (String × ν) → σ → m σ
  | [], s => pure s
  | u :: us, s =>
    match fields.lookup u.1 with
    | none => fill fields us s
    | some f => f u.2 s >>= fill fields us

theorem fresh_cons {α : Type} {e : String × α} {es : List (String × α)} {seen : List String}
    (he : e.1 ∉ es.map Prod.fst) (hseen : ∀ d ∈ e :: es, d.1 ∉ seen) :
    ∀ d ∈ es, d.1 ∉ e.1 :: seen := by
  intro d hd hmem
  cases List.mem_cons.1 hmem with
  | inl heq => exact he (heq ▸ List.mem_map_of_mem hd)
  | inr hmem => exact hseen d (List.mem_cons_of_mem e hd) hmem

/-- A format that gives back what it shows, of the types that a document asks for. -/
structure Faithful (d : Document m ν) (Shows : ν → Datum → Prop) : Prop where
  text {v : ν} {s : String} (h : Shows v (.text s)) : d.text v = pure s
  flag {v : ν} {b : Bool} (h : Shows v (.bool b)) : d.flag v = pure b
  absent {v : ν} (h : Shows v .null) {α : Type} (f : ν → m α) : d.optional f v = pure none
  present {v : ν} {x : Datum} (h : Shows v x) (hx : x ≠ .null) {α : Type} (f : ν → m α) :
    d.optional f v = some <$> f v
  list {v : ν} {xs : List Datum} (h : Shows v (.list xs)) {α : Type} (f : ν → m α) :
    ∃ us, List.Forall₂ Shows us xs ∧ d.list f v = us.mapM f
  word {v : ν} {s : String} (h : Shows v (.text s)) {words : List String} (hs : s ∈ words) :
    d.word words v = pure s
  record (keys : List String) {v : ν} {es : List (String × Datum)} (h : Shows v (.fields es))
    (hk : es.map Prod.fst = keys) (hn : keys.Nodup) :
    ∃ us, List.Forall₂ Shows us (es.map Prod.snd) ∧
      ∀ {σ : Type} {fields : List (String × (ν → σ → m σ))} (s : σ),
        (∀ key ∈ keys, (fields.lookup key).isSome) →
        d.record fields s v = fill fields (keys.zip us) s
  datum {v : ν} {x : Datum} (h : Shows v x) : d.datum v = pure (Json.carried x)

variable [LawfulMonad m] {d : Document m ν} {Shows : ν → Datum → Prop}

theorem mapM_shown {α : Type} {g : α → Datum} {f : ν → m α} {xs : List α} {us : List ν}
    (h : List.Forall₂ Shows us (xs.map g)) (hf : ∀ x ∈ xs, ∀ u, Shows u (g x) → f u = pure x) :
    us.mapM f = pure xs := by
  induction xs generalizing us with
  | nil =>
    cases h
    rfl
  | cons x xs ih =>
    cases h with
    | cons hu h =>
      rw [List.mapM_cons, hf x List.mem_cons_self _ hu,
        ih h fun y hy => hf y (List.mem_cons_of_mem x hy), pure_bind, pure_bind]

theorem Faithful.items (hd : d.Faithful Shows) {α : Type} {g : α → Datum} {f : ν → m α} {v : ν}
    {xs : List α} (h : Shows v (.list (xs.map g)))
    (hf : ∀ x ∈ xs, ∀ u, Shows u (g x) → f u = pure x) : d.list f v = pure xs := by
  obtain ⟨us, hus, hlist⟩ := hd.list h f
  rw [hlist, mapM_shown hus hf]

theorem Faithful.maybe (hd : d.Faithful Shows) {α : Type} {g : α → Datum} {f : ν → m α} {v : ν}
    {o : Option α} (h : Shows v (.optional g o)) (hg : ∀ a, g a ≠ .null)
    (hf : ∀ a, Shows v (g a) → f v = pure a) : d.optional f v = pure o := by
  cases o with
  | none => exact hd.absent h f
  | some a => rw [hd.present h (hg a), hf a h, map_pure]

end Faithful
end Document

namespace Datum

theorem carried_fields (es : List (String × Datum)) : Json.carried (.fields es) =
    .map (es.map fun e => (.text e.1, Json.carried e.2)) := by
  rw [fields, Json.carried, Json.carriedEntries_eq_map, List.map_map]
  rfl

theorem readFields_eq_fill {σ : Type} {fields : List (Field σ)} (es : List (String × Datum))
    (hf : ∀ key ∈ es.map Prod.fst, (fields.lookup key).isSome) (hn : (es.map Prod.fst).Nodup) :
    ∀ {seen : List String} (s : σ), (∀ e ∈ es, e.1 ∉ seen) →
      readFields fields seen (es.map fun e => (.text e.1, Json.carried e.2)) s =
        Document.fill fields (es.map fun e => (e.1, Json.carried e.2)) s := by
  -- The keys seen so far are none of those to come, so no field is refused.
  induction es with
  | nil => exact fun _ _ => rfl
  | cons e es ih =>
    intro seen s hseen
    rw [List.map_cons, List.nodup_cons] at hn
    rw [List.map_cons, List.forall_mem_cons] at hf
    obtain ⟨f, hl⟩ := Option.isSome_iff_exists.1 hf.1
    have hfresh : seen.contains e.1 = false := by simpa using hseen e List.mem_cons_self
    rw [List.map_cons, List.map_cons, readFields, Document.fill]
    simp only [hl, hfresh]
    exact bind_congr fun t => ih hf.2 hn.2 t (Document.fresh_cons hn.1 hseen)

/-- A value shows what a text would keep. -/
def Shows (v x : Datum) : Prop := v = Json.carried x

theorem faithful : document.Faithful Shows where
  text := by rintro _ s rfl; rfl
  flag := by rintro _ b rfl; rfl
  absent := by rintro _ rfl α f; rfl
  present := by
    rintro _ x rfl hx α f
    cases x with
    | null => exact absurd rfl hx
    | bool => rfl
    | int => rfl
    | float => rfl
    | text => rfl
    | list => rfl
    | map => rfl
  list := by
    rintro _ xs rfl α f
    refine ⟨Json.carriedItems xs, ?_, rfl⟩
    rw [Json.carriedItems_eq_map]
    exact List.forall₂_map_left_iff.2 (List.forall₂_same.2 fun x _ => rfl)
  word := by
    rintro _ s rfl words hs
    exact if_pos (List.contains_iff_mem.2 hs)
  record := by
    rintro _ _ es rfl rfl hn
    refine ⟨es.map fun e => Json.carried e.2, ?_, fun {σ fields} s hf => ?_⟩
    · exact List.forall₂_map_left_iff.2 (List.forall₂_map_right_iff.2
        (List.forall₂_same.2 fun e _ => rfl))
    · rw [carried_fields, List.zip_map']
      exact readFields_eq_fill es hf hn s nofun
  datum := by rintro _ x rfl; rfl

end Datum

namespace Json

theorem readFields_eq_fill {room : Nat} {σ : Type} {fields : List (Field Place σ)}
    (es : List (String × Datum)) (hf : ∀ key ∈ es.map Prod.fst, (fields.lookup key).isSome)
    (hn : (es.map Prod.fst).Nodup) : ∀ {seen : List String} (s : σ), (∀ e ∈ es, e.1 ∉ seen) →
      readFields room fields seen (Outline.ofEntries (es.map fun e => (.text e.1, e.2))) s =
        Document.fill fields (es.map fun e => (e.1, ⟨room, .ofDatum e.2⟩)) s := by
  induction es with
  | nil => exact fun _ _ => rfl
  | cons e es ih =>
    intro seen s hseen
    rw [List.map_cons, List.nodup_cons] at hn
    rw [List.map_cons, List.forall_mem_cons] at hf
    obtain ⟨f, hl⟩ := Option.isSome_iff_exists.1 hf.1
    have hfresh : seen.contains e.1 = false := by simpa using hseen e List.mem_cons_self
    have hkey : (Quoted.ofText e.1).value = pure e.1 := value_ofText e.1
    rw [List.map_cons, List.map_cons, Outline.ofEntries, readFields, Document.fill, keyString,
      hkey, pure_bind]
    simp only [hl, hfresh]
    exact bind_congr fun t => ih hf.2 hn.2 t (Document.fresh_cons hn.1 hseen)

/-- A place whose outline is that of a value, with enough room. -/
structure Shows (p : Place) (x : Datum) : Prop where
  outline : p.outline = .ofDatum x
  plain : Plain x
  fits : nesting x ≤ p.room

theorem nesting_le_of_mem {d : Datum} {ds : List Datum} (h : d ∈ ds) :
    nesting d ≤ nestingItems ds := by
  induction ds with
  | nil => cases h
  | cons e ds ih =>
    rw [nestingItems]
    cases List.mem_cons.1 h with
    | inl he => exact he ▸ Nat.le_max_left _ _
    | inr h => exact Nat.le_trans (ih h) (Nat.le_max_right _ _)

theorem nesting_le_of_mem_fields {e : String × Datum} {es : List (String × Datum)} (h : e ∈ es) :
    nesting e.2 ≤ nestingEntries (es.map fun e => (.text e.1, e.2)) := by
  induction es with
  | nil => cases h
  | cons d es ih =>
    rw [List.map_cons, nestingEntries]
    cases List.mem_cons.1 h with
    | inl he => exact he ▸ Nat.le_max_left _ _
    | inr h => exact Nat.le_trans (ih h) (Nat.le_max_right _ _)

theorem ofItems_eq_map (ds : List Datum) : Outline.ofItems ds = ds.map .ofDatum := by
  induction ds with
  | nil => rfl
  | cons d ds ih => rw [Outline.ofItems, ih, List.map_cons]

theorem readList_ofDatum {room inner : Nat} (hin : enter room = pure inner) {α : Type}
    (f : Place → Except Fault α) (xs : List Datum) :
    readList f ⟨room, .ofDatum (.list xs)⟩ =
      (xs.map fun x => ⟨inner, .ofDatum x⟩).mapM f := by
  rw [Outline.ofDatum, ofItems_eq_map, readList]
  dsimp only
  have hclose (ys : List α) : (do close Break.asRead none; pure ys) = (pure ys : Except Fault _) :=
    rfl
  simp only [hin, pure_bind, hclose, bind_pure, List.mapM_map, Function.comp_def]

theorem readRecord_ofDatum {room inner : Nat} (hin : enter room = pure inner) {σ : Type}
    {fields : List (Field Place σ)} {es : List (String × Datum)} (hn : (es.map Prod.fst).Nodup)
    (hf : ∀ key ∈ es.map Prod.fst, (fields.lookup key).isSome) (s : σ) :
    readRecord fields s ⟨room, .ofDatum (.fields es)⟩ =
      Document.fill fields (es.map fun e => (e.1, ⟨inner, .ofDatum e.2⟩)) s := by
  rw [Datum.fields, Outline.ofDatum, readRecord]
  dsimp only
  have hclose (t : σ) : (do close Break.asRead none; pure t) = (pure t : Except Fault _) := rfl
  simp only [hin, pure_bind, hclose, bind_pure]
  exact readFields_eq_fill es hf hn s fun _ _ => List.not_mem_nil

theorem faithful : document.Faithful Shows where
  text := by
    rintro ⟨room, _⟩ s ⟨rfl, _, _⟩
    exact value_ofText s
  flag := by
    rintro ⟨room, _⟩ b ⟨rfl, _, _⟩
    rfl
  absent := by
    rintro ⟨room, _⟩ ⟨rfl, _, _⟩ α f
    rfl
  present := by
    rintro ⟨room, _⟩ x ⟨rfl, hp, _⟩ hx α f
    cases hp with
    | null => exact absurd rfl hx
    | bool => rfl
    | int => rfl
    | text => rfl
    | list => rfl
    | map => rfl
  list := by
    rintro ⟨room, _⟩ xs ⟨rfl, hp, hn⟩ α f
    obtain ⟨inner, hin, hfits⟩ := enter_eq_ok hn
    refine ⟨xs.map fun x => ⟨inner, .ofDatum x⟩, ?_, ?_⟩
    · refine List.forall₂_map_left_iff.2 (List.forall₂_same.2 fun x hx => ⟨rfl, ?_, ?_⟩)
      · cases hp with
        | list hp => exact hp x hx
      · exact Nat.le_trans (nesting_le_of_mem hx) hfits
    · exact readList_ofDatum hin f xs
  word := by
    rintro ⟨room, _⟩ s ⟨rfl, _, _⟩ words hs
    have htext : (Quoted.ofText s).value = pure s := value_ofText s
    change (do
      let s ← (Quoted.ofText s).value
      if words.contains s then return s else throw Fault.mistyped) = _
    rw [htext, pure_bind, if_pos (List.contains_iff_mem.2 hs)]
  record := by
    rintro _ ⟨room, _⟩ es ⟨rfl, hp, hn⟩ rfl hnd
    obtain ⟨inner, hin, hfits⟩ := enter_eq_ok hn
    refine ⟨es.map fun e => ⟨inner, .ofDatum e.2⟩, ?_, fun {σ fields} s hf => ?_⟩
    · refine List.forall₂_map_left_iff.2 (List.forall₂_map_right_iff.2
        (List.forall₂_same.2 fun e he => ⟨rfl, ?_, ?_⟩))
      · cases hp with
        | map hp => exact List.forall_mem_map.1 hp e he
      · exact Nat.le_trans (nesting_le_of_mem_fields he) hfits
    · rw [List.zip_map']
      exact readRecord_ofDatum hin hnd hf s
  datum := by
    rintro ⟨room, _⟩ x ⟨rfl, hp, hn⟩
    exact kept hp room hn

end Json
end Reprieve
