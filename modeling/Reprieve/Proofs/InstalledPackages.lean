import Mathlib.Logic.Relation
import Reprieve.Doctrine
import Reprieve.Proofs.JsonText
import Reprieve.Proofs.PackageEntries

/-! What the list of installed packages says. Every entry counts for the names it stands for, in
either layout of the document, and a longer list counts for no name less. What the settings leave
open is decided by that list alone. -/
namespace Reprieve
namespace Packages

/-! ### Layouts -/

def flat (es : List (List (String × Datum))) : Datum := .list (es.map Datum.fields)

/-- A text that lists entries: as its items, or under one of its keys beside others. -/
inductive Lists (text : String) (es : List (List (String × Datum))) : Prop
  | flat (h : Json.datumOfText text = .ok (flat es))
  | wrapped {fs : List (String × Datum)} (h : Json.datumOfText text = .ok (.fields fs))
    (hp : given "packages" fs = [Packages.flat es])

/-- A value that comes back whole from the text that is written of it: its keys are texts, and it
nests no deeper than is read. -/
structure Intact (d : Datum) : Prop where
  plain : Json.Plain d
  keys : Json.carried d = d
  fits : Json.nesting d ≤ Json.room

theorem Intact.datumOfText {d : Datum} (h : Intact d) :
    Json.datumOfText (Json.compact d) = .ok d := by
  rw [Json.datumOfText_compact h.plain h.fits, h.keys]

def wrapper : List (Datum.Field (Option (List Entry))) :=
  [("packages", fun v _ => return some (← entries? v))]

theorem readFields_wrapper_iff (fs : List (String × Datum)) :
    ∀ (seen : List String) (s t : Option (List Entry)),
      Datum.readFields wrapper seen (fs.map fun f => (.text f.1, f.2)) s = some t ↔
        Taken (fun d => some <$> entries? d) "packages" seen fs s t := by
  induction fs with
  | nil => simp [Datum.readFields, Taken, given, eq_comm]
  | cons f fs ih =>
    intro seen s t
    obtain ⟨key, d⟩ := f
    rw [List.map_cons]
    by_cases hkey : key = "packages"
    · subst hkey
      rw [readFields_cons_of_lookup rfl, taken_cons_self]
      simp only [ih]
      cases entries? d <;> simp
    · have hlookup : wrapper.lookup key = none := by
        simp [wrapper, List.lookup_cons, beq_eq_false_iff_ne.2 hkey]
      rw [readFields_cons_of_lookup_eq_none hlookup, ih, taken_cons_of_ne hkey]

theorem installed?_fields {fs : List (String × Datum)} {d : Datum}
    (h : given "packages" fs = [d]) : installed? (.fields fs) = entries? d := by
  have hread (t : Option (List Entry)) : Datum.readRecord wrapper none (.fields fs) = some t ↔ _ :=
    readFields_wrapper_iff fs [] none t
  have hjoin : installed? (.fields fs) = (Datum.readRecord wrapper none (.fields fs)).join := rfl
  ext xs
  rw [hjoin, Option.join_eq_some_iff, hread, Taken, h]
  simp

theorem ofJson_of_datumOfText {text : String} {d : Datum} (h : Json.datumOfText text = .ok d) :
    ofJson text = (ofDatum? d).elim (.error .mistyped) .ok := by
  rw [Json.datumOfText, Json.read] at h
  rw [ofJson, Json.read]
  generalize Json.Outline.ofText text.toList = r at h ⊢
  obtain ⟨o, rest⟩ := r
  obtain ⟨d', hd, h⟩ := Except.bind_eq_ok_iff.1 h
  split at h
  · rename_i hrest
    obtain rfl := Except.ok.inj h
    have hbind (f : Datum → Except Json.Fault Packages) : Except.ok d' >>= f = f d' := rfl
    dsimp only
    rw [hd, hbind]
    cases ofDatum? d' with
    | none => rfl
    | some p => exact if_pos hrest
  · cases h

theorem Lists.ofJson_eq {text : String} {es : List (List (String × Datum))} (h : Lists text es) :
    ofJson text = ((es.map Datum.fields).mapM Entry.ofDatum?).elim (.error .mistyped)
      fun xs => .ok (ofEntries xs) := by
  have hd : ∃ d, Json.datumOfText text = .ok d ∧
      installed? d = (es.map Datum.fields).mapM Entry.ofDatum? := by
    cases h with
    | flat h => exact ⟨_, h, rfl⟩
    | wrapped h hp => exact ⟨_, h, installed?_fields hp⟩
  obtain ⟨d, hd, hinstalled⟩ := hd
  rw [ofJson_of_datumOfText hd, ofDatum?, hinstalled]
  cases (es.map Datum.fields).mapM Entry.ofDatum? <;> rfl

theorem Lists.ofJson_eq_ok_iff {text : String} {es : List (List (String × Datum))}
    (h : Lists text es) (p : Packages) :
    ofJson text = .ok p ↔ ∃ xs, List.Forall₂ Entry.Of es xs ∧ p = ofEntries xs := by
  have hentries (xs : List Entry) : (es.map Datum.fields).mapM Entry.ofDatum? = some xs ↔
      List.Forall₂ Entry.Of es xs := by
    simp only [mapM_eq_some_iff_forall₂, List.forall₂_map_left_iff, Entry.ofDatum?_fields_iff]
  rw [h.ofJson_eq]
  simp only [← hentries]
  cases (es.map Datum.fields).mapM Entry.ofDatum? with
  | none => simp
  | some xs => simp [eq_comm]

theorem Lists.exists_ofJson_iff {text : String} {es : List (List (String × Datum))}
    (h : Lists text es) : (∃ p, ofJson text = .ok p) ↔ ∀ fs ∈ es, ∃ e, Entry.Of fs e := by
  rw [← exists_forall₂_iff]
  simp only [h.ofJson_eq_ok_iff]
  exact ⟨fun ⟨_, xs, hxs, _⟩ => ⟨xs, hxs⟩, fun ⟨xs, hxs⟩ => ⟨_, xs, hxs, rfl⟩⟩

theorem isInstalled_ofEntries_iff {es : List (List (String × Datum))} {xs : List Entry}
    (h : List.Forall₂ Entry.Of es xs) (q : String) :
    (ofEntries xs).isInstalled q = true ↔ ∃ fs ∈ es, ∃ n, Names fs n ∧ SameLetters n q := by
  rw [ofEntries, isInstalled_ofNames_iff]
  induction h with
  | nil => simp
  | @cons fs e es xs he _ ih =>
    simp only [List.flatMap_cons, List.mem_append, or_and_right, exists_or, ih,
      List.exists_mem_cons_iff, he.mem_names_iff]

/-! ### Longer lists -/

/-- One entry more, one map more of what an entry replaces or provides, or one name more in such
a map. -/
inductive Enlarged : List (List (String × Datum)) → List (List (String × Datum)) → Prop
  | entry (l r : List (List (String × Datum))) (fs : List (String × Datum)) :
    Enlarged (l ++ r) (l ++ fs :: r)
  | field (l r : List (List (String × Datum))) (a b : List (String × Datum)) {field : String}
    (hf : field = "replace" ∨ field = "provide") (m : List (String × Datum)) :
    Enlarged (l ++ (a ++ b) :: r) (l ++ (a ++ (field, .fields m) :: b) :: r)
  | key (l r : List (List (String × Datum))) (a b : List (String × Datum)) {field : String}
    (hf : field = "replace" ∨ field = "provide") (m n : List (String × Datum)) (k : String)
    (d : Datum) : Enlarged (l ++ (a ++ (field, .fields (m ++ n)) :: b) :: r)
      (l ++ (a ++ (field, .fields (m ++ (k, d) :: n)) :: b) :: r)

theorem Names.of_subset {fs fs' : List (String × Datum)} {n : String} (h : Names fs n)
    (hs : fs ⊆ fs') : Names fs' n := by
  cases h with
  | own h => exact .own (hs h)
  | mapped hf h hn => exact .mapped hf (hs h) hn

theorem Names.of_key {a b m m' : List (String × Datum)} {field n : String}
    (h : Names (a ++ (field, .fields m) :: b) n) (hf : field = "replace" ∨ field = "provide")
    (hm : m.map Prod.fst ⊆ m'.map Prod.fst) : Names (a ++ (field, .fields m') :: b) n := by
  have hother {f : String × Datum} (hmem : f ∈ a ++ (field, .fields m) :: b) :
      f = (field, .fields m) ∨ f ∈ a ++ (field, .fields m') :: b := by
    simp only [List.mem_append, List.mem_cons] at hmem ⊢
    tauto
  cases h with
  | own h =>
    rcases hother h with he | h
    · cases he
    · exact .own h
  | @mapped field' hf' u h hn =>
    rcases hother h with he | h
    · obtain ⟨rfl, hu⟩ := Prod.mk.inj he
      obtain rfl := fields_injective hu
      exact .mapped hf (List.mem_append_right a List.mem_cons_self) (hm hn)
    · exact .mapped hf' h hn

theorem exists_mem_middle {α : Type} {P : α → Prop} {l r : List α} {x : α} :
    (∃ y ∈ l ++ x :: r, P y) ↔ P x ∨ ∃ y ∈ l ++ r, P y := by
  simp only [List.mem_append, List.mem_cons, or_and_right, exists_or, exists_eq_left]
  exact or_left_comm

theorem Enlarged.names {es es' : List (List (String × Datum))} (h : Enlarged es es') {n : String}
    (hn : ∃ fs ∈ es, Names fs n) : ∃ fs ∈ es', Names fs n := by
  cases h with
  | entry l r fs => exact exists_mem_middle.2 (.inr hn)
  | field l r a b hf m =>
    refine exists_mem_middle.2 ((exists_mem_middle.1 hn).imp_left fun h => h.of_subset ?_)
    exact ((List.sublist_cons_self _ _).append_left _).subset
  | key l r a b hf m u k d =>
    refine exists_mem_middle.2 ((exists_mem_middle.1 hn).imp_left fun h => h.of_key hf ?_)
    rw [List.map_append, List.map_append, List.map_cons]
    exact ((List.sublist_cons_self _ _).append_left _).subset

theorem names_of_enlarged {es es' : List (List (String × Datum))}
    (h : Relation.ReflTransGen Enlarged es es') {n : String} (hn : ∃ fs ∈ es, Names fs n) :
    ∃ fs ∈ es', Names fs n := by
  induction h with
  | refl => exact hn
  | tail _ hstep ih => exact hstep.names ih

end Packages

/-! ### What the settings leave open -/

namespace Doctrine

theorem isEnabled_none_iff (installed : Packages) :
    isEnabled none installed = true ↔ ∃ n ∈ packages, installed.isInstalled n = true := by
  rw [isEnabled, Option.getD_none, List.any_eq_true]

/-- More packages at most turn the provider on, and what it says of a method when it is on does
not depend on them. -/
theorem verdict_of_more {installed more : Packages}
    (h : ∀ n, installed.isInstalled n = true → more.isInstalled n = true) (caps : Capabilities)
    {m : Member} (hu : ((provider none caps installed).verdict m).used = true) :
    (provider none caps more).verdict m = (provider none caps installed).verdict m := by
  have hon : isEnabled none installed = true := by
    by_contra hoff
    rw [Bool.not_eq_true] at hoff
    simp [provider, verdict, hoff, Verdict.unused] at hu
  have hmore : isEnabled none more = true := by
    obtain ⟨n, hn, hi⟩ := (isEnabled_none_iff installed).1 hon
    exact (isEnabled_none_iff more).2 ⟨n, hn, h n hi⟩
  simp only [provider, hon, hmore]

end Doctrine

namespace Packages

theorem Lists.isInstalled_iff {text : String} {es : List (List (String × Datum))}
    (h : Lists text es) {p : Packages} (hp : ofJson text = .ok p) (q : String) :
    p.isInstalled q = true ↔ ∃ fs ∈ es, ∃ n, Names fs n ∧ SameLetters n q := by
  obtain ⟨xs, hxs, rfl⟩ := (h.ofJson_eq_ok_iff p).1 hp
  exact isInstalled_ofEntries_iff hxs q

theorem Lists.isInstalled_mono {s t : String} {es es' : List (List (String × Datum))}
    (hs : Lists s es) (ht : Lists t es') (h : Relation.ReflTransGen Enlarged es es')
    {p p' : Packages} (hp : ofJson s = .ok p) (hp' : ofJson t = .ok p') (q : String)
    (hq : p.isInstalled q = true) : p'.isInstalled q = true := by
  obtain ⟨fs, hfs, n, hn, hnq⟩ := (hs.isInstalled_iff hp q).1 hq
  obtain ⟨fs', hfs', hn'⟩ := names_of_enlarged h ⟨fs, hfs, hn⟩
  exact (ht.isInstalled_iff hp' q).2 ⟨fs', hfs', n, hn', hnq⟩

/-- A document that nests too deep is no list of packages in any layout. -/
theorem ofJson_compact_of_deep {d : Datum} (h : Json.Plain d) (hn : Json.room < Json.nesting d) :
    ofJson (Json.compact d) = .error .malformed := by
  have hdatum : Json.document.datum ⟨Json.room, .ofDatum d⟩ = .error .malformed :=
    Json.refused h _ hn
  rw [ofJson, Json.read_compact h, hdatum]
  rfl

/-! ### A list that grows -/

def logger : List (String × Datum) := [("name", .text "psr/log"), ("version", .text "3.0.0")]

def fork : List (String × Datum) :=
  [("name", .text "acme/orm-fork"), ("replace", .fields [("Doctrine/ORM", .text "self.version")])]

def wrappedFork : List (String × Datum) :=
  [("dev", .bool true), ("packages", flat [logger, fork])]

theorem plain_logger : Json.Plain (.fields logger) :=
  Json.plain_fields (by simp [logger, Json.Plain.text])

theorem plain_fork : Json.Plain (.fields fork) := by
  have hreplaced : Json.Plain (.fields [("Doctrine/ORM", .text "self.version")]) :=
    Json.plain_fields (by simp [Json.Plain.text])
  exact Json.plain_fields (by simp [fork, Json.Plain.text, hreplaced])

theorem intact_logger : Intact (flat [logger]) :=
  ⟨.list (by simp [plain_logger]), rfl, by decide⟩

theorem intact_fork : Intact (flat [logger, fork]) :=
  ⟨.list (by simp [plain_logger, plain_fork]), rfl, by decide⟩

theorem intact_wrappedFork : Intact (.fields wrappedFork) :=
  ⟨Json.plain_fields (by simp [wrappedFork, Json.Plain.bool, intact_fork.plain]), rfl, by decide⟩

/-! ### An entry that is too deep for one layout -/

def lists : Nat → Datum
  | 0 => .list []
  | n + 1 => .list [lists n]

theorem plain_lists (n : Nat) : Json.Plain (lists n) := by
  induction n with
  | zero => exact .list nofun
  | succ n ih => exact .list (List.forall_mem_singleton.2 ih)

theorem nesting_lists (n : Nat) : Json.nesting (lists n) = n + 1 := by
  induction n with
  | zero => rfl
  | succ n ih => simp [lists, Json.nesting, Json.nestingItems, ih]

theorem carried_lists (n : Nat) : Json.carried (lists n) = lists n := by
  induction n with
  | zero => rfl
  | succ n ih => simp [lists, Json.carried, Json.carriedItems, ih]

def deep : List (String × Datum) := [("name", .text "doctrine/orm"), ("extra", lists 124)]

theorem nesting_deep : Json.nesting (flat [deep]) = Json.room := by
  simp [flat, deep, Datum.fields, Json.nesting, Json.nestingItems, Json.nestingEntries,
    nesting_lists, Json.room]

theorem intact_deep : Intact (flat [deep]) where
  plain := .list (List.forall_mem_singleton.2
    (Json.plain_fields (by simp [deep, Json.Plain.text, plain_lists])))
  keys := by
    simp [flat, deep, Datum.fields, Json.carried, Json.carriedItems, Json.carriedEntries,
      Json.keyString, carried_lists]
  fits := Nat.le_of_eq nesting_deep

theorem plain_wrappedDeep : Json.Plain (.fields [("packages", flat [deep])]) :=
  Json.plain_fields (List.forall_mem_singleton.2 intact_deep.plain)

theorem nesting_wrappedDeep :
    Json.room < Json.nesting (.fields [("packages", flat [deep])]) := by
  have hdeeper : Json.nesting (.fields [("packages", flat [deep])]) =
      max (Json.nesting (flat [deep])) 0 + 1 := rfl
  rw [hdeeper, nesting_deep]
  decide

/-! ### What counts as installed -/

/-- Two texts that list the same entries say the same of the installed packages, whatever their
layouts. They say anything exactly if every object in the list is an entry, and then what counts
as installed are the names of the entries in any ASCII case. A longer list of entries counts for
no name less, so where the settings leave the provider open it takes no use away. Such a provider
fares like one that is set to whether one of its packages is installed. The texts that are written
of a list are such texts where they nest as deep as is read, and no text where they nest deeper,
which comes one level sooner where the list is wrapped. -/
theorem entries_decide_installed :
    (∀ s t es, Lists s es → Lists t es → ofJson s = ofJson t) ∧
    (∀ s es, Lists s es → ((∃ p, ofJson s = .ok p) ↔ ∀ fs ∈ es, ∃ e, Entry.Of fs e) ∧
      ∀ p, ofJson s = .ok p → ∀ q,
        p.isInstalled q = true ↔ ∃ fs ∈ es, ∃ n, Names fs n ∧ SameLetters n q) ∧
    (∀ s t es es' p, Lists s es → Lists t es' → Relation.ReflTransGen Enlarged es es' →
      ofJson s = .ok p → (∀ fs ∈ es', ∃ e, Entry.Of fs e) → ∃ p', ofJson t = .ok p' ∧
        (∀ q, p.isInstalled q = true → p'.isInstalled q = true) ∧
        ∀ caps m, ((Doctrine.provider none caps p).verdict m).used = true →
          (Doctrine.provider none caps p').verdict m = (Doctrine.provider none caps p).verdict m) ∧
    (∀ p p' caps flag m, (flag = true ↔ ∃ n ∈ Doctrine.packages, p.isInstalled n = true) →
      (Doctrine.provider none caps p).verdict m =
        (Doctrine.provider (some flag) caps p').verdict m) ∧
    (∀ es, Intact (flat es) → Lists (Json.compact (flat es)) es) ∧
    (∀ fs es, Intact (.fields fs) → given "packages" fs = [flat es] →
      Lists (Json.compact (.fields fs)) es) ∧
    ∀ d, Json.Plain d → Json.room < Json.nesting d →
      ofJson (Json.compact d) = .error .malformed := by
  refine ⟨fun s t es hs ht => by rw [hs.ofJson_eq, ht.ofJson_eq],
    fun s es hs => ⟨hs.exists_ofJson_iff, fun p hp q => hs.isInstalled_iff hp q⟩,
    fun s t es es' p hs ht h hp hes => ?longer, fun p p' caps flag m hflag => ?flag,
    fun es h => .flat h.datumOfText, fun fs es h hp => .wrapped h.datumOfText hp,
    fun d => ofJson_compact_of_deep⟩
  case longer =>
    obtain ⟨p', hp'⟩ := ht.exists_ofJson_iff.2 hes
    have hmono := hs.isInstalled_mono ht h hp hp'
    exact ⟨p', hp', hmono, fun caps m hu => Doctrine.verdict_of_more hmono caps hu⟩
  case flag =>
    have henabled : Doctrine.isEnabled none p = flag :=
      Bool.eq_iff_iff.2 ((Doctrine.isEnabled_none_iff p).trans hflag.symm)
    have hset : Doctrine.isEnabled (some flag) p' = flag := rfl
    simp only [Doctrine.provider, henabled, hset]

/-- The fork comes in, in either layout, and turns the provider on. A list that is too deep
counts for nothing. -/
theorem fork_turns_on :
    Intact (flat [logger]) ∧ Intact (flat [logger, fork]) ∧ Intact (.fields wrappedFork) ∧
    Relation.ReflTransGen Enlarged [logger] [logger, fork] ∧
    ofJson (Json.compact (flat [logger, fork])) = ofJson (Json.compact (.fields wrappedFork)) ∧
    (∃ p p', ofJson (Json.compact (flat [logger])) = .ok p ∧
      ofJson (Json.compact (.fields wrappedFork)) = .ok p' ∧ p'.isInstalled "PSR/Log" = true ∧
      p'.isInstalled "doctrine/orm" = true ∧ ∀ caps m,
        (Doctrine.provider none caps p').verdict m =
          (Doctrine.provider (some true) caps p').verdict m) ∧
    ofJson (Json.compact (.fields [("packages", flat [deep])])) = .error .malformed := by
  obtain ⟨hlayouts, hread, hlonger, hflag, hflat, hwrapped, hdeep⟩ := entries_decide_installed
  have hshort := hflat [logger] intact_logger
  have hlong := hflat [logger, fork] intact_fork
  have hbeside := hwrapped wrappedFork [logger, fork] intact_wrappedFork rfl
  have hgrown : Relation.ReflTransGen Enlarged [logger] [logger, fork] :=
    .single (.entry [logger] [] fork)
  have hlogger : Entry.Of logger ⟨"psr/log", [], []⟩ := ⟨rfl, .absent rfl, .absent rfl⟩
  have hfork : Entry.Of fork ⟨"acme/orm-fork", ["Doctrine/ORM"], []⟩ :=
    ⟨rfl, .given (m := [("Doctrine/ORM", .text "self.version")]) rfl, .absent rfl⟩
  have hreplaced : Names fork "Doctrine/ORM" :=
    .mapped (.inl rfl) (m := [("Doctrine/ORM", .text "self.version")]) (by simp [fork]) (by simp)
  obtain ⟨p, hp⟩ := (hread _ _ hshort).1.2 (by simpa using ⟨_, hlogger⟩)
  obtain ⟨p', hp', hmore, -⟩ := hlonger _ _ _ _ _ hshort hbeside hgrown hp
    (by simpa using ⟨⟨_, hlogger⟩, ⟨_, hfork⟩⟩)
  have hlog : p.isInstalled "PSR/Log" = true :=
    ((hread _ _ hshort).2 p hp _).2 ⟨logger, by simp, "psr/log", .own (by simp [logger]),
      (folded_eq_iff _ _).1 (by decide)⟩
  have horm : p'.isInstalled "doctrine/orm" = true :=
    ((hread _ _ hbeside).2 p' hp' _).2 ⟨fork, by simp, "Doctrine/ORM", hreplaced,
      (folded_eq_iff _ _).1 (by decide)⟩
  refine ⟨intact_logger, intact_fork, intact_wrappedFork, hgrown, hlayouts _ _ _ hlong hbeside,
    ⟨p, p', hp, hp', hmore _ hlog, horm, fun caps m => hflag p' p' caps true m ?_⟩,
    hdeep _ plain_wrappedDeep nesting_wrappedDeep⟩
  exact iff_of_true rfl ⟨_, by simp [Doctrine.packages], horm⟩

/-- The list is read as it is, and refused under a key, where it lies one level deeper. -/
theorem deep_entry_parts_layouts :
    Lists (Json.compact (flat [deep])) [deep] ∧ (∃ e, Entry.Of deep e) ∧
    (∃ p, ofJson (Json.compact (flat [deep])) = .ok p ∧ p.isInstalled "doctrine/orm" = true) ∧
    ofJson (Json.compact (.fields [("packages", flat [deep])])) = .error .malformed := by
  have hlists : Lists (Json.compact (flat [deep])) [deep] := .flat intact_deep.datumOfText
  have hentry : Entry.Of deep ⟨"doctrine/orm", [], []⟩ := ⟨rfl, .absent rfl, .absent rfl⟩
  obtain ⟨p, hp⟩ := hlists.exists_ofJson_iff.2 (by simpa using ⟨_, hentry⟩)
  have horm : p.isInstalled "doctrine/orm" = true :=
    (hlists.isInstalled_iff hp _).2 ⟨deep, by simp, "doctrine/orm", .own (by simp [deep]),
      (folded_eq_iff _ _).1 rfl⟩
  exact ⟨hlists, ⟨_, hentry⟩, ⟨p, hp, horm⟩,
    ofJson_compact_of_deep plain_wrappedDeep nesting_wrappedDeep⟩

end Packages
end Reprieve
