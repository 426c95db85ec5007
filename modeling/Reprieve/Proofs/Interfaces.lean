import Reprieve.Proofs.Ancestry

/-! The interfaces of a class: all that declarations lead to from what the class and
the records above it declare. Throughout the spread, what a name that was met declares
was met too or is still pending; so at the end nothing is missing. -/
namespace Reprieve.Lineage
open Relation (ReflTransGen)
variable {rs : List ClassRecord}

/-- A record at or above the class declares an interface from which declarations lead
to the key. -/
def Implements (rs : List ClassRecord) (c k : String) : Prop :=
  ∃ r ∈ rs, ReflTransGen (Parent rs) c (ClassName.keyOf r.name) ∧
    ∃ i ∈ r.interfaces, ReflTransGen (Declares rs) (ClassName.keyOf i) k

/-! ### The spread meets what is reached, and only that -/

theorem spread_reached (seen pending : List String) :
    ∀ a ∈ spread rs seen pending,
      ∃ n ∈ pending, ReflTransGen (Declares rs) (ClassName.keyOf n) a.key := by
  refine spread_induction
    (motive := fun _ pending l => ∀ a ∈ l,
      ∃ n ∈ pending, ReflTransGen (Declares rs) (ClassName.keyOf n) a.key)
    ?done ?repeated ?fresh seen pending
  case done => simp
  case repeated =>
    intro seen n pending l _ ih a ha
    obtain ⟨m, hm, hr⟩ := ih a ha
    exact ⟨m, List.mem_cons_of_mem n hm, hr⟩
  case fresh =>
    intro seen n pending l _ ih a ha
    cases List.mem_cons.1 ha with
    | inl he => exact ⟨n, List.mem_cons_self, by rw [he, ClassName.key_ofText]⟩
    | inr ha =>
      obtain ⟨m, hm, hr⟩ := ih a ha
      cases List.mem_append.1 hm with
      | inl hm =>
        have hd : Declares rs (ClassName.keyOf n) (ClassName.keyOf m) :=
          declares_of_mem_declaredBy (List.mem_reverse.1 hm)
        exact ⟨n, List.mem_cons_self, .head hd hr⟩
      | inr hm => exact ⟨m, List.mem_cons_of_mem n hm, hr⟩

/-- What a key declares that was met was met too or is pending. -/
def Guarded (rs : List ClassRecord) (seen pending : List String) : Prop :=
  ∀ a ∈ seen, ∀ b, Declares rs a b → b ∈ seen ∨ b ∈ pending.map ClassName.keyOf

theorem Guarded.drop {seen pending : List String} {n : String}
    (h : Guarded rs seen (n :: pending)) (hn : ClassName.keyOf n ∈ seen) :
    Guarded rs seen pending := by
  intro a ha b hb
  cases h a ha b hb with
  | inl hs => exact .inl hs
  | inr hp =>
    cases List.mem_cons.1 hp with
    | inl he => exact .inl (he ▸ hn)
    | inr hp => exact .inr hp

theorem Guarded.take (hd : Distinct rs) {seen pending : List String} {n : String}
    (h : Guarded rs seen (n :: pending)) :
    Guarded rs (ClassName.keyOf n :: seen)
      ((declaredBy rs (ClassName.keyOf n)).reverse ++ pending) := by
  intro a ha b hb
  rw [List.map_append, List.mem_append]
  cases List.mem_cons.1 ha with
  | inl he =>
    subst he
    obtain ⟨i, hi, rfl⟩ := hd.exists_declaredBy hb
    exact .inr (.inl (List.mem_map_of_mem (List.mem_reverse.2 hi)))
  | inr ha =>
    cases h a ha b hb with
    | inl hs => exact .inl (List.mem_cons_of_mem _ hs)
    | inr hp =>
      cases List.mem_cons.1 hp with
      | inl he => exact .inl (by simp [he])
      | inr hp => exact .inr (.inr hp)

/-- All that is pending is met in the end, and with a key all that it declares. -/
theorem Distinct.spread_closed (hd : Distinct rs) (seen pending : List String)
    (hg : Guarded rs seen pending) :
    (∀ k ∈ pending.map ClassName.keyOf,
      k ∈ seen ++ (spread rs seen pending).map ClassName.key) ∧
    ∀ a ∈ seen ++ (spread rs seen pending).map ClassName.key, ∀ b, Declares rs a b →
      b ∈ seen ++ (spread rs seen pending).map ClassName.key := by
  revert hg
  -- by rounds: each leaves the rest guarded, and at the end nothing is pending
  refine spread_induction
    (motive := fun seen pending l => Guarded rs seen pending →
      (∀ k ∈ pending.map ClassName.keyOf, k ∈ seen ++ l.map ClassName.key) ∧
      ∀ a ∈ seen ++ l.map ClassName.key, ∀ b, Declares rs a b →
        b ∈ seen ++ l.map ClassName.key) ?done ?repeated ?fresh seen pending
  case done =>
    intro seen hg
    refine ⟨by simp, fun a ha b hb => ?_⟩
    simpa using hg a (by simpa using ha) b hb
  case repeated =>
    intro seen n pending l hn ih hg
    obtain ⟨hp, hc⟩ := ih (hg.drop hn)
    refine ⟨fun k hk => ?_, hc⟩
    cases List.mem_cons.1 hk with
    | inl he => exact List.mem_append_left _ (he ▸ hn)
    | inr hk => exact hp k hk
  case fresh =>
    intro seen n pending l _ ih hg
    have hm (k : String) : k ∈ seen ++ (ClassName.ofText n :: l).map ClassName.key ↔
        k ∈ (ClassName.keyOf n :: seen) ++ l.map ClassName.key := by
      rw [List.map_cons, ClassName.key_ofText]
      exact List.perm_middle.mem_iff
    obtain ⟨hp, hc⟩ := ih (hg.take hd)
    refine ⟨fun k hk => (hm k).2 ?_, fun a ha b hb => (hm b).2 (hc a ((hm a).1 ha) b hb)⟩
    cases List.mem_cons.1 hk with
    | inl he => simp [he]
    | inr hk =>
      rw [List.map_append] at hp
      exact hp k (List.mem_append_right _ hk)

theorem Distinct.mem_spread_iff (hd : Distinct rs) (pending : List String) (k : String) :
    k ∈ (spread rs [] pending).map ClassName.key ↔
      ∃ n ∈ pending, ReflTransGen (Declares rs) (ClassName.keyOf n) k := by
  constructor
  · intro hk
    obtain ⟨a, ha, rfl⟩ := List.mem_map.1 hk
    exact spread_reached [] pending a ha
  · intro h
    obtain ⟨n, hn, hr⟩ := h
    obtain ⟨hp, hc⟩ := hd.spread_closed [] pending (by simp [Guarded])
    induction hr with
    | refl => exact hp _ (List.mem_map_of_mem hn)
    | tail _ hb ih => exact hc _ ih _ hb

/-! ### The interfaces of a class in a snapshot -/

theorem Distinct.mem_declared_iff (hd : Distinct rs) {c : ClassRecord} (hc : c ∈ rs)
    (i : String) : i ∈ declared rs c ↔
      ∃ r ∈ rs, ReflTransGen (Parent rs) (ClassName.keyOf c.name) (ClassName.keyOf r.name) ∧
        i ∈ r.interfaces := by
  have hw := (hd.maximalWalk_ancestors hc).mem_iff_reached hd
  have hdecl : declared rs c =
      (ClassName.ofText c.name :: ancestors rs c).flatMap fun a => declaredBy rs a.key := by
    rw [List.flatMap_cons, ClassName.key_ofText, hd.declaredBy_keyOf hc]
    rfl
  rw [hdecl, List.mem_flatMap]
  constructor
  · intro h
    obtain ⟨a, ha, hi⟩ := h
    obtain ⟨r, hr, hk, hi⟩ := (hd.mem_declaredBy_iff _ _).1 hi
    refine ⟨r, hr, ?_, hi⟩
    rw [hk, ← ClassName.key_ofText, ← hw]
    exact List.mem_map_of_mem ha
  · intro h
    obtain ⟨r, hr, hp, hi⟩ := h
    rw [← ClassName.key_ofText, ← hw] at hp
    obtain ⟨a, ha, hk⟩ := List.mem_map.1 hp
    exact ⟨a, ha, (hd.mem_declaredBy_iff _ _).2 ⟨r, hr, hk.symm, hi⟩⟩

theorem Distinct.mem_interfaces_iff (hd : Distinct rs) {c : ClassRecord} (hc : c ∈ rs)
    (k : String) : k ∈ (interfaces rs c).map ClassName.key ↔
      Implements rs (ClassName.keyOf c.name) k := by
  rw [interfaces, hd.mem_spread_iff]
  constructor
  · intro h
    obtain ⟨i, hi, hr⟩ := h
    obtain ⟨r, hrs, hp, hi⟩ := (hd.mem_declared_iff hc i).1 (List.mem_reverse.1 hi)
    exact ⟨r, hrs, hp, i, hi, hr⟩
  · intro h
    obtain ⟨r, hrs, hp, i, hi, hr⟩ := h
    exact ⟨i, List.mem_reverse.2 ((hd.mem_declared_iff hc i).2 ⟨r, hrs, hp, hi⟩), hr⟩

theorem interfaces_nodup (rs : List ClassRecord) (c : ClassRecord) :
    ((interfaces rs c).map ClassName.key).Nodup :=
  (spread_fresh rs [] _).1

theorem Distinct.implements_resolve_iff (hd : Distinct rs) {c : ClassRecord} (hc : c ∈ rs)
    (n : String) : (Descriptor.resolve rs c).implements n = true ↔
      Implements rs (ClassName.keyOf c.name) (ClassName.keyOf n) := by
  rw [Descriptor.implements_iff,
    ((Descriptor.values_resolve (interfaces_nodup rs c)).map ClassName.key).mem_iff,
    hd.mem_interfaces_iff hc]

/-- The spread ends, and what it found are the interfaces of the class: what
declarations lead to from the class and the records above it, each interface once. -/
theorem interfaces_reached_once {s : Snapshot} (hd : Distinct s.classes) {c : ClassRecord}
    (hc : c ∈ s.classes) :
    (∃ w, Ends (spreadRound s.classes) ⟨[], (declared s.classes c).reverse, []⟩ w ∧
      (Descriptor.resolve s.classes c).interfaces.values.Perm w.found) ∧
    (∀ n, (Descriptor.resolve s.classes c).implements n = true ↔
      Implements s.classes (ClassName.keyOf c.name) (ClassName.keyOf n)) ∧
    ((Descriptor.resolve s.classes c).interfaces.values.map ClassName.key).Nodup := by
  have hn := interfaces_nodup s.classes c
  have hp := Descriptor.values_resolve hn
  refine ⟨?_, hd.implements_resolve_iff hc, (hp.map ClassName.key).nodup_iff.2 hn⟩
  obtain ⟨w, hw, hf⟩ := spread_ends s.classes [] (declared s.classes c).reverse []
  exact ⟨w, hw, hf ▸ hp⟩

theorem looped_child_subscribes : Implements looped.classes (ClassName.keyOf child.name)
    (ClassName.keyOf "Doctrine\\Common\\EventSubscriber") := by
  refine ⟨first, by simp [looped], .single looped_parents.1, "App\\Marked", by simp [first], ?_⟩
  have hm : Declares looped.classes "app\\marked" "app\\tagged" :=
    ⟨marked, by simp [looped], "\\App\\Tagged", by simp [marked], by decide, by decide⟩
  have ht : Declares looped.classes "app\\tagged" "doctrine\\common\\eventsubscriber" :=
    ⟨tagged, by simp [looped], "doctrine\\common\\EventSubscriber", by simp [tagged], by decide,
      by decide⟩
  exact .head hm (.single ht)

theorem looped_child_implements_once :
    Distinct looped.classes ∧ child ∈ looped.classes ∧
      (Descriptor.resolve looped.classes child).implements
        "Doctrine\\Common\\EventSubscriber" = true ∧
      ((Descriptor.resolve looped.classes child).interfaces.values.map ClassName.key).Nodup := by
  have hc : child ∈ looped.classes := List.mem_cons_self
  obtain ⟨-, hi, hn⟩ := interfaces_reached_once looped_distinct hc
  exact ⟨looped_distinct, hc, (hi _).2 looped_child_subscribes, hn⟩

end Reprieve.Lineage
