import Mathlib.Data.List.Chain
import Reprieve.Proofs.Descriptor
import Reprieve.Proofs.Hierarchy

/-! The ancestors of a class: the one walk over parents that begins at the class,
meets no key twice and cannot be made longer. They hold every key that parents
lead to, the key of the class itself left out. -/
namespace Reprieve.Lineage
open Relation (TransGen ReflTransGen)
variable {rs : List ClassRecord}

def ParentName (rs : List ClassRecord) (a b : ClassName) : Prop :=
  ∃ r ∈ rs, ClassName.keyOf r.name = a.key ∧ r.parent.map .ofText = some b

structure MaximalWalk (rs : List ClassRecord) (a : ClassName) (l : List ClassName) : Prop where
  chain : (a :: l).IsChain (ParentName rs)
  fresh : ((a :: l).map ClassName.key).Nodup
  ended : ∀ x ∈ (a :: l).getLast?, ∀ b, ParentName rs x b → b.key ∈ (a :: l).map ClassName.key

theorem Distinct.parentName_iff (hd : Distinct rs) (a b : ClassName) :
    ParentName rs a b ↔ (parent? rs a.key).map .ofText = some b := by
  rw [ParentName, Option.map_eq_some_iff]
  constructor
  · intro h
    obtain ⟨r, hr, hk, hp⟩ := h
    obtain ⟨p, hp, hb⟩ := Option.map_eq_some_iff.1 hp
    exact ⟨p, (hd.parent?_eq_some_iff _ p).2 ⟨r, hr, hk, hp⟩, hb⟩
  · intro h
    obtain ⟨p, hp, hb⟩ := h
    obtain ⟨r, hr, hk, hp⟩ := (hd.parent?_eq_some_iff _ p).1 hp
    exact ⟨r, hr, hk, Option.map_eq_some_iff.2 ⟨p, hp, hb⟩⟩

theorem Distinct.parentName_unique (hd : Distinct rs) {a b b' : ClassName}
    (h : ParentName rs a b) (h' : ParentName rs a b') : b = b' := by
  rw [hd.parentName_iff] at h h'
  exact Option.some.inj (h.symm.trans h')

theorem parent_of_parentName {a b : ClassName} (h : ParentName rs a b) :
    Parent rs a.key b.key := by
  obtain ⟨r, hr, hk, hp⟩ := h
  obtain ⟨p, hrp, rfl⟩ := Option.map_eq_some_iff.1 hp
  exact ⟨r, hr, p, hk, hrp, (ClassName.key_ofText p).symm⟩

theorem exists_parentName {a : ClassName} {k : String} (h : Parent rs a.key k) :
    ∃ b, ParentName rs a b ∧ b.key = k := by
  obtain ⟨r, hr, p, hk, hp, rfl⟩ := h
  exact ⟨.ofText p, ⟨r, hr, hk, by rw [hp]; rfl⟩, ClassName.key_ofText p⟩

/-! ### The climb is a maximal walk -/

theorem Distinct.climb_chain (hd : Distinct rs) (seen : List String) (next : Option String) :
    ∀ a : ClassName, parent? rs a.key = next →
      (a :: climb rs seen next).IsChain (ParentName rs) := by
  refine climb_induction
    (motive := fun _ next l => ∀ a : ClassName, parent? rs a.key = next →
      (a :: l).IsChain (ParentName rs)) ?absent ?repeated ?fresh seen next
  case absent => exact fun _ a _ => List.isChain_singleton a
  case repeated => exact fun _ _ _ a _ => List.isChain_singleton a
  case fresh =>
    intro _ p l _ ih a ha
    refine List.isChain_cons_cons.2 ⟨(hd.parentName_iff a _).2 (by rw [ha]; rfl), ?_⟩
    exact ih (.ofText p) (by rw [ClassName.key_ofText])

/-- The climb stops where there is no parent or where the parent was met before. -/
theorem Distinct.climb_ended (hd : Distinct rs) (seen : List String) (next : Option String) :
    ∀ a : ClassName, parent? rs a.key = next →
      ∀ x ∈ (a :: climb rs seen next).getLast?, ∀ b, ParentName rs x b →
        b.key ∈ seen ∨ b.key ∈ (climb rs seen next).map ClassName.key := by
  refine climb_induction
    (motive := fun seen next l => ∀ a : ClassName, parent? rs a.key = next →
      ∀ x ∈ (a :: l).getLast?, ∀ b, ParentName rs x b →
        b.key ∈ seen ∨ b.key ∈ l.map ClassName.key) ?absent ?repeated ?fresh seen next
  case absent =>
    intro seen a ha x hx b hb
    obtain rfl : a = x := by simpa using hx
    rw [hd.parentName_iff, ha] at hb
    cases hb
  case repeated =>
    intro seen p hp a ha x hx b hb
    obtain rfl : a = x := by simpa using hx
    rw [hd.parentName_iff, ha] at hb
    obtain rfl : ClassName.ofText p = b := Option.some.inj hb
    exact .inl (by rwa [ClassName.key_ofText])
  case fresh =>
    intro seen p l _ ih a _ x hx b hb
    rw [List.getLast?_cons_cons] at hx
    cases ih (.ofText p) (by rw [ClassName.key_ofText]) x hx b hb with
    | inl hs =>
      cases List.mem_cons.1 hs with
      | inl he => exact .inr (by simp [he, ClassName.key_ofText])
      | inr hs => exact .inl hs
    | inr hm => exact .inr (List.mem_cons_of_mem _ hm)

theorem Distinct.maximalWalk_ancestors (hd : Distinct rs) {c : ClassRecord} (hc : c ∈ rs) :
    MaximalWalk rs (.ofText c.name) (ancestors rs c) := by
  have hp : parent? rs (ClassName.ofText c.name).key = c.parent := by
    rw [ClassName.key_ofText, hd.parent?_keyOf hc]
  obtain ⟨hn, hs⟩ := climb_fresh rs [ClassName.keyOf c.name] c.parent
  refine ⟨hd.climb_chain _ _ _ hp, ?_, ?_⟩
  · rw [List.map_cons, ClassName.key_ofText]
    exact List.nodup_cons.2 ⟨fun h => hs _ h List.mem_cons_self, hn⟩
  · intro x hx b hb
    rw [List.map_cons, ClassName.key_ofText, List.mem_cons]
    exact (hd.climb_ended [_] _ _ hp x hx b hb).imp_left List.mem_singleton.1

/-! ### What a maximal walk meets -/

theorem MaximalWalk.closed (hd : Distinct rs) {a : ClassName} {l : List ClassName}
    (h : MaximalWalk rs a l) {x b : ClassName} (hx : x ∈ a :: l) (hb : ParentName rs x b) :
    b.key ∈ (a :: l).map ClassName.key := by
  obtain ⟨s, t, hst⟩ := List.mem_iff_append.1 hx
  cases t with
  | nil => exact h.ended x (by simp [hst]) b hb
  | cons y t =>
    have hc := h.chain
    rw [hst] at hc
    have hy : ParentName rs x y := (List.isChain_cons_cons.1 hc.right_of_append).1
    obtain rfl := hd.parentName_unique hb hy
    simp [hst]

theorem MaximalWalk.mem_iff_reached (hd : Distinct rs) {a : ClassName} {l : List ClassName}
    (h : MaximalWalk rs a l) (k : String) :
    k ∈ (a :: l).map ClassName.key ↔ ReflTransGen (Parent rs) a.key k := by
  constructor
  · intro hk
    have hc : (a.key :: l.map ClassName.key).IsChain (TransGen (Parent rs)) :=
      List.isChain_map_of_isChain ClassName.key (fun _ _ hxy => .single (parent_of_parentName hxy))
        h.chain
    cases List.mem_cons.1 hk with
    | inl he => exact he ▸ .refl
    | inr hk => exact (hc.rel_cons hk).to_reflTransGen
  · intro hr
    induction hr with
    | refl => simp
    | tail _ hp ih =>
      obtain ⟨x, hx, rfl⟩ := List.mem_map.1 ih
      obtain ⟨b, hb, rfl⟩ := exists_parentName hp
      exact h.closed hd hx hb

theorem MaximalWalk.mem_tail_iff_reached (hd : Distinct rs) {a : ClassName} {l : List ClassName}
    (h : MaximalWalk rs a l) (k : String) :
    k ∈ l.map ClassName.key ↔ k ≠ a.key ∧ TransGen (Parent rs) a.key k := by
  have hn : a.key ∉ l.map ClassName.key := (List.nodup_cons.1 h.fresh).1
  have hk := h.mem_iff_reached hd k
  rw [List.map_cons, List.mem_cons, Relation.reflTransGen_iff_eq_or_transGen] at hk
  constructor
  · intro hm
    have hne : k ≠ a.key := fun he => hn (he ▸ hm)
    exact ⟨hne, (hk.1 (.inr hm)).resolve_left hne⟩
  · intro h
    exact (hk.2 (.inr h.2)).resolve_left h.1

/-! ### There is one maximal walk -/

theorem Distinct.prefix_or_prefix (hd : Distinct rs) (l : List ClassName) :
    ∀ (a : ClassName) (l' : List ClassName), (a :: l).IsChain (ParentName rs) →
      (a :: l').IsChain (ParentName rs) → l <+: l' ∨ l' <+: l := by
  induction l with
  | nil => exact fun _ l' _ _ => .inl l'.nil_prefix
  | cons x l ih =>
    intro a l' h h'
    cases l' with
    | nil => exact .inr (List.nil_prefix)
    | cons y l' =>
      rw [List.isChain_cons_cons] at h h'
      obtain rfl := hd.parentName_unique h.1 h'.1
      simpa only [List.prefix_cons_inj] using ih x l' h.2 h'.2

theorem MaximalWalk.eq_of_prefix {a : ClassName} {l l' : List ClassName}
    (h : MaximalWalk rs a l) (h' : MaximalWalk rs a l') (hp : l <+: l') : l = l' := by
  obtain ⟨t, rfl⟩ := hp
  cases t with
  | nil => simp
  | cons b t =>
    -- the shorter walk ended because it met this key, so the longer one meets it twice
    exfalso
    have hc : ((a :: l) ++ b :: t).IsChain (ParentName rs) := by simpa using h'.chain
    obtain ⟨x, hx⟩ : ∃ x, x ∈ (a :: l).getLast? := ⟨_, List.getLast?_eq_getLast_of_ne_nil (by simp)⟩
    have hb : b.key ∈ (a :: l).map ClassName.key :=
      h.ended x hx b ((List.isChain_append.1 hc).2.2 x hx b (by simp))
    have hn : ((a :: l).map ClassName.key ++ (b :: t).map ClassName.key).Nodup := by
      simpa using h'.fresh
    exact (List.disjoint_of_nodup_append hn) hb (by simp)

theorem MaximalWalk.unique (hd : Distinct rs) {a : ClassName} {l l' : List ClassName}
    (h : MaximalWalk rs a l) (h' : MaximalWalk rs a l') : l = l' := by
  cases hd.prefix_or_prefix l a l' h.chain h'.chain with
  | inl hp => exact h.eq_of_prefix h' hp
  | inr hp => exact (h'.eq_of_prefix h hp).symm

/-! ### The walk of a class in a snapshot -/

theorem Distinct.mem_ancestors_iff (hd : Distinct rs) {c : ClassRecord} (hc : c ∈ rs) (k : String) :
    k ∈ (ancestors rs c).map ClassName.key ↔
      k ≠ ClassName.keyOf c.name ∧ TransGen (Parent rs) (ClassName.keyOf c.name) k := by
  rw [← ClassName.key_ofText]
  exact (hd.maximalWalk_ancestors hc).mem_tail_iff_reached hd k

theorem Distinct.isSubclassOf_resolve_iff (hd : Distinct rs) {c : ClassRecord} (hc : c ∈ rs)
    (n : String) : (Descriptor.resolve rs c).isSubclassOf n = true ↔
      ClassName.keyOf n ≠ ClassName.keyOf c.name ∧
        TransGen (Parent rs) (ClassName.keyOf c.name) (ClassName.keyOf n) := by
  rw [Descriptor.isSubclassOf_iff, Descriptor.resolve_ancestors, hd.mem_ancestors_iff hc]

/-- The climb ends, and what it found is the one maximal walk from the class. It begins
with the parent that the class declares and holds what parents lead to, but for the
class itself. -/
theorem ancestors_unique_maximal_walk {s : Snapshot} (hd : Distinct s.classes) {c : ClassRecord}
    (hc : c ∈ s.classes) :
    (∃ w, Ends (climbRound s.classes) ⟨[ClassName.keyOf c.name], c.parent, []⟩ w ∧
      w.found = ancestors s.classes c) ∧
    (∀ l, MaximalWalk s.classes (.ofText c.name) l ↔ l = ancestors s.classes c) ∧
    (∀ a ∈ (ancestors s.classes c).head?, c.parent.map .ofText = some a) ∧
    (∀ n, (Descriptor.resolve s.classes c).isSubclassOf n = true ↔
      ClassName.keyOf n ≠ ClassName.keyOf c.name ∧
        TransGen (Parent s.classes) (ClassName.keyOf c.name) (ClassName.keyOf n)) ∧
    ∀ n, ClassName.keyOf n = ClassName.keyOf c.name →
      (Descriptor.resolve s.classes c).isSubclassOf n = false := by
  have hw := hd.maximalWalk_ancestors hc
  refine ⟨climb_ends _ _ _ [], fun l => ⟨fun hl => hl.unique hd hw, ?_⟩, ?_,
    hd.isSubclassOf_resolve_iff hc, ?_⟩
  · intro he
    rwa [he]
  · intro a ha
    have hp : ParentName s.classes (.ofText c.name) a := hw.chain.rel_head? ha
    rwa [hd.parentName_iff, ClassName.key_ofText, hd.parent?_keyOf hc] at hp
  · intro n hn
    rw [Bool.eq_false_iff, ne_eq, hd.isSubclassOf_resolve_iff hc]
    exact fun h => h.1 hn

theorem looped_child_below_second :
    Distinct looped.classes ∧ child ∈ looped.classes ∧
      (Descriptor.resolve looped.classes child).isSubclassOf "\\App\\SECOND" = true ∧
      (Descriptor.resolve looped.classes child).isSubclassOf "\\app\\child" = false := by
  have hc : child ∈ looped.classes := List.mem_cons_self
  obtain ⟨-, -, -, hs, hself⟩ := ancestors_unique_maximal_walk looped_distinct hc
  exact ⟨looped_distinct, hc,
    (hs _).2 ⟨by decide, .head looped_parents.1 (.single looped_parents.2)⟩, hself _ (by decide)⟩

end Reprieve.Lineage
