import Reprieve.Class.Lineage
import Reprieve.Proofs.SortedMaps
import Reprieve.Proofs.Spelling

/-! What a descriptor answers about names is said by keys, and interfaces that are
added one by one are all held, each under its own key. -/
namespace Reprieve

namespace Descriptor

theorem isSubclassOf_iff (c : Descriptor) (n : String) :
    c.isSubclassOf n = true ↔ ClassName.keyOf n ∈ c.ancestors.map ClassName.key := by
  simp [isSubclassOf, ClassName.matchesText_iff]

theorem implements_iff (c : Descriptor) (n : String) :
    c.implements n = true ↔ ClassName.keyOf n ∈ c.interfaces.values.map ClassName.key := by
  simp [implements, ClassName.matchesText_iff]

def Keyed (c : Descriptor) : Prop := ∀ e ∈ c.interfaces.entries, e.1 = e.2.key

theorem Keyed.get?_eq_none_iff {c : Descriptor} (h : c.Keyed) (k : String) :
    c.interfaces.get? k = none ↔ k ∉ c.interfaces.values.map ClassName.key := by
  rw [SortedMap.get?, List.lookup_eq_none_iff, SortedMap.values, List.map_map]
  constructor
  · intro hk hm
    obtain ⟨e, he, rfl⟩ := List.mem_map.1 hm
    simpa [h e he] using hk e he
  · intro hk e he
    have hne : k ≠ e.1 := fun hke => hk (List.mem_map.2 ⟨e, he, by simp [hke, h e he]⟩)
    simpa using hne

theorem Keyed.addInterface {c : Descriptor} (h : c.Keyed) (i : ClassName) :
    (c.addInterface i).Keyed := by
  unfold Descriptor.addInterface
  split
  · exact h
  · intro e he
    cases SortedMap.mem_place he with
    | inl hi => rw [hi]
    | inr he => exact h e he

theorem Keyed.values_addInterface {c : Descriptor} (h : c.Keyed) {i : ClassName}
    (hi : i.key ∉ c.interfaces.values.map ClassName.key) :
    (c.addInterface i).interfaces.values.Perm (i :: c.interfaces.values) := by
  have hn := (h.get?_eq_none_iff i.key).2 hi
  rw [Descriptor.addInterface, hn]
  exact (SortedMap.place_perm hn).map (·.2)

theorem Keyed.values_foldl_addInterface (is : List ClassName) :
    ∀ {c : Descriptor}, c.Keyed → (is.map ClassName.key).Nodup →
      (∀ k ∈ is.map ClassName.key, k ∉ c.interfaces.values.map ClassName.key) →
      (is.foldl Descriptor.addInterface c).interfaces.values.Perm
        (is ++ c.interfaces.values) := by
  induction is with
  | nil => exact fun _ _ _ => .refl _
  | cons i is ih =>
    intro c h hn hd
    rw [List.map_cons, List.nodup_cons] at hn
    have hp := h.values_addInterface (hd i.key (by simp))
    have hd' : ∀ k ∈ is.map ClassName.key,
        k ∉ (c.addInterface i).interfaces.values.map ClassName.key := by
      intro k hk hm
      cases List.mem_cons.1 ((hp.map ClassName.key).mem_iff.1 hm) with
      | inl he => exact hn.1 (he ▸ hk)
      | inr hm => exact hd k (List.mem_cons_of_mem _ hk) hm
    exact (ih (h.addInterface i) hn.2 hd').trans ((hp.append_left is).trans List.perm_middle)

theorem foldl_addInterface (is : List ClassName) (c : Descriptor) :
    is.foldl addInterface c =
      { c with interfaces := (is.foldl addInterface c).interfaces } := by
  induction is generalizing c with
  | nil => rfl
  | cons i is ih =>
    rw [List.foldl_cons, ih]
    unfold addInterface
    split <;> rfl

section Resolve
variable (rs : List ClassRecord) (r : ClassRecord)

@[simp] theorem resolve_name : (resolve rs r).name = .ofText r.name := by
  rw [resolve, foldl_addInterface]

@[simp] theorem resolve_kind : (resolve rs r).kind = r.kind := by
  rw [resolve, foldl_addInterface]

@[simp] theorem resolve_ancestors : (resolve rs r).ancestors = Lineage.ancestors rs r := by
  rw [resolve, foldl_addInterface]

@[simp] theorem resolve_tags : (resolve rs r).tags = r.tags := by
  rw [resolve, foldl_addInterface]

@[simp] theorem resolve_methods : (resolve rs r).methods = r.methods.map Method.ofRecord := by
  rw [resolve, foldl_addInterface]

end Resolve

theorem values_resolve {rs : List ClassRecord} {r : ClassRecord}
    (h : ((Lineage.interfaces rs r).map ClassName.key).Nodup) :
    (resolve rs r).interfaces.values.Perm (Lineage.interfaces rs r) := by
  rw [resolve]
  refine (Keyed.values_foldl_addInterface _ ?_ h ?_).trans (by simp)
  · intro e he
    cases he
  · simp

/-! ### Methods by name -/

def FirstNamed (c : Descriptor) (name : String) (m : Method) : Prop :=
  ∃ l r, c.methods = l ++ m :: r ∧ m.name = name ∧ ∀ q ∈ l, q.name ≠ name

theorem FirstNamed.mem {c : Descriptor} {name : String} {m : Method} (h : c.FirstNamed name m) :
    m ∈ c.methods := by
  obtain ⟨l, r, hs, -⟩ := h
  simp [hs]

theorem FirstNamed.name_eq {c : Descriptor} {name : String} {m : Method}
    (h : c.FirstNamed name m) : m.name = name := by
  obtain ⟨l, r, -, hm, -⟩ := h
  exact hm

theorem member?_eq_some_iff (c : Descriptor) (name : String) (m : Member) :
    c.member? name = some m ↔ m.owner = c ∧ c.FirstNamed name m.method := by
  rw [member?, Option.map_eq_some_iff]
  simp only [List.find?_eq_some_iff_append, beq_iff_eq, Bool.not_eq_true', beq_eq_false_iff_ne]
  constructor
  · intro h
    obtain ⟨q, ⟨hq, l, r, hs, hl⟩, rfl⟩ := h
    exact ⟨rfl, l, r, hs, hq, hl⟩
  · intro h
    obtain ⟨rfl, l, r, hs, hm, hl⟩ := h
    exact ⟨m.method, ⟨hm, l, r, hs, hl⟩, rfl⟩

theorem member?_eq_none_iff (c : Descriptor) (name : String) :
    c.member? name = none ↔ ∀ m ∈ c.methods, m.name ≠ name := by
  simp [member?]

end Descriptor
end Reprieve
