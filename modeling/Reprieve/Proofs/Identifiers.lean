import Mathlib.Data.Set.Function
import Reprieve.Proofs.Versions

/-! Identifiers of versions. An identifier gives two digits each to the second and the third part
and the rest to the first. So identifiers stand for the versions whose last two parts have two
digits at most, and come in the same order. -/
namespace Reprieve.Version

/-! ### Sums and products that fit -/

theorem bounded?_eq_some_iff (n m : Nat) : bounded? n = some m ↔ n = m ∧ n < bound := by
  rw [bounded?, Option.ite_none_right_eq_some, Option.some.injEq, and_comm]

theorem id?_eq_some_iff (v : Version) (n : Nat) : v.id? = some n ↔ v.id = n ∧ n < bound := by
  simp only [id?, id, Option.bind_eq_bind, Option.bind_eq_some_iff, bounded?_eq_some_iff]
  constructor
  · rintro ⟨_, ⟨rfl, -⟩, _, ⟨rfl, -⟩, _, ⟨rfl, -⟩, rfl, h⟩
    exact ⟨rfl, h⟩
  · rintro ⟨rfl, h⟩
    have hparts := Nat.lt_of_le_of_lt (Nat.le_add_right _ v.patch) h
    have hmajor := Nat.lt_of_le_of_lt (Nat.le_add_right (v.major * 10000) _) hparts
    have hminor := Nat.lt_of_le_of_lt (Nat.le_add_left (v.minor * 100) _) hparts
    exact ⟨_, ⟨rfl, hmajor⟩, _, ⟨rfl, hminor⟩, _, ⟨rfl, hparts⟩, rfl, h⟩

/-! ### There and back -/

theorem id_ofId (n : Nat) : (ofId n).id = n := by
  simp only [ofId, id]
  omega

/-- A third digit of a part is carried into the part before it. -/
theorem ofId_id_iff (v : Version) : ofId v.id = v ↔ v.minor < 100 ∧ v.patch < 100 := by
  simp only [ofId, id, Version.ext_iff]
  omega

theorem id?_ofId {n : Nat} (h : n < bound) : (ofId n).id? = some n :=
  (id?_eq_some_iff _ n).2 ⟨id_ofId n, h⟩

/-! ### Order -/

theorem isLE_compare_iff (v w : Version) : (compare v w).isLE = true ↔
    v.major < w.major ∨ v.major = w.major ∧
      (v.minor < w.minor ∨ v.minor = w.minor ∧ v.patch ≤ w.patch) := by
  change ((compare v.major w.major).then
    ((compare v.minor w.minor).then (compare v.patch w.patch))).isLE = true ↔ _
  simp only [Ordering.isLE_then_iff_or, Nat.compare_eq_lt, Nat.compare_eq_eq, Nat.isLE_compare]

theorem isLE_compare_ofId_iff (a b : Nat) : (compare (ofId a) (ofId b)).isLE = true ↔ a ≤ b := by
  simp only [isLE_compare_iff, ofId]
  omega

/-- Versions whose last two parts have two digits at most and whose identifier fits. -/
def Identified : Set Version := {v | v.minor < 100 ∧ v.patch < 100 ∧ v.id < bound}

theorem bijOn_ofId : Set.BijOn ofId {n | n < bound} Identified := by
  refine ⟨fun n hn => ?_, fun a _ b _ h => ?_, fun v hv => ?_⟩
  · have hback := (ofId_id_iff (ofId n)).1 (congrArg ofId (id_ofId n))
    exact ⟨hback.1, hback.2, (id_ofId n).symm ▸ hn⟩
  · rw [← id_ofId a, h, id_ofId]
  · exact ⟨v.id, hv.2.2, (ofId_id_iff v).2 ⟨hv.1, hv.2.1⟩⟩

/-- The identifiers that fit stand one to one for versions, in the same order. The way from one
to its version and back goes through no number that does not fit, and a version comes back from
its own exactly if its last two parts have two digits at most. So the first version with
declarative metadata divides the identifiers where its own stands. -/
theorem identifiers_order_versions :
    (∀ n, n < bound → (ofId n).id? = some n) ∧
    (∀ a b, a ≤ b ↔ (compare (ofId a) (ofId b)).isLE = true) ∧
    (∀ v n, v.id? = some n → (ofId n = v ↔ v.minor < 100 ∧ v.patch < 100)) ∧
    Set.BijOn ofId {n | n < bound} Identified ∧
    declarativeSince.id? = some 80000 ∧
    ∀ n, (Capabilities.ofVersion (ofId n)).declarativeMetadata = true ↔ 80000 ≤ n := by
  refine ⟨fun n => id?_ofId, fun a b => (isLE_compare_ofId_iff a b).symm, fun v n h => ?_,
    bijOn_ofId, by decide, declarative_ofId_iff⟩
  obtain ⟨rfl, -⟩ := (id?_eq_some_iff v n).1 h
  exact ofId_id_iff v

/-- The last identifier, and a version whose third part is too long to come back. -/
theorem last_identifier_returns :
    4294967295 < bound ∧ (ofId 4294967295).id? = some 4294967295 ∧
    (⟨8, 2, 130⟩ : Version).id? = some 80330 ∧ ofId 80330 ≠ ⟨8, 2, 130⟩ := by
  obtain ⟨hreturn, -, hback, -⟩ := identifiers_order_versions
  have hid : (⟨8, 2, 130⟩ : Version).id? = some 80330 := by decide
  refine ⟨by decide, hreturn _ (by decide), hid, fun h => ?_⟩
  obtain ⟨-, hpatch⟩ := (hback _ _ hid).1 h
  exact absurd hpatch (by decide)

end Reprieve.Version
