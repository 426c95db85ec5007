import Reprieve.Toml.Text
import Reprieve.Yaml.Scalar

/-! Quoted texts on one line. Where TOML reads such a text, YAML can read a quoted scalar, perhaps
another one, but it ends behind the same quote. -/
namespace Reprieve.Toml
open Yaml (Cursor startsWith isSpace isBreak isBlank)

/-- What comes at the front belongs to a text in quotes that ends where `after` begins. -/
def Within (quote : Char) (after cs : List Char) : Prop :=
  ∃ fuel x, oneLine quote fuel cs = some (x, after)

namespace Within
variable {quote c : Char} {after cs r : List Char}

theorem push_eq_some {p : Option (List Char × List Char)} {x : List Char}
    (h : push c p = some (x, r)) : ∃ y, p = some (y, r) := by
  obtain ⟨⟨y, _⟩, hp, h⟩ := Option.map_eq_some_iff.1 h
  cases h
  exact ⟨y, hp⟩

theorem close (h : Within quote after (quote :: r)) : r = after := by
  obtain ⟨fuel, x, h⟩ := h
  cases fuel with
  | zero => cases h
  | succ fuel =>
    rw [oneLine, if_pos rfl] at h
    cases h
    rfl

theorem ordinary (h : Within quote after (c :: r)) (hc : c ≠ quote)
    (he : ¬ (c = '\\' ∧ quote = '"')) : isPrintable c = true ∧ Within quote after r := by
  obtain ⟨fuel, x, h⟩ := h
  cases fuel with
  | zero => cases h
  | succ fuel =>
    rw [oneLine, if_neg hc, if_neg he] at h
    split at h
    · rename_i hp
      obtain ⟨y, hy⟩ := push_eq_some h
      exact ⟨hp, fuel, y, hy⟩
    · cases h

theorem escaped (h : Within '"' after ('\\' :: r)) :
    ∃ x r', escape? r = some (x, r') ∧ Within '"' after r' := by
  obtain ⟨fuel, x, h⟩ := h
  cases fuel with
  | zero => cases h
  | succ fuel =>
    rw [oneLine, if_neg (by decide), if_pos ⟨rfl, rfl⟩] at h
    obtain ⟨⟨y, r'⟩, hesc, h⟩ := Option.bind_eq_some_iff.1 h
    obtain ⟨z, hz⟩ := push_eq_some h
    exact ⟨y, r', hesc, fuel, z, hz⟩

end Within

/-- The escapes that TOML knows take as many characters in YAML. -/
theorem escape?_eq_some {r r' : List Char} {x : Char} (h : escape? r = some (x, r')) :
    ∃ e q, r = e :: q ∧ isBreak e = false ∧
      ((∃ y, Yaml.Quoted.short? e = some y) ∧ r' = q ∨
        Yaml.Quoted.short? e = none ∧
          ∃ n, Yaml.Quoted.codeLength? e = some n ∧ r' = q.drop n) := by
  have hcode {n : Nat} {q : List Char} (h : code? n q = some (x, r')) : r' = q.drop n := by
    rw [code?] at h
    split at h
    · cases h
      rfl
    · cases h
  rw [escape?.eq_def] at h
  split at h
  case h_8 q => exact ⟨'u', q, rfl, by decide, .inr ⟨rfl, 4, rfl, hcode h⟩⟩
  case h_9 q => exact ⟨'U', q, rfl, by decide, .inr ⟨rfl, 8, rfl, hcode h⟩⟩
  case h_10 => cases h
  all_goals
    cases h
    exact ⟨_, _, rfl, by decide, .inl ⟨⟨_, rfl⟩, rfl⟩⟩

section Reading
variable {quote : Char} {after : List Char} (hquote : quote = '\'' ∨ quote = '"')
  (hafter : quote = '\'' → startsWith (· == '\'') after = false)
include hquote

theorem Within.space {c : Char} {r : List Char} (h : Within quote after (c :: r))
    (hc : isSpace c = true) : isPrintable c = true ∧ Within quote after r := by
  refine h.ordinary ?_ ?_
  · rcases hquote with rfl | rfl <;> rintro rfl <;> cases hc
  · rintro ⟨rfl, -⟩
    cases hc

theorem Within.newline {c d : Cursor} {b : Char} (h : Within quote after c.rest)
    (hn : c.newline = some (b, d)) : Within quote after d.rest := by
  have htail {ch : Char} {r : List Char} (hr : c.rest = ch :: r) (hc : isSpace ch = true) :
      isPrintable ch = true ∧ Within quote after (c.rest.drop 1) := by
    rw [hr] at h ⊢
    exact Within.space hquote h hc
  rw [Cursor.newline] at hn
  split at hn
  · rename_i hr
    cases (htail hr (by decide)).1
  · rename_i hr
    cases hn
    exact (htail hr (by decide)).2
  · rename_i hr
    cases hn
    exact (htail hr (by decide)).2
  · rename_i hr
    split at hn
    · rename_i hb
      cases hn
      exact (htail hr (by rw [isSpace, hb, Bool.or_true])).2
    · cases hn
  · cases hn

include hafter in
theorem Within.run {fuel : Nat} {c d : Cursor} {piece : List Char} {escaped : Bool}
    (h : Within quote after c.rest)
    (hr : Yaml.Quoted.run quote fuel c = some (piece, escaped, d)) : Within quote after d.rest := by
  induction fuel generalizing c piece with
  | zero => cases hr
  | succ fuel ih =>
    have hpush {x : Char} {n : Nat} {q : List Char} (hq : c.rest.drop n = q)
        (h : Within quote after q)
        (hr : Yaml.Quoted.push x (Yaml.Quoted.run quote fuel (c.skip n)) =
          some (piece, escaped, d)) : Within quote after d.rest := by
      obtain ⟨⟨piece', _⟩, hr, he⟩ := Option.map_eq_some_iff.1 hr
      cases he
      refine ih ?_ hr
      rw [Cursor.skip, hq]
      exact h
    rw [Yaml.Quoted.run] at hr
    split at hr
    · cases hr
      exact h
    rename_i ch r hrest
    have hrest' := h
    rw [hrest] at hrest'
    split at hr
    · cases hr
      exact h
    split at hr
    · -- two apostrophes would end the text before another one
      rename_i _ htwo
      simp only [Bool.and_eq_true, beq_iff_eq] at htwo
      obtain ⟨⟨rfl, rfl⟩, htwo⟩ := htwo
      rw [hrest'.close, hafter rfl] at htwo
      cases htwo
    split at hr
    · cases hr
      exact h
    rename_i hne
    split at hr
    · rename_i hesc
      simp only [Bool.and_eq_true, beq_iff_eq] at hesc
      obtain ⟨rfl, rfl⟩ := hesc
      obtain ⟨x, r', hx, hin⟩ := hrest'.escaped
      obtain ⟨e, q, rfl, hbreak, hcode⟩ := escape?_eq_some hx
      rw [startsWith, hbreak, if_neg Bool.false_ne_true] at hr
      obtain ⟨_, he, hr⟩ := Option.bind_eq_some_iff.1 hr
      cases he
      obtain ⟨⟨y, hy⟩, rfl⟩ | ⟨hnone, n, hn, rfl⟩ := hcode
      · rw [hy] at hr
        exact hpush (by rw [hrest]; rfl) hin hr
      · rw [hnone] at hr
        obtain ⟨_, hn', hr⟩ := Option.bind_eq_some_iff.1 hr
        cases hn.symm.trans hn'
        obtain ⟨y, -, hr⟩ := Option.bind_eq_some_iff.1 hr
        exact hpush (by rw [hrest, Nat.add_comm]; rfl) hin hr
    · rename_i hesc
      have htail := hrest'.ordinary (by simpa using hne) (by simpa [and_comm] using hesc)
      exact hpush (by rw [hrest]; rfl) htail.2 hr

theorem Within.gap {edge fuel : Nat} {g g' : Yaml.Gap} {c d : Cursor}
    (h : Within quote after c.rest) (hg : Yaml.Gap.read edge fuel g c = some (g', d)) :
    Within quote after d.rest := by
  induction fuel generalizing g c with
  | zero => cases hg
  | succ fuel ih =>
    rw [Yaml.Gap.read] at hg
    split at hg
    · rename_i b e hn
      exact ih (Within.newline hquote h hn) hg
    · split at hg
      · rename_i ch r hrest
        have hrest' := h
        rw [hrest] at hrest'
        split at hg
        · cases hg
          exact h
        rename_i hblank
        rw [Bool.not_eq_true', Bool.not_eq_false] at hblank
        have htail : Within quote after (c.rest.drop 1) := by
          rw [hrest]
          exact (Within.space hquote hrest' (by rw [isSpace, hblank]; rfl)).2
        split at hg
        · split at hg
          · cases hg
          · exact ih htail hg
        · exact ih htail hg
      · cases hg
        exact h

include hafter in
theorem Within.read {fuel : Nat} {text t : List Char} {c d : Cursor}
    (h : Within quote after c.rest) (hr : Yaml.Quoted.read quote fuel text c = some (t, d)) :
    d.rest = after ∧ 0 < d.column := by
  induction fuel generalizing text c with
  | zero => cases hr
  | succ fuel ih =>
    rw [Yaml.Quoted.read] at hr
    split at hr
    · cases hr
    obtain ⟨⟨piece, escaped, e⟩, hrun, hr⟩ := Option.bind_eq_some_iff.1 hr
    have he := Within.run hquote hafter h hrun
    dsimp only at hr
    split at hr
    · rename_i hclose
      cases hr
      match hrest : e.rest, he, hclose with
      | ch :: r, he, hclose =>
        obtain rfl : ch = quote := beq_iff_eq.1 hclose
        refine ⟨?_, Nat.succ_pos _⟩
        rw [Cursor.skip, hrest]
        exact he.close
    · obtain ⟨⟨gap, f⟩, hgap, hr⟩ := Option.bind_eq_some_iff.1 hr
      exact ih (Within.gap hquote he hgap) hr

end Reading

end Reprieve.Toml
