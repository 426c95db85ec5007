import Reprieve.Proofs.Leads
import Reprieve.Proofs.QuotedKeys
import Reprieve.Proofs.Roots
import Reprieve.Proofs.Tokens

/-! The first tokens that YAML finds where the first entry of a TOML text stands. A header is a
list to it, a quoted key a scalar with another one behind, and a bare key a plain scalar that goes
on to the end of its line at least, unless dashes make a list or a document of it. No record
begins with any of these. -/
namespace Reprieve.Yaml.Scan
open Toml (skipBlanks)

/-! ### Scans without a record -/

/-- From here on a text comes to tokens that have no record at their root. -/
def Hopeless (s : Scan) : Prop := ∀ fuel ts, s.all fuel = some ts → Unrecorded ts

section Hopeless
variable {s : Scan}

theorem hopeless_of_next
    (hgo : ∀ s', s.next = some (s', false) → Hopeless s')
    (hend : ∀ s', s.next = some (s', true) → Unrecorded s'.tokens.reverse) : Hopeless s := by
  intro fuel ts h
  cases fuel with
  | zero => cases h
  | succ fuel =>
    rw [all] at h
    split at h
    · cases h
    · rename_i s' hn
      cases h
      exact hend s' hn
    · rename_i s' hn
      exact hgo s' hn fuel ts h

/-- Tokens that stay decide, and so they do with the marks of a key before them. -/
theorem Settles.hopeless {base : List Token} {free : Prop} (h : Settles base free s)
    (hb : Unrecorded base.reverse)
    (hm : free → Unrecorded (.blockMapping :: .key :: base.reverse)) : Hopeless s := by
  intro fuel ts ha
  rcases h.all ha with hp | ⟨hfree, marks, hmarks, hp⟩
  · exact hb.of_prefix hp
  · refine Unrecorded.of_prefix ?_ hp
    rw [List.reverse_append]
    cases hmarks with
    | key => exact .key _
    | mapping => exact hm hfree

end Hopeless

/-! ### Scans outside all blocks -/

/-- A scan outside all blocks, and the key that is pending there. -/
def flat (c : Cursor) (ts : List Token) (o : Option PendingKey) (b : Bool) : Scan :=
  { cursor := c, tokens := ts, count := ts.length, keys := [o], keyAllowed := b }

section Flat
variable {c d : Cursor} {ts base : List Token} {o : Option PendingKey} {b : Bool} {s : Scan}

theorem keeps_flat {free : Prop} (hb : base <:+ ts)
    (ho : ∀ k, o = some k → base.length ≤ k.number ∨ free ∧ k.number = 0) :
    Keeps base free (flat c ts o b) :=
  ⟨hb, rfl, ho⟩

theorem dropStaleKeys_flat {t : Scan} (h : (flat c ts o b).dropStaleKeys = some t) :
    ∃ o', t = flat c ts o' b ∧ (o' = none ∨ o' = o ∧ ∀ k, o = some k → c.line ≤ k.line) := by
  cases o with
  | none =>
    cases h
    exact ⟨none, rfl, .inl rfl⟩
  | some k =>
    obtain ⟨ks, hks, h⟩ := Option.bind_eq_some_iff.1 h
    cases h
    obtain ⟨o', ho', hks⟩ := Option.bind_eq_some_iff.1 hks
    cases hks
    refine ⟨o', rfl, ?_⟩
    dsimp only at ho'
    split at ho'
    · split at ho'
      · cases ho'
      · exact .inl (Option.some.inj ho').symm
    · rename_i hstale
      rw [PendingKey.isStale, Bool.or_eq_true, not_or, decide_eq_true_eq] at hstale
      refine .inr ⟨(Option.some.inj ho').symm, fun _ hk => ?_⟩
      cases hk
      exact Nat.le_of_not_lt hstale.1

theorem dropKey_flat (h : (flat c ts o b).dropKey = some s) : s = flat c ts none b := by
  cases o with
  | none =>
    cases h
    rfl
  | some k =>
    rw [dropKey] at h
    split at h
    · split at h
      · cases h
      · cases h
        rfl
    · rename_i hnone
      cases hnone

theorem outside_flat (h : (flat c ts o b).outside = some s) : s = flat c ts none false := by
  obtain ⟨t, ht, h⟩ := Option.bind_eq_some_iff.1 h
  cases h
  rw [dropKey_flat ht]
  rfl

theorem next_flat {last : Bool} (h : (flat c ts o b).next = some (s, last)) :
    ∃ d o' b', (flat c ts o b).toNextToken (c.size + 1) = flat d ts o b' ∧
      (o' = none ∨ o' = o ∧ ∀ k, o = some k → d.line ≤ k.line) ∧
      (last = true ∧ d.rest = [] ∧ s.tokens = .streamEnd :: ts ∨
        last = false ∧ (flat d ts o' b').Fetched s) := by
  obtain ⟨t, ht, h⟩ := next_eq_some h
  obtain ⟨d, b', hd⟩ := toNextToken_eq (c.size + 1) (flat c ts o b)
  change _ = flat d ts o b' at hd
  rw [show (flat c ts o b).cursor = c from rfl, hd] at ht
  obtain ⟨o', rfl, ho⟩ := dropStaleKeys_flat ht
  refine ⟨d, o', b', hd, ho, h.imp_left fun ⟨hlast, hrest, hend⟩ => ⟨hlast, hrest, ?_⟩⟩
  obtain ⟨u, hu, hs⟩ := Option.bind_eq_some_iff.1 hend
  cases hs
  rw [outside_flat hu]
  rfl

/-- The pending key after one is saved: it begins with the token to come, where keys may begin. -/
def Saved (c : Cursor) (ts : List Token) (b : Bool) (o o' : Option PendingKey) : Prop :=
  b = false ∧ o' = o ∨ b = true ∧ ∀ k, o' = some k → k.number = ts.length ∧ k.line = c.line

theorem Saved.first {k : PendingKey} (h : Saved c [] b none o) (hk : o = some k) :
    k.number = 0 ∧ k.line = c.line := by
  rcases h with ⟨-, rfl⟩ | ⟨-, h⟩
  · cases hk
  · exact h k hk

theorem saveKey_flat (h : (flat c ts o b).saveKey = some s) :
    ∃ o', s = flat c ts o' b ∧ Saved c ts b o o' := by
  cases b with
  | false =>
    cases h
    exact ⟨o, rfl, .inl ⟨rfl, rfl⟩⟩
  | true =>
    obtain ⟨t, ht, rfl⟩ := Option.map_eq_some_iff.1 h
    rw [dropKey_flat ht]
    refine ⟨some _, rfl, .inr ⟨rfl, fun k hk => ?_⟩⟩
    cases hk
    exact ⟨rfl, rfl⟩

theorem plain_flat (h : (flat c ts o b).plain = some s) :
    ∃ text broken d o', s = flat d (.scalar .plain text :: ts) o' broken ∧
      Plain.read false 0 (c.size + 1) [] {} c = some (text, broken, d) ∧
      Saved c ts b o o' := by
  obtain ⟨t, ht, h⟩ := Option.bind_eq_some_iff.1 h
  obtain ⟨o', rfl, ho⟩ := saveKey_flat ht
  obtain ⟨⟨text, broken, d⟩, hread, h⟩ := Option.bind_eq_some_iff.1 h
  cases h
  exact ⟨text, broken, d, o', rfl, hread, ho⟩

theorem quoted_flat {q : Char} (h : (flat c ts o b).quoted q = some s) :
    ∃ text d o', s = flat d (.scalar .quoted text :: ts) o' false ∧
      Quoted.read q (c.size + 1) [] (c.skip 1) = some (text, d) ∧
      Saved c ts b o o' := by
  obtain ⟨t, ht, h⟩ := Option.bind_eq_some_iff.1 h
  obtain ⟨o', rfl, ho⟩ := saveKey_flat ht
  obtain ⟨⟨text, d⟩, hread, h⟩ := Option.bind_eq_some_iff.1 h
  cases h
  exact ⟨text, d, o', rfl, hread, ho⟩

end Flat

/-! ### Tokens by their first character -/

/-- Marks with which nothing begins that TOML knows. -/
def foreignMarks : List Char := "%]\x7b\x7d,*&!?:|>".toList

section Fetched
variable {s s' : Scan} {x : Char} {r : List Char}

/-- The tokens that begin with other characters. -/
theorem Fetched.of_head (h : s.Fetched s') (hr : s.cursor.rest = x :: r) (hx : x ∉ foreignMarks) :
    x = '[' ∧ s.openFlow .flowList = some s' ∨
      (x = '\'' ∨ x = '"') ∧ s.quoted x = some s' ∨
      x = '-' ∧ s.indicator .blockList .blockEntry = some s' ∨
      s.cursor.atDocumentMark = true ∧ (∃ o, s.outside = some o ∧ s' = (o.skip 3).emit
        (if startsWith (· == '-') (x :: r) then .documentStart else .documentEnd)) ∨
      s.cursor.atDocumentMark = false ∧ startsPlain s.flow (x :: r) = true ∧ s.plain = some s' := by
  have hother {y : Char} {q : List Char} (hy : s.cursor.rest = y :: q) : y ∉ foreignMarks := by
    cases hr.symm.trans hy
    exact hx
  cases h with
  | directive h =>
    rw [hr] at h
    obtain rfl : x = '%' := beq_iff_eq.1 h
    exact absurd (by decide) hx
  | documentMark o hm ho hs => exact .inr (.inr (.inr (.inl ⟨hm, o, ho, hr ▸ hs⟩)))
  | openList _ h hs =>
    cases hr.symm.trans h
    exact .inl ⟨rfl, hs⟩
  | openMapping _ h => exact absurd (by decide) (hother h)
  | closeList _ h => exact absurd (by decide) (hother h)
  | closeMapping _ h => exact absurd (by decide) (hother h)
  | flowEntry _ h => exact absurd (by decide) (hother h)
  | aliased _ h => exact absurd (by decide) (hother h)
  | anchor _ h => exact absurd (by decide) (hother h)
  | tag _ h => exact absurd (by decide) (hother h)
  | quoted q _ hq h hs =>
    cases hr.symm.trans h
    exact .inr (.inl ⟨hq, hs⟩)
  | blockEntry _ h _ hs =>
    cases hr.symm.trans h
    exact .inr (.inr (.inl ⟨rfl, hs⟩))
  | key _ h => exact absurd (by decide) (hother h)
  | value _ h => exact absurd (by decide) (hother h)
  | block _ _ _ hc h => rcases hc with rfl | rfl <;> exact absurd (by decide) (hother h)
  | plain hm _ h hs => exact .inr (.inr (.inr (.inr ⟨hm, hr ▸ h, hs⟩)))

theorem not_startsPlain {flow : Bool} (hx : isSpace x = true ∨ x = '[' ∨ x = '\'' ∨ x = '"') :
    startsPlain flow (x :: r) = false := by
  rcases hx with hx | rfl | rfl | rfl
  · have hne (y : Char) (hy : isSpace y = false) : (x == y) = false := by
      rw [beq_eq_false_iff_ne]
      rintro rfl
      cases hx.symm.trans hy
    simp [startsPlain, hx, hne '-' rfl, hne '?' rfl, hne ':' rfl]
  all_goals cases flow <;> rfl

theorem Fetched.not_nil (h : s.Fetched s') : s.cursor.rest ≠ [] := by
  intro hr
  cases h with
  | directive h =>
    rw [hr] at h
    cases h
  | documentMark _ h => simp [Cursor.atDocumentMark, hr] at h
  | plain _ _ h =>
    rw [hr] at h
    cases h
  | quoted _ _ _ h => cases hr.symm.trans h
  | block _ _ _ _ h => cases hr.symm.trans h
  | _ _ h => cases hr.symm.trans h

end Fetched

/-! ### A sign behind a key -/

theorem column_le_pastBlanks (s : Scan) : s.cursor.column ≤ s.pastBlanks.column := by
  have hskip (c : Cursor) (n : Nat) : c.column ≤ (c.skip n).column := Nat.le_add_right _ _
  have hmark : s.cursor.column ≤ (afterMark s.cursor).column := by
    rw [afterMark]
    split
    · exact hskip _ _
    · exact Nat.le_refl _
  rw [pastBlanks]
  split
  · exact Nat.le_trans hmark (Nat.le_trans (hskip _ _) (hskip _ _))
  · exact Nat.le_trans hmark (hskip _ _)

section Sign
variable {c : Cursor} {ts : List Token} {o : Option PendingKey} {x : Char} {r : List Char}
  (hr : skipBlanks c.rest = x :: r) (hx : x = '.' ∨ x = '=')
include hr hx

/-- Where a point or an equals sign comes next, the scan comes to it on the same line. -/
theorem toNextToken_sign (fuel : Nat) (ts : List Token) (o : Option PendingKey) :
    ∃ d, d.rest = x :: r ∧ c.column ≤ d.column ∧
      (flat c ts o false).toNextToken (fuel + 1) = flat d ts o false := by
  have hsign : isBreak x = false ∧ x ≠ '#' ∧ x ≠ byteOrderMark := by
    rcases hx with rfl | rfl <;> decide
  have hmark : (afterMark c).rest = c.rest := by
    refine rest_afterMark_of_ne (Bool.eq_false_iff.2 fun hm => ?_)
    match hc : c.rest, hm with
    | y :: q, hm =>
      obtain rfl : y = byteOrderMark := beq_iff_eq.1 hm
      rw [hc] at hr
      cases hr
      exact hsign.2.2 rfl
  have hblank : (flat c ts o false).skipsBlank = Toml.isBlank := by
    funext y
    simp [skipsBlank, flat, flow, Toml.isBlank]
  have hrest : (flat c ts o false).pastBlanks.rest = x :: r := by
    have hr' : c.rest.dropWhile Toml.isBlank = x :: r := hr
    rw [rest_pastBlanks, show (flat c ts o false).cursor = c from rfl, hmark, hblank, hr']
    simp [startsWith, hsign.2.1]
  refine ⟨_, hrest, column_le_pastBlanks (flat c ts o false), ?_⟩
  rw [toNextToken_succ, Cursor.newline_eq_none_iff.2 (by rw [hrest]; exact hsign.1)]
  rfl

theorem next_sign {s : Scan} {last : Bool} (hc : 0 < c.column)
    (h : (flat c ts o false).next = some (s, last)) : last = false ∧ ∃ d text o' b, text ≠ [] ∧
      (o' = none ∨ o' = o) ∧ s = flat d (.scalar .plain text :: ts) o' b := by
  obtain ⟨d, hd, hcolumn, hnext⟩ := toNextToken_sign hr hx c.size ts o
  obtain ⟨d', o', b', hnext', ho, h⟩ := next_flat h
  cases hnext.symm.trans hnext'
  have hmark : d.atDocumentMark = false := Plain.atDocumentMark_of_column (by omega)
  rcases h with ⟨-, hend, -⟩ | ⟨rfl, hf⟩
  · cases hd.symm.trans hend
  have hforeign : x ∉ foreignMarks := by rcases hx with rfl | rfl <;> decide
  rcases hf.of_head hd hforeign with ⟨rfl, -⟩ | ⟨hq, -⟩ | ⟨rfl, -⟩ | ⟨hm, -⟩ | ⟨-, -, hs⟩
  · rcases hx with hx | hx <;> cases hx
  · rcases hx with rfl | rfl <;> rcases hq with hq | hq <;> cases hq
  · rcases hx with hx | hx <;> cases hx
  · cases hm.symm.trans hmark
  · obtain ⟨text, broken, e, o'', rfl, hread, ⟨-, rfl⟩ | ⟨hfalse, -⟩⟩ := plain_flat hs
    · refine ⟨rfl, e, text, o'', broken, ?_, ho.imp_right And.left, rfl⟩
      refine (Plain.reads_of_read hread).ne_nil hd hmark ?_
      rcases hx with rfl | rfl <;> decide
    · cases hfalse

end Sign

/-! ### The first entry -/

section Entry
variable {c d : Cursor} {b : Bool} {s : Scan} {r : List Char}

theorem hopeless_plain {line : Nat} {text : List Char} {o : Option PendingKey}
    (hover : Plain.Over line c) (ho : ∀ k, o = some k → k.line = line) (ht : text ≠ []) :
    Hopeless (flat c [.scalar .plain text] o b) := by
  refine hopeless_of_next (fun s hs => ?_) fun s hs => ?_
  · obtain ⟨d, o', b', hnext, ho', ⟨hlast, -⟩ | ⟨-, hf⟩⟩ := next_flat hs
    · cases hlast
    have hlater : line < d.line := by
      have hover' := toNextToken_over (s := flat c [.scalar .plain text] o b) hover c.size
      rw [hnext] at hover'
      exact hover'.resolve_right hf.not_nil
    have hnone : ∀ k, o' = some k → False := by
      rintro k rfl
      obtain ⟨rfl, hline⟩ := ho'.resolve_left (Option.some_ne_none _)
      have := hline k rfl
      rw [ho k rfl] at this
      omega
    have hkeeps : Keeps [.scalar .plain text] False (flat d [.scalar .plain text] o' b') :=
      keeps_flat List.suffix_rfl fun k hk => (hnone k hk).elim
    exact (hkeeps.fetched hf).hopeless (.scalar (.inr ht) []) False.elim
  · obtain ⟨d, o', b', -, -, ⟨-, -, htokens⟩ | ⟨hlast, -⟩⟩ := next_flat hs
    · rw [htokens]
      exact .scalar (.inr ht) _
    · cases hlast

theorem hopeless_header (hf : (flat d [] none b).Fetched s) (hr : d.rest = '[' :: r) :
    Hopeless s := by
  rcases hf.of_head hr (by decide) with ⟨-, hs⟩ | ⟨hq, -⟩ | ⟨hdash, -⟩ | ⟨hm, -⟩ | ⟨-, hp, -⟩
  · obtain ⟨u, hu, hs⟩ := Option.bind_eq_some_iff.1 hs
    cases hs
    obtain ⟨o, rfl, ho⟩ := saveKey_flat hu
    have hkeys : ∀ k, o = some k → 1 ≤ k.number ∨ True ∧ k.number = 0 := fun k hk =>
      .inr ⟨trivial, (ho.first hk).1⟩
    refine Settles.hopeless (.inl (?_ : Keeps [.flowList] True _)) (.flowList _)
      fun _ => .mappedList _
    exact ⟨List.suffix_rfl, rfl, nofun, hkeys⟩
  · rcases hq with hq | hq <;> cases hq
  · cases hdash
  · have hd : d.atDocumentMark = true := hm
    simp [Cursor.atDocumentMark, hr] at hd
  · cases hp.symm.trans (not_startsPlain (.inr (.inl rfl)))

theorem hopeless_quoted {quote x : Char} {q q' : List Char} {key : List Char} {fuel : Nat}
    (hf : (flat d [] none b).Fetched s) (hquote : quote = '\'' ∨ quote = '"')
    (hr : d.rest = quote :: q) (hk : Toml.oneLine quote fuel q = some (key, q'))
    (hq : skipBlanks q' = x :: r) (hx : x = '.' ∨ x = '=') : Hopeless s := by
  have hforeign : quote ∉ foreignMarks := by rcases hquote with rfl | rfl <;> decide
  rcases hf.of_head hr hforeign with ⟨rfl, -⟩ | ⟨-, hs⟩ | ⟨rfl, -⟩ | ⟨hm, -⟩ | ⟨-, hp, -⟩
  · rcases hquote with hquote | hquote <;> cases hquote
  · obtain ⟨text, e, o, rfl, hread, ho⟩ := quoted_flat hs
    have hin : Toml.Within quote q' (d.skip 1).rest := by
      rw [Cursor.skip, hr]
      exact ⟨fuel, key, hk⟩
    have hafter (_ : quote = '\'') : startsWith (· == '\'') q' = false := by
      cases q' with
      | nil => rfl
      | cons y q' =>
        refine beq_eq_false_iff_ne.2 ?_
        rintro rfl
        cases hq
        rcases hx with hx | hx <;> cases hx
    obtain ⟨rfl, hcolumn⟩ := Toml.Within.read hquote hafter hin hread
    refine hopeless_of_next (fun s hs => ?_) fun s hs => ?_
    · obtain ⟨-, e', text', o', b', -, ho', rfl⟩ := next_sign hq hx hcolumn hs
      have hkeys : ∀ k, o' = some k → 2 ≤ k.number ∨ True ∧ k.number = 0 := by
        rintro k rfl
        obtain rfl := ho'.resolve_left (Option.some_ne_none _)
        exact .inr ⟨trivial, (ho.first rfl).1⟩
      have hfirst : Unrecorded [.scalar .quoted text, .scalar .plain text'] :=
        .scalar (.inl (by decide : Style.quoted ≠ .plain)) _
      exact Settles.hopeless (.inl (keeps_flat List.suffix_rfl hkeys)) hfirst
        fun _ => .mappedScalars _ _ _ _ _
    · cases (next_sign hq hx hcolumn hs).1
  · rcases hquote with hquote | hquote <;> cases hquote
  · have hd : d.atDocumentMark = true := hm
    rcases hquote with rfl | rfl <;> simp [Cursor.atDocumentMark, hr] at hd
  · cases hp.symm.trans (not_startsPlain (.inr (.inr hquote)))

theorem isBareChar_space {x : Char} (h : isSpace x = true) : Toml.isBareChar x = false := by
  simp only [isSpace, isBlank, isBreak, Bool.or_eq_true, beq_iff_eq] at h
  rcases h with (rfl | rfl) | (((rfl | rfl) | rfl) | rfl) | rfl <;> rfl

theorem hopeless_dash (hs : (flat d [] none b).indicator .blockList .blockEntry = some s) :
    Hopeless s := by
  rw [indicator] at hs
  split at hs
  · cases hs
  obtain ⟨t, ht, hs⟩ := Option.bind_eq_some_iff.1 hs
  cases hs
  have hopen : Keeps [.blockList] False ((flat d [] none b).openTo d.column none .blockList) := by
    have hright : ¬ (d.column : Int) ≤ -1 := by omega
    have hdeep : ((flat d [] none b).flow ||
        decide ((d.column : Int) ≤ (flat d [] none b).indent)) = false := decide_eq_false hright
    rw [openTo, if_neg (Bool.eq_false_iff.1 hdeep)]
    refine ⟨List.suffix_rfl, rfl, fun _ hk => ?_⟩
    cases hk
  exact Settles.hopeless (.inl ((hopen.dropKey ht).emitted .blockEntry rfl rfl rfl)) (.blockList _)
    False.elim

theorem dashes_of_mark {x : Char} (hm : d.atDocumentMark = true) (hr : d.rest = x :: r)
    (hx : Toml.isBareChar x = true) :
    ∃ q, d.rest = '-' :: '-' :: '-' :: q ∧ atSpace q = true := by
  rw [Cursor.atDocumentMark, Bool.and_eq_true] at hm
  obtain ⟨-, hm⟩ := hm
  split at hm
  · rename_i q hdashes
    exact ⟨q, hdashes, hm⟩
  · rename_i hpoints
    cases hr.symm.trans hpoints
    cases hx
  · cases hm

theorem hopeless_dashes {y : Char} {p q : List Char} (hr : d.rest = '-' :: '-' :: '-' :: p)
    (hp : atSpace p = true)
    (hq : skipBlanks (('-' :: '-' :: '-' :: p).dropWhile Toml.isBareChar) = y :: q)
    (hy : y = '.' ∨ y = '=') : Hopeless (flat (d.skip 3) [.documentStart] none false) := by
  have hstop : ('-' :: '-' :: '-' :: p).dropWhile Toml.isBareChar = p := by
    cases p with
    | nil => rfl
    | cons z p =>
      change (z :: p).dropWhile Toml.isBareChar = z :: p
      rw [List.dropWhile_cons_of_neg (by simp [isBareChar_space hp])]
  have hbehind : skipBlanks (d.skip 3).rest = y :: q := by
    rw [Cursor.skip, hr, ← hq, hstop]
    rfl
  refine hopeless_of_next (fun s hs => ?_) fun s hs => ?_
  · obtain ⟨-, e, text, o, b', htext, ho, rfl⟩ := next_sign hbehind hy (Nat.succ_pos _) hs
    have hnone : ∀ k, o = some k → 2 ≤ k.number ∨ False ∧ k.number = 0 := by
      rintro k rfl
      rcases ho with ho | ho <;> cases ho
    exact Settles.hopeless (.inl (keeps_flat List.suffix_rfl hnone)) (.started (.inr htext) [])
      False.elim
  · cases (next_sign hbehind hy (Nat.succ_pos _) hs).1

theorem hopeless_bare {x y : Char} {q : List Char} (hf : (flat d [] none b).Fetched s)
    (hr : d.rest = x :: r) (hx : Toml.isBareChar x = true) (hkeyed : keyed d.rest = false)
    (hq : skipBlanks (d.rest.dropWhile Toml.isBareChar) = y :: q) (hy : y = '.' ∨ y = '=') :
    Hopeless s := by
  have hbare (z : Char) (hz : Toml.isBareChar z = false) : x ≠ z := by
    rintro rfl
    cases hx.symm.trans hz
  have hmarks : foreignMarks.all (!Toml.isBareChar ·) = true := by decide
  have hforeign : x ∉ foreignMarks := fun hmem =>
    hbare x (by simpa using List.all_eq_true.1 hmarks x hmem) rfl
  rcases hf.of_head hr hforeign with
    ⟨rfl, -⟩ | ⟨hquote, -⟩ | ⟨-, hs⟩ | ⟨hm, o, ho, rfl⟩ | ⟨hm, -, hs⟩
  · cases hx
  · rcases hquote with rfl | rfl <;> cases hx
  · exact hopeless_dash hs
  · obtain rfl := outside_flat ho
    obtain ⟨q', hdashes, hspace⟩ := dashes_of_mark (d := d) hm hr hx
    rw [hdashes] at hq
    cases hr.symm.trans hdashes
    exact hopeless_dashes hdashes hspace hq hy
  · obtain ⟨text, broken, e, o, rfl, hread, ho⟩ := plain_flat hs
    have hreads := Plain.reads_of_read hread
    have hspace : isSpace x = false := Bool.eq_false_iff.2 fun hs =>
      Bool.false_ne_true ((isBareChar_space hs).symm.trans hx)
    have hfirst : Plain.Unkeyed d.line d :=
      ⟨Nat.le_refl _, fun _ => hm, fun _ => by rw [hr]; exact hspace, fun _ => .inr hkeyed⟩
    exact hopeless_plain (hreads.over hfirst) (fun _ hk => (ho.first hk).2)
      (hreads.ne_nil hr hm ⟨hspace, hbare _ rfl, hbare _ rfl⟩)

/-- No record begins where TOML finds an entry whose bare key, if it has one, is no key of YAML. -/
theorem hopeless_of_opening (hf : (flat d [] none b).Fetched s) (ho : Toml.Opening d.rest)
    (hkeyed : startsWith Toml.isBareChar d.rest = true → keyed d.rest = false) : Hopeless s := by
  generalize hr : d.rest = r at ho hkeyed
  cases ho with
  | header r => exact hopeless_header hf hr
  | key hk hq hx =>
    rw [Toml.simpleKey.eq_def] at hk
    split at hk
    · obtain ⟨⟨key, q⟩, hk, he⟩ := Option.map_eq_some_iff.1 hk
      cases he
      exact hopeless_quoted hf (.inr rfl) hr hk hq hx
    · obtain ⟨⟨key, q⟩, hk, he⟩ := Option.map_eq_some_iff.1 hk
      cases he
      exact hopeless_quoted hf (.inl rfl) hr hk hq hx
    · cases r with
      | nil => cases hk
      | cons x r =>
        cases hbare : Toml.isBareChar x with
        | false => simp [hbare] at hk
        | true =>
          have hword : ((x :: r).takeWhile Toml.isBareChar).isEmpty = false := by
            rw [List.takeWhile_cons_of_pos hbare]
            rfl
          simp only [hword, Bool.false_eq_true, if_false] at hk
          cases hk
          exact hopeless_bare hf hr hbare (by rw [hr]; exact hkeyed hbare) (by rw [hr]; exact hq) hx

theorem Fetched.not_tab (h : (flat d [] none b).Fetched s) :
    startsWith (· == '\t') d.rest = false := by
  rw [Bool.eq_false_iff]
  intro ht
  match hr : d.rest, ht with
  | x :: r, ht =>
    obtain rfl : x = '\t' := beq_iff_eq.1 ht
    rcases h.of_head hr (by decide) with ⟨hx, -⟩ | ⟨hx, -⟩ | ⟨hx, -⟩ | ⟨hm, -⟩ | ⟨-, hp, -⟩
    · cases hx
    · rcases hx with hx | hx <;> cases hx
    · cases hx
    · have hd : d.atDocumentMark = true := hm
      simp [Cursor.atDocumentMark, hr] at hd
    · cases hp.symm.trans (not_startsPlain (.inl rfl))

end Entry

/-- What YAML makes of a text that TOML reads: no token, or tokens of no record, or a fault. -/
theorem tokens_of_lines {cs text : List Char} {n : Nat} {d : Toml.Draft} {ts : List Token}
    (hcs : Toml.withoutMark text = cs) (hn : n = cs.length + 1) (hd : Toml.lines n {} cs = some d)
    (hfree : ∀ p, cs = p ++ Toml.skipLines n cs → ∀ c ∈ p, Toml.isForeignBreak c = false)
    (hkeyed : startsWith Toml.isBareChar (Toml.skipLines n cs) = true →
      keyed (Toml.skipLines n cs) = false)
    (h : Token.ofText? text = some ts) : ts = [.streamEnd] ∧ d = {} ∨ Unrecorded ts := by
  have hopening := Toml.opening_of_lines hd
  generalize hstart : flat { rest := text, size := text.length } [] none true = start
  have hall : start.all (text.length + 1) = some ts := by
    rw [← hstart]
    rw [Token.ofText?] at h
    split at h
    · exact h
    · cases h
  have hlead (e : Cursor) (b : Bool)
      (hnext : start.toNextToken (text.length + 1) = flat e [] none b) :
      e.rest = Toml.skipLines n cs ∨ startsWith (· == '\t') e.rest = true := by
    have hrest : (afterMark start.cursor).rest = cs := by
      rw [← hstart, Toml.rest_afterMark _ rfl]
      exact hcs
    have hlength : cs.length ≤ text.length := hcs ▸ Toml.length_withoutMark text
    have hto := Toml.toNextToken_lead (n := n) hrest (by omega) (m := text.length + 1) (by omega)
      (hopening.imp_left And.left) hfree
    rw [hnext] at hto
    exact hto
  rw [all] at hall
  split at hall
  · cases hall
  · rename_i s hs
    cases hall
    rw [← hstart] at hs
    obtain ⟨e, o, b, hnext, -, ⟨-, hend, htokens⟩ | ⟨hlast, -⟩⟩ := next_flat hs
    · rw [htokens]
      have hr := hlead e b (hstart ▸ hnext)
      rw [hend] at hr
      rcases hopening with ⟨-, hd⟩ | ho
      · exact .inl ⟨rfl, hd⟩
      · obtain ⟨c, r, hc, -⟩ := ho.head
        cases (hr.resolve_right Bool.false_ne_true).trans hc
    · cases hlast
  · rename_i s hs
    rw [← hstart] at hs
    obtain ⟨e, o, b, hnext, ho, ⟨hlast, -⟩ | ⟨-, hf⟩⟩ := next_flat hs
    · cases hlast
    obtain rfl : o = none := ho.elim id And.left
    have hr := (hlead e b (hstart ▸ hnext)).resolve_right (by simp [hf.not_tab])
    rw [← hr] at hopening hkeyed
    refine .inr (hopeless_of_opening hf (hopening.resolve_left fun h => ?_) hkeyed _ _ hall)
    exact hf.not_nil h.1

end Reprieve.Yaml.Scan
