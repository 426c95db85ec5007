import Reprieve.Proofs.Outcomes
import Reprieve.Yaml.Token

/-! Tokens that stay. A token comes behind those that are there, unless a colon makes a key of
what stands before it. So the first tokens of a text stay where they are once no pending key
begins among them; while the first token of all may still become a key, the marks of a key are
the only ones that can come before it. -/
namespace Reprieve.Yaml.Scan

/-! ### What one token is made from -/

/-- How the next token comes about, by the characters at the cursor. -/
inductive Fetched (s s' : Scan) : Prop
  | directive (h : startsWith (· == '%') s.cursor.rest = true) (hs : s.directive = some s')
  | documentMark (o : Scan) (h : s.cursor.atDocumentMark = true) (ho : s.outside = some o)
    (hs : s' = (o.skip 3).emit
      (if startsWith (· == '-') s.cursor.rest then .documentStart else .documentEnd))
  | openList (r : List Char) (h : s.cursor.rest = '[' :: r) (hs : s.openFlow .flowList = some s')
  | openMapping (r : List Char) (h : s.cursor.rest = '\x7b' :: r)
    (hs : s.openFlow .flowMapping = some s')
  | closeList (r : List Char) (h : s.cursor.rest = ']' :: r)
    (hs : s.closeFlow .flowListEnd = some s')
  | closeMapping (r : List Char) (h : s.cursor.rest = '\x7d' :: r)
    (hs : s.closeFlow .flowMappingEnd = some s')
  | flowEntry (r : List Char) (h : s.cursor.rest = ',' :: r) (hs : s.flowEntry = some s')
  | aliased (r : List Char) (h : s.cursor.rest = '*' :: r) (hs : s.anchor .alias = some s')
  | anchor (r : List Char) (h : s.cursor.rest = '&' :: r) (hs : s.anchor .anchor = some s')
  | tag (r : List Char) (h : s.cursor.rest = '!' :: r) (hs : s.tag = some s')
  | quoted (q : Char) (r : List Char) (hq : q = '\'' ∨ q = '"') (h : s.cursor.rest = q :: r)
    (hs : s.quoted q = some s')
  | blockEntry (r : List Char) (h : s.cursor.rest = '-' :: r) (hr : atSpace r = true)
    (hs : s.indicator .blockList .blockEntry = some s')
  | key (r : List Char) (h : s.cursor.rest = '?' :: r) (hr : s.flow = true ∨ atSpace r = true)
    (hs : s.indicator .blockMapping .key = some s')
  | value (r : List Char) (h : s.cursor.rest = ':' :: r) (hr : s.flow = true ∨ atSpace r = true)
    (hs : s.value = some s')
  | block (folded : Bool) (c : Char) (r : List Char) (hc : c = '|' ∨ c = '>')
    (h : s.cursor.rest = c :: r) (hs : s.block folded = some s')
  | plain (hm : s.cursor.atDocumentMark = false)
    (hn : ∀ r, s.cursor.rest = '-' :: r → atSpace r = false)
    (h : startsPlain s.flow s.cursor.rest = true) (hs : s.plain = some s')

theorem eq_some_of_map {o : Option Scan} {s : Scan} {last : Bool}
    (h : o.map (·, false) = some (s, last)) : last = false ∧ o = some s := by
  obtain ⟨t, rfl, ht⟩ := Option.map_eq_some_iff.1 h
  cases ht
  exact ⟨rfl, rfl⟩

/-- A scan ends at the end of the text, and before it every step fetches a token. -/
theorem next_eq_some {s s' : Scan} {last : Bool} (h : s.next = some (s', last)) :
    ∃ t, (s.toNextToken (s.cursor.size + 1)).dropStaleKeys = some t ∧
      (last = true ∧ (t.closeTo t.cursor.column).cursor.rest = [] ∧
          (t.closeTo t.cursor.column).streamEnd = some s' ∨
        last = false ∧ (t.closeTo t.cursor.column).Fetched s') := by
  rw [next] at h
  obtain ⟨t, ht, h⟩ := Option.bind_eq_some_iff.1 h
  refine ⟨t, ht, ?_⟩
  generalize t.closeTo t.cursor.column = u at h ⊢
  dsimp only at h
  by_cases hend : u.cursor.rest.isEmpty = true
  · rw [if_pos hend] at h
    obtain ⟨o, ho, h⟩ := Option.bind_eq_some_iff.1 h
    cases h
    exact .inl ⟨rfl, List.isEmpty_iff.1 hend, ho⟩
  rw [if_neg hend] at h
  refine .inr ?_
  by_cases hd : (u.cursor.column == 0 && startsWith (· == '%') u.cursor.rest) = true
  · rw [if_pos hd] at h
    obtain ⟨rfl, hs⟩ := eq_some_of_map h
    exact ⟨rfl, .directive (Bool.and_eq_true_iff.1 hd).2 hs⟩
  rw [if_neg hd] at h
  by_cases hm : u.cursor.atDocumentMark = true
  · rw [if_pos hm] at h
    obtain ⟨rfl, hs⟩ := eq_some_of_map h
    obtain ⟨o, ho, hs⟩ := Option.bind_eq_some_iff.1 hs
    exact ⟨rfl, .documentMark o hm ho (Option.some.inj hs).symm⟩
  rw [if_neg hm] at h
  split at h
  case h_1 r hr =>
    obtain ⟨rfl, hs⟩ := eq_some_of_map h
    exact ⟨rfl, .openList r hr hs⟩
  case h_2 r hr =>
    obtain ⟨rfl, hs⟩ := eq_some_of_map h
    exact ⟨rfl, .openMapping r hr hs⟩
  case h_3 r hr =>
    obtain ⟨rfl, hs⟩ := eq_some_of_map h
    exact ⟨rfl, .closeList r hr hs⟩
  case h_4 r hr =>
    obtain ⟨rfl, hs⟩ := eq_some_of_map h
    exact ⟨rfl, .closeMapping r hr hs⟩
  case h_5 r hr =>
    obtain ⟨rfl, hs⟩ := eq_some_of_map h
    exact ⟨rfl, .flowEntry r hr hs⟩
  case h_6 r hr =>
    obtain ⟨rfl, hs⟩ := eq_some_of_map h
    exact ⟨rfl, .aliased r hr hs⟩
  case h_7 r hr =>
    obtain ⟨rfl, hs⟩ := eq_some_of_map h
    exact ⟨rfl, .anchor r hr hs⟩
  case h_8 r hr =>
    obtain ⟨rfl, hs⟩ := eq_some_of_map h
    exact ⟨rfl, .tag r hr hs⟩
  case h_9 r hr =>
    obtain ⟨rfl, hs⟩ := eq_some_of_map h
    exact ⟨rfl, .quoted _ r (.inl rfl) hr hs⟩
  case h_10 r hr =>
    obtain ⟨rfl, hs⟩ := eq_some_of_map h
    exact ⟨rfl, .quoted _ r (.inr rfl) hr hs⟩
  case h_11 c r _ _ _ _ _ _ _ _ _ _ hr =>
    rw [hr, List.drop_one, List.tail_cons] at h
    by_cases hentry : (c == '-' && atSpace r) = true
    · rw [if_pos hentry] at h
      rw [Bool.and_eq_true, beq_iff_eq] at hentry
      obtain ⟨rfl, hs⟩ := eq_some_of_map h
      exact ⟨rfl, .blockEntry r (hentry.1 ▸ hr) hentry.2 hs⟩
    rw [if_neg hentry] at h
    by_cases hkey : (c == '?' && (u.flow || atSpace r)) = true
    · rw [if_pos hkey] at h
      rw [Bool.and_eq_true, Bool.or_eq_true, beq_iff_eq] at hkey
      obtain ⟨rfl, hs⟩ := eq_some_of_map h
      exact ⟨rfl, .key r (hkey.1 ▸ hr) hkey.2 hs⟩
    rw [if_neg hkey] at h
    by_cases hvalue : (c == ':' && (u.flow || atSpace r)) = true
    · rw [if_pos hvalue] at h
      rw [Bool.and_eq_true, Bool.or_eq_true, beq_iff_eq] at hvalue
      obtain ⟨rfl, hs⟩ := eq_some_of_map h
      exact ⟨rfl, .value r (hvalue.1 ▸ hr) hvalue.2 hs⟩
    rw [if_neg hvalue] at h
    by_cases hliteral : (c == '|' && !u.flow) = true
    · rw [if_pos hliteral] at h
      rw [Bool.and_eq_true, beq_iff_eq] at hliteral
      obtain ⟨rfl, hs⟩ := eq_some_of_map h
      exact ⟨rfl, .block false c r (.inl hliteral.1) hr hs⟩
    rw [if_neg hliteral] at h
    by_cases hfolded : (c == '>' && !u.flow) = true
    · rw [if_pos hfolded] at h
      rw [Bool.and_eq_true, beq_iff_eq] at hfolded
      obtain ⟨rfl, hs⟩ := eq_some_of_map h
      exact ⟨rfl, .block true c r (.inr hfolded.1) hr hs⟩
    rw [if_neg hfolded] at h
    by_cases hplain : startsPlain u.flow (c :: r) = true
    · rw [if_pos hplain] at h
      obtain ⟨rfl, hs⟩ := eq_some_of_map h
      refine ⟨rfl, .plain (Bool.eq_false_iff.2 hm) (fun q hq => ?_) (hr ▸ hplain) hs⟩
      rw [hr] at hq
      cases hq
      simpa using hentry
    · rw [if_neg hplain] at h
      cases h
  case h_12 => cases h

/-! ### Tokens that stay -/

/-- Where pending keys begin: behind the first `n` tokens. The one of the block around, which
stands last, may be the first token of all if it is free to. -/
def Behind (n : Nat) (free : Prop) : List (Option PendingKey) → Prop
  | [] => True
  | [b] => ∀ k, b = some k → n ≤ k.number ∨ free ∧ k.number = 0
  | o :: o' :: ks => (∀ k, o = some k → n ≤ k.number) ∧ Behind n free (o' :: ks)

section Behind
variable {n : Nat} {free : Prop} {o : Option PendingKey} {ks ks' : List (Option PendingKey)}

theorem Behind.tail (h : Behind n free ks) : Behind n free ks.tail := by
  match ks, h with
  | [], h => exact h
  | [b], h => trivial
  | o :: o' :: ks, h => exact h.2

theorem Behind.cons (h : Behind n free ks) (ho : ∀ k, o = some k → n ≤ k.number) :
    Behind n free (o :: ks) := by
  cases ks with
  | nil => exact fun k hk => .inl (ho k hk)
  | cons o' ks => exact ⟨ho, h⟩

theorem Behind.dropped (h : Behind n free ks)
    (hd : List.Forall₂ (fun o o' => o' = none ∨ o' = o) ks ks') : Behind n free ks' := by
  induction hd with
  | nil => trivial
  | @cons o o' ks ks' ho hks ih =>
    cases hks with
    | nil =>
      intro k hk
      obtain rfl | rfl := ho
      · cases hk
      · exact h k hk
    | cons =>
      refine (ih h.2).cons fun k hk => ?_
      obtain rfl | rfl := ho
      · cases hk
      · exact h.1 k hk

end Behind

/-- The tokens in `base`, which stand latest first, came before all others and stay there. -/
structure Keeps (base : List Token) (free : Prop) (s : Scan) : Prop where
  first : base <:+ s.tokens
  counted : s.count = s.tokens.length
  keys : Behind base.length free s.keys

section Keeps
variable {base : List Token} {free : Prop} {s s' : Scan}

theorem Keeps.moved (h : Keeps base free s) (ht : s'.tokens = s.tokens)
    (hc : s'.count = s.count) (hk : s'.keys = s.keys) : Keeps base free s' :=
  ⟨ht ▸ h.first, by rw [hc, ht, h.counted], hk ▸ h.keys⟩

theorem Keeps.emit (h : Keeps base free s) (t : Token) : Keeps base free (s.emit t) :=
  ⟨h.first.trans (List.suffix_cons t _), congrArg (· + 1) h.counted, h.keys⟩

theorem Keeps.emitted (h : Keeps base free s) (t : Token) (ht : s'.tokens = s.tokens)
    (hc : s'.count = s.count) (hk : s'.keys = s.keys) :
    Keeps base free (s'.emit t) :=
  (h.moved ht hc hk).emit t

theorem counted_emitAt (hc : s.count = s.tokens.length) (n : Nat) (t : Token) :
    (s.emitAt n t).count = (s.emitAt n t).tokens.length := by
  simp only [Scan.emitAt, hc, List.length_append, List.length_cons, List.length_take,
    List.length_drop]
  omega

theorem Keeps.emitAt (h : Keeps base free s) {n : Nat} (hn : base.length ≤ n) (t : Token) :
    Keeps base free (s.emitAt n t) := by
  obtain ⟨later, hl⟩ := h.first
  have hcount : s.count = later.length + base.length := by
    rw [h.counted, ← hl, List.length_append]
  have hdrop : s.tokens.drop (s.count - n) = later.drop (s.count - n) ++ base := by
    rw [← hl, List.drop_append_of_le_length (by omega)]
  refine ⟨⟨s.tokens.take (s.count - n) ++ t :: later.drop (s.count - n), ?_⟩,
    counted_emitAt h.counted n t, h.keys⟩
  simp [Scan.emitAt, hdrop]

theorem Keeps.setKey (h : Keeps base free s) {o : Option PendingKey}
    (ho : ∀ k, o = some k → base.length ≤ k.number) : Keeps base free (s.setKey o) :=
  ⟨h.first, h.counted, h.keys.tail.cons ho⟩

theorem Keeps.dropKey (h : Keeps base free s) (hs : s.dropKey = some s') : Keeps base free s' := by
  rw [Scan.dropKey] at hs
  split at hs
  · split at hs
    · cases hs
    · cases hs
      exact h.setKey nofun
  · cases hs
    exact h

theorem Keeps.length_le (h : Keeps base free s) : base.length ≤ s.count :=
  h.counted ▸ h.first.length_le

theorem Keeps.saveKey (h : Keeps base free s) (hs : s.saveKey = some s') : Keeps base free s' := by
  rw [Scan.saveKey] at hs
  split at hs
  · cases hs
    exact h
  · obtain ⟨t, ht, rfl⟩ := Option.map_eq_some_iff.1 hs
    refine (h.dropKey ht).setKey fun k hk => ?_
    cases hk
    exact h.length_le

theorem Keeps.dropStaleKeys (h : Keeps base free s) (hs : s.dropStaleKeys = some s') :
    Keeps base free s' := by
  obtain ⟨ks, hks, hs⟩ := Option.bind_eq_some_iff.1 hs
  cases hs
  refine ⟨h.first, h.counted, h.keys.dropped ?_⟩
  refine (mapM_eq_some_iff_forall₂.1 hks).imp fun o o' ho => ?_
  cases o with
  | none => exact .inl (Option.some.inj ho).symm
  | some k =>
    simp only at ho
    split at ho
    · split at ho
      · cases ho
      · exact .inl (Option.some.inj ho).symm
    · exact .inr (Option.some.inj ho).symm

theorem Keeps.closeTo (h : Keeps base free s) (column : Int) :
    Keeps base free (s.closeTo column) := by
  rw [Scan.closeTo]
  split
  · exact h
  · rename_i hflow
    clear hflow
    generalize s.indents = is
    induction is generalizing s with
    | nil => exact h
    | cons i is ih =>
      rw [closeTo.go]
      split
      · exact ih ((h.emit .blockEnd).moved rfl rfl rfl)
      · exact h

theorem Keeps.openTo (h : Keeps base free s) (column : Nat) (t : Token) :
    Keeps base free (s.openTo column none t) := by
  rw [Scan.openTo]
  split
  · exact h
  · exact h.emitted t rfl rfl rfl

theorem Keeps.openTo_at (h : Keeps base free s) (column : Nat) {n : Nat} (hn : base.length ≤ n)
    (t : Token) : Keeps base free (s.openTo column (some n) t) := by
  rw [Scan.openTo]
  split
  · exact h
  · have hmoved : Keeps base free { s with indent := column, indents := s.indent :: s.indents } :=
      h.moved rfl rfl rfl
    exact hmoved.emitAt hn t

theorem Keeps.outside (h : Keeps base free s) (hs : s.outside = some s') :
    Keeps base free s' := by
  obtain ⟨t, ht, hs⟩ := Option.bind_eq_some_iff.1 hs
  cases hs
  have hk := (h.closeTo (-1)).dropKey ht
  exact ⟨hk.first, hk.counted, hk.keys⟩

theorem Keeps.streamEnd (h : Keeps base free s) (hs : s.streamEnd = some s') :
    Keeps base free s' := by
  obtain ⟨t, ht, hs⟩ := Option.bind_eq_some_iff.1 hs
  cases hs
  exact (h.outside ht).emit _

theorem Keeps.openFlow (h : Keeps base free s) {t : Token} (hs : s.openFlow t = some s') :
    Keeps base free s' := by
  obtain ⟨u, hu, hs⟩ := Option.bind_eq_some_iff.1 hs
  cases hs
  have hk := h.saveKey hu
  refine Keeps.emit ?_ t
  exact ⟨hk.first, hk.counted, hk.keys.cons fun _ he => nomatch he⟩

theorem Keeps.closeFlow (h : Keeps base free s) {t : Token} (hs : s.closeFlow t = some s') :
    Keeps base free s' := by
  obtain ⟨u, hu, hs⟩ := Option.bind_eq_some_iff.1 hs
  cases hs
  have hk := h.dropKey hu
  refine Keeps.emit ?_ t
  refine ⟨hk.first, hk.counted, ?_⟩
  change Behind _ _ (if u.flow then u.keys.tail else u.keys)
  split
  · exact hk.keys.tail
  · exact hk.keys

theorem Keeps.flowEntry (h : Keeps base free s) (hs : s.flowEntry = some s') :
    Keeps base free s' := by
  obtain ⟨t, ht, hs⟩ := Option.bind_eq_some_iff.1 hs
  cases hs
  have hk := h.dropKey ht
  exact hk.emitted _ rfl rfl rfl

theorem Keeps.indicator (h : Keeps base free s) {block token : Token}
    (hs : s.indicator block token = some s') : Keeps base free s' := by
  rw [Scan.indicator] at hs
  split at hs
  · cases hs
  · obtain ⟨t, ht, hs⟩ := Option.bind_eq_some_iff.1 hs
    cases hs
    have hk := (h.openTo s.cursor.column block).dropKey ht
    exact hk.emitted token rfl rfl rfl

theorem Keeps.tag (h : Keeps base free s) (hs : s.tag = some s') : Keeps base free s' := by
  obtain ⟨t, ht, hs⟩ := Option.bind_eq_some_iff.1 hs
  obtain ⟨⟨handle, suffix, r⟩, -, hs⟩ := Option.bind_eq_some_iff.1 hs
  have hk := h.saveKey ht
  dsimp only at hs
  split at hs
  · cases hs
    exact hk.emitted _ rfl rfl rfl
  · cases hs

theorem Keeps.anchor (h : Keeps base free s) {token : List Char → Token}
    (hs : s.anchor token = some s') : Keeps base free s' := by
  obtain ⟨t, ht, hs⟩ := Option.bind_eq_some_iff.1 hs
  have hk := h.saveKey ht
  dsimp only at hs
  split at hs
  · cases hs
  · cases hs
    exact hk.emitted _ rfl rfl rfl

theorem Keeps.block (h : Keeps base free s) {folded : Bool} (hs : s.block folded = some s') :
    Keeps base free s' := by
  obtain ⟨t, ht, hs⟩ := Option.bind_eq_some_iff.1 hs
  obtain ⟨⟨text, c⟩, -, hs⟩ := Option.bind_eq_some_iff.1 hs
  cases hs
  have hk := h.dropKey ht
  exact hk.emitted _ rfl rfl rfl

theorem Keeps.quoted (h : Keeps base free s) {q : Char} (hs : s.quoted q = some s') :
    Keeps base free s' := by
  obtain ⟨t, ht, hs⟩ := Option.bind_eq_some_iff.1 hs
  obtain ⟨⟨text, c⟩, -, hs⟩ := Option.bind_eq_some_iff.1 hs
  cases hs
  have hk := h.saveKey ht
  exact hk.emitted _ rfl rfl rfl

theorem Keeps.plain (h : Keeps base free s) (hs : s.plain = some s') : Keeps base free s' := by
  obtain ⟨t, ht, hs⟩ := Option.bind_eq_some_iff.1 hs
  obtain ⟨⟨text, broken, c⟩, -, hs⟩ := Option.bind_eq_some_iff.1 hs
  cases hs
  have hk := h.saveKey ht
  exact hk.emitted _ rfl rfl rfl

theorem Keeps.directive (h : Keeps base free s) (hs : s.directive = some s') :
    Keeps base free s' := by
  obtain ⟨t, ht, hs⟩ := Option.bind_eq_some_iff.1 hs
  have hk := h.outside ht
  dsimp only at hs
  split at hs
  · cases hs
  · obtain ⟨⟨token, r⟩, -, hs⟩ := Option.bind_eq_some_iff.1 hs
    obtain ⟨c, -, hs⟩ := Option.bind_eq_some_iff.1 hs
    cases hs
    exact hk.emitted _ rfl rfl rfl

/-! ### Keys that turn out late -/

/-- What may come before the first token, latest first: the marks of a key that begins there. -/
inductive KeyMarks : List Token → Prop
  | key : KeyMarks [.key]
  | mapping : KeyMarks [.key, .blockMapping]

/-- The tokens stay first, or marks of a key come before them and from then on stay first too. -/
def Settles (base : List Token) (free : Prop) (s : Scan) : Prop :=
  Keeps base free s ∨ free ∧ ∃ marks, KeyMarks marks ∧ Keeps (base ++ marks) False s

theorem tokens_emitAt_zero (hc : s.count = s.tokens.length) (t : Token) :
    (s.emitAt 0 t).tokens = s.tokens ++ [t] := by
  simp [Scan.emitAt, hc]

/-- The first token of all becomes a key, and a block opens with it unless one has. -/
theorem Keeps.marked (h : Keeps base free s) {o : Option PendingKey} (hk : s.keys = [o])
    (column : Nat) : ∃ marks, KeyMarks marks ∧ Keeps (base ++ marks) False
      (((s.emitAt 0 .key).openTo column (some 0) .blockMapping).setKey none) := by
  have hc := counted_emitAt h.counted 0 .key
  have hkey : base ++ [.key] <:+ (s.emitAt 0 .key).tokens := by
    rw [tokens_emitAt_zero h.counted]
    exact List.suffix_append_self_iff.2 h.first
  have hmapping (u : Scan) (ht : u.tokens = (s.emitAt 0 .key).tokens)
      (hu : u.count = u.tokens.length) :
      base ++ [.key, .blockMapping] <:+ (u.emitAt 0 .blockMapping).tokens := by
    rw [tokens_emitAt_zero hu, ht, List.append_cons]
    exact List.suffix_append_self_iff.2 hkey
  have hkeys (u : Scan) (hu : u.keys = s.keys) (n : Nat) : Behind n False (u.setKey none).keys := by
    rw [Scan.setKey, hu, hk]
    exact fun _ he => nomatch he
  rw [Scan.openTo]
  split
  · exact ⟨_, .key, hkey, hc, hkeys _ rfl _⟩
  · exact ⟨_, .mapping, hmapping _ rfl hc, counted_emitAt hc 0 .blockMapping, hkeys _ rfl _⟩

theorem Keeps.value (h : Keeps base free s) (hs : s.value = some s') : Settles base free s' := by
  rw [Scan.value] at hs
  split at hs
  · rename_i k hk
    cases hs
    obtain ⟨ks, hks⟩ : ∃ ks, s.keys = some k :: ks := by
      cases hkeys : s.keys with
      | nil => simp [hkeys] at hk
      | cons o ks => exact ⟨ks, by simpa [hkeys] using hk⟩
    have hnumber : base.length ≤ k.number ∨ (free ∧ k.number = 0) ∧ ks = [] := by
      have hb := h.keys
      rw [hks] at hb
      cases ks with
      | nil => exact (hb k rfl).imp_right fun hf => ⟨hf, rfl⟩
      | cons => exact .inl (hb.1 k rfl)
    rcases hnumber with hn | ⟨⟨hfree, hzero⟩, rfl⟩
    · have hopen := ((h.emitAt hn .key).openTo_at k.column hn .blockMapping).setKey
        (o := none) fun _ he => nomatch he
      exact .inl (hopen.emitted _ rfl rfl rfl)
    · rw [hzero]
      obtain ⟨marks, hmarks, hk⟩ := h.marked hks k.column
      exact .inr ⟨hfree, marks, hmarks, hk.emitted _ rfl rfl rfl⟩
  · split at hs
    · cases hs
    · cases hs
      exact .inl ((h.openTo s.cursor.column .blockMapping).emitted _ rfl rfl rfl)

/-! ### A step and a run -/

theorem Keeps.fetched (h : Keeps base free s) (hf : s.Fetched s') : Settles base free s' := by
  cases hf with
  | directive _ hs => exact .inl (h.directive hs)
  | documentMark o _ ho hs => exact .inl (hs ▸ (h.outside ho).emitted _ rfl rfl rfl)
  | openList _ _ hs => exact .inl (h.openFlow hs)
  | openMapping _ _ hs => exact .inl (h.openFlow hs)
  | closeList _ _ hs => exact .inl (h.closeFlow hs)
  | closeMapping _ _ hs => exact .inl (h.closeFlow hs)
  | flowEntry _ _ hs => exact .inl (h.flowEntry hs)
  | aliased _ _ hs => exact .inl (h.anchor hs)
  | anchor _ _ hs => exact .inl (h.anchor hs)
  | tag _ _ hs => exact .inl (h.tag hs)
  | quoted _ _ _ _ hs => exact .inl (h.quoted hs)
  | blockEntry _ _ _ hs => exact .inl (h.indicator hs)
  | key _ _ _ hs => exact .inl (h.indicator hs)
  | value _ _ _ hs => exact h.value hs
  | block _ _ _ _ _ hs => exact .inl (h.block hs)
  | plain _ _ _ hs => exact .inl (h.plain hs)

theorem toNextToken_eq (fuel : Nat) (s : Scan) :
    ∃ c b, s.toNextToken fuel = { s with cursor := c, keyAllowed := b } := by
  induction fuel generalizing s with
  | zero => exact ⟨s.cursor, s.keyAllowed, rfl⟩
  | succ fuel ih =>
    rw [toNextToken]
    split
    · exact ih _
    · exact ⟨_, _, rfl⟩

theorem Keeps.toNextToken (h : Keeps base free s) (fuel : Nat) :
    Keeps base free (s.toNextToken fuel) := by
  obtain ⟨c, b, he⟩ := toNextToken_eq fuel s
  rw [he]
  exact h.moved rfl rfl rfl

theorem Keeps.next_of_fresh {last : Bool}
    (h : ∀ t, (s.toNextToken (s.cursor.size + 1)).dropStaleKeys = some t → Keeps base free t)
    (hs : s.next = some (s', last)) : Settles base free s' := by
  obtain ⟨t, ht, ⟨-, -, hend⟩ | ⟨-, hf⟩⟩ := next_eq_some hs
  · exact .inl (((h t ht).closeTo _).streamEnd hend)
  · exact ((h t ht).closeTo _).fetched hf

theorem Keeps.next (h : Keeps base free s) {last : Bool} (hs : s.next = some (s', last)) :
    Settles base free s' :=
  Keeps.next_of_fresh (fun _ ht => (h.toNextToken _).dropStaleKeys ht) hs

theorem Settles.next (h : Settles base free s) {last : Bool} (hs : s.next = some (s', last)) :
    Settles base free s' := by
  rcases h with h | ⟨hfree, marks, hmarks, h⟩
  · exact h.next hs
  · exact .inr ⟨hfree, marks, hmarks, (h.next hs).resolve_right fun hf => hf.1⟩

theorem Settles.first (h : Settles base free s) : base.reverse <+: s.tokens.reverse ∨
    free ∧ ∃ marks, KeyMarks marks ∧ (base ++ marks).reverse <+: s.tokens.reverse := by
  rcases h with h | ⟨hfree, marks, hmarks, h⟩
  · exact .inl (List.reverse_prefix.2 h.first)
  · exact .inr ⟨hfree, marks, hmarks, List.reverse_prefix.2 h.first⟩

end Keeps

theorem Settles.all {base : List Token} {free : Prop} {fuel : Nat} {s : Scan} {ts : List Token}
    (h : Settles base free s) (ha : s.all fuel = some ts) : base.reverse <+: ts ∨
      free ∧ ∃ marks, KeyMarks marks ∧ (base ++ marks).reverse <+: ts := by
  induction fuel generalizing s with
  | zero => cases ha
  | succ fuel ih =>
    rw [Scan.all] at ha
    split at ha
    · cases ha
    · rename_i hn
      cases ha
      exact (h.next hn).first
    · rename_i hn
      exact ih (h.next hn) ha

end Reprieve.Yaml.Scan
