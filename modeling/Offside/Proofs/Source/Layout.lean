import Mathlib.Data.List.Chain
import Mathlib.Data.List.TakeWhile
import Offside.Source.Scan
import Offside.Proofs.Grammar.Spelling

/-!
# The layout of token lists

Where lines and blocks begin and end is shown by tokens of their own. `Layout` says how these stand
among the others in the tokens of a text without faults, and `tokenize_layout` that they do.

`Laid n last ts` says the same from a place inside the list: `n` blocks are open there and `last`
is the kind of the token before it. This is what one pass over the pieces of a text keeps up. The
blocks open at a place are those that the margin has widths for.
-/

namespace Offside

/-! ## Layout -/

def countKind (k : Kind) (ts : List Token) : Nat := ts.countP (·.kind == k)

@[simp] theorem countKind_nil (k : Kind) : countKind k [] = 0 := rfl

theorem countKind_cons (k : Kind) (t : Token) (ts : List Token) :
    countKind k (t :: ts) = countKind k ts + if t.kind = k then 1 else 0 := by
  simp [countKind, List.countP_cons]

theorem countKind_append (k : Kind) (u v : List Token) :
    countKind k (u ++ v) = countKind k u + countKind k v :=
  List.countP_append

theorem countKind_eq_zero {k : Kind} {w : List Token} (h : ∀ t ∈ w, t.kind ≠ k) :
    countKind k w = 0 := by
  unfold countKind
  rw [List.countP_eq_zero]
  simpa using h

def lastKind (ts : List Token) : Option Kind := ts.getLast?.map Token.kind

/-- Blocks end one after the other, up to the end of the input. -/
def ClosesAll (ts : List Token) : Prop :=
  ∃ ds t, ts = ds ++ [t] ∧ (∀ d ∈ ds, d.kind = .dedent) ∧ t.kind = .endOfInput

/-- How layout tokens stand among the others. -/
structure Layout (ts : List Token) : Prop where
  /-- The end of the input is there once, as the last token. -/
  ending : ∃ us t, ts = us ++ [t] ∧ t.kind = .endOfInput ∧ ∀ u ∈ us, u.kind ≠ .endOfInput
  /-- No block ends before it has begun. -/
  nested : ∀ us, us <+: ts → countKind .dedent us ≤ countKind .indent us
  /-- Every block ends. -/
  balanced : countKind .dedent ts = countKind .indent ts
  /-- A block begins at the start of a line, and with code. -/
  indents : ∀ us t vs, ts = us ++ t :: vs → t.kind = .indent →
    lastKind us = some .newline ∧ ∃ c ∈ vs.head?, c.kind.isCode = true
  /-- A block ends at the start of a line, with other blocks, or with the input. -/
  dedents : ∀ us t vs, ts = us ++ t :: vs → t.kind = .dedent →
    lastKind us = some .newline ∨ lastKind us = some .dedent ∨ ClosesAll vs

/-! ## Layout from a place on -/

/-- The layout of the tokens from a place on where `n` blocks are open, behind a token of the kind
`last`. -/
inductive Laid : Nat → Option Kind → List Token → Prop
  | ending {last t} (ht : t.kind = .endOfInput) : Laid 0 last [t]
  | indent {n t c ts} (ht : t.kind = .indent) (hc : c.kind.isCode = true)
      (h : Laid (n + 1) (some .indent) (c :: ts)) : Laid n (some .newline) (t :: c :: ts)
  | dedent {n last t ts} (ht : t.kind = .dedent)
      (hlast : last = some .newline ∨ last = some .dedent ∨ ClosesAll ts)
      (h : Laid n (some .dedent) ts) : Laid (n + 1) last (t :: ts)
  | other {n last t ts} (hi : t.kind ≠ .indent) (hd : t.kind ≠ .dedent) (he : t.kind ≠ .endOfInput)
      (h : Laid n (some t.kind) ts) : Laid n last (t :: ts)

namespace Laid

variable {n : Nat} {last : Option Kind} {ts : List Token}

theorem exists_ending (h : Laid n last ts) :
    ∃ us t, ts = us ++ [t] ∧ t.kind = .endOfInput ∧ ∀ u ∈ us, u.kind ≠ .endOfInput := by
  induction h with
  | ending ht => exact ⟨[], _, rfl, ht, by simp⟩
  | @indent n t c ts ht hc h ih =>
    obtain ⟨us, e, hts, he, hus⟩ := ih
    exact ⟨t :: us, e, by rw [hts]; rfl, he, by simpa [ht] using hus⟩
  | @dedent n last t ts ht hlast h ih =>
    obtain ⟨us, e, rfl, he, hus⟩ := ih
    exact ⟨t :: us, e, rfl, he, by simpa [ht] using hus⟩
  | @other n last t ts hi hd hne h ih =>
    obtain ⟨us, e, rfl, he, hus⟩ := ih
    exact ⟨t :: us, e, rfl, he, by simpa [hne] using hus⟩

theorem count_eq (h : Laid n last ts) : countKind .dedent ts = countKind .indent ts + n := by
  induction h with
  | ending ht => simp [countKind_cons, ht]
  | @indent n t c ts ht hc h ih =>
    rw [countKind_cons .dedent t, countKind_cons .indent t, ih]
    simp [ht]
    omega
  | dedent ht hlast h ih =>
    rw [countKind_cons, countKind_cons, ih]
    simp [ht]
    omega
  | other hi hd he h ih => simp [countKind_cons, hi, hd, ih]

theorem count_le (h : Laid n last ts) {us : List Token} (hus : us <+: ts) :
    countKind .dedent us ≤ countKind .indent us + n := by
  induction h generalizing us with
  | ending ht =>
    rcases List.prefix_cons_iff.mp hus with rfl | ⟨us, rfl, hnil⟩
    · simp
    · simp [List.prefix_nil.mp hnil, countKind_cons, ht]
  | indent ht hc h ih =>
    rcases List.prefix_cons_iff.mp hus with rfl | ⟨us, rfl, hrest⟩
    · simp
    · have hle := ih hrest
      simp only [countKind_cons, ht, reduceCtorEq, if_true, if_false]
      omega
  | dedent ht hlast h ih =>
    rcases List.prefix_cons_iff.mp hus with rfl | ⟨us, rfl, hrest⟩
    · simp
    · have hle := ih hrest
      simp only [countKind_cons, ht, reduceCtorEq, if_true, if_false]
      omega
  | other hi hd he h ih =>
    rcases List.prefix_cons_iff.mp hus with rfl | ⟨us, rfl, hrest⟩
    · simp
    · simpa [countKind_cons, hi, hd] using ih hrest

/-- The kind of the token before a place, with `last` in front of the list. -/
def before (last : Option Kind) (us : List Token) : Option Kind := (lastKind us).or last

@[simp] theorem before_nil (last : Option Kind) : before last [] = last := rfl

@[simp] theorem before_cons (last : Option Kind) (t : Token) (us : List Token) :
    before last (t :: us) = before (some t.kind) us := by
  unfold before lastKind
  rw [List.getLast?_cons]
  cases us.getLast? <;> rfl

theorem before_none (us : List Token) : before none us = lastKind us := by
  simp [before]

theorem exists_at {us vs : List Token} (h : Laid n last (us ++ vs)) (hvs : vs ≠ []) :
    ∃ m, Laid m (before last us) vs := by
  induction us generalizing n last with
  | nil => exact ⟨n, h⟩
  | cons u us ih =>
    rw [before_cons]
    rw [List.cons_append] at h
    -- the rule for the first token is found only with a variable for what is behind it
    generalize hw : us ++ vs = w at h
    cases h with
    | ending => exact absurd (List.append_eq_nil_iff.mp hw).2 hvs
    | indent hi hc h =>
      rw [hi]
      exact ih (hw ▸ h)
    | dedent hd hlast h =>
      rw [hd]
      exact ih (hw ▸ h)
    | other hi hd he h => exact ih (hw ▸ h)

theorem at_indent {t : Token} {vs : List Token} (h : Laid n last (t :: vs))
    (ht : t.kind = .indent) : last = some .newline ∧ ∃ c ∈ vs.head?, c.kind.isCode = true := by
  cases h with
  | ending he => simp [ht] at he
  | indent hi hc h => exact ⟨rfl, _, rfl, hc⟩
  | dedent hd hlast h => simp [ht] at hd
  | other hi hd he h => exact absurd ht hi

theorem at_dedent {t : Token} {vs : List Token} (h : Laid n last (t :: vs))
    (ht : t.kind = .dedent) : last = some .newline ∨ last = some .dedent ∨ ClosesAll vs := by
  cases h with
  | ending he => simp [ht] at he
  | indent hi hc h => simp [ht] at hi
  | dedent hd hlast h => exact hlast
  | other hi hd he h => exact absurd ht hd

theorem layout (h : Laid 0 none ts) : Layout ts where
  ending := h.exists_ending
  nested := fun us hus => h.count_le hus
  balanced := h.count_eq
  indents := by
    rintro us t vs rfl ht
    obtain ⟨m, hm⟩ := h.exists_at (List.cons_ne_nil t vs)
    rw [before_none] at hm
    exact hm.at_indent ht
  dedents := by
    rintro us t vs rfl ht
    obtain ⟨m, hm⟩ := h.exists_at (List.cons_ne_nil t vs)
    rw [before_none] at hm
    exact hm.at_dedent ht

end Laid

/-! ## Pieces -/

namespace Piece

theorem tail_of_isBlank {c : Char} (h : isBlank c = true) (cs : List Char) :
    tail c cs = (.blanks, run isBlank cs) := by
  have hn : c ≠ '\n' := by
    rintro rfl
    simp [isBlank] at h
  have hr : c ≠ '\r' := by
    rintro rfl
    simp [isBlank] at h
  simp [tail, hn, hr, h]

theorem quoteTail_shape (cs : List Char) : (quoteTail cs).1 ≠ .blanks := by
  unfold quoteTail
  split <;> simp

theorem symbolTail_shape (c : Char) (cs : List Char) : (symbolTail c cs).1 ≠ .blanks := by
  cases cs with
  | nil =>
    simp only [symbolTail]
    split <;> simp
  | cons d cs =>
    simp only [symbolTail]
    split
    · simp
    · split <;> simp

theorem tail_shape {c : Char} (h : isBlank c = false) (cs : List Char) :
    (tail c cs).1 ≠ .blanks := by
  unfold tail
  simp only [h, Bool.false_eq_true, if_false]
  split_ifs
  · simp
  · split <;> simp
  · simp
  · exact quoteTail_shape cs
  · simp
  · simp
  · exact symbolTail_shape c cs

/-- Two runs of blanks never stand side by side. -/
def Apart (qs : List Piece) : Prop :=
  qs.IsChain fun q r => q.shape = .blanks → r.shape ≠ .blanks

theorem apart_cons {q : Piece} {qs : List Piece} :
    Apart (q :: qs) ↔ (q.shape = .blanks → ∀ r ∈ qs.head?, r.shape ≠ .blanks) ∧ Apart qs := by
  unfold Apart
  rw [List.isChain_cons]
  exact and_congr_left fun _ => ⟨fun h hq r hr => h r hr hq, fun h r hr hq => h hq r hr⟩

theorem cut_apart (cs : List Char) : Apart (cut cs) := by
  fun_induction cut cs with
  | case1 => exact .nil
  | case2 c cs r ih =>
    refine apart_cons.mpr ⟨fun hq => ?_, ih⟩
    have hc : isBlank c = true := by
      rw [← Bool.not_eq_false]
      exact fun hc => tail_shape hc cs hq
    -- the run takes all the blanks, so what is behind it begins with something else
    have hrest : r.2.2 = cs.dropWhile isBlank := by
      simp [r, tail_of_isBlank hc, run]
    have hhead := List.head?_dropWhile_not isBlank cs
    rw [← hrest] at hhead
    intro q' hq'
    cases hcs : r.2.2 with
    | nil =>
      rw [hcs, cut] at hq'
      cases hq'
    | cons d ds =>
      rw [hcs, cut_cons] at hq'
      rw [hcs] at hhead
      cases hq'
      exact tail_shape (by simpa using hhead) ds

end Piece

/-! ## Scanning -/

namespace Source

theorem word_isCode {p : Position} {text : List Char} {t : Token} (h : word p text = .ok t) :
    t.kind.isCode = true := by
  unfold word token at h
  simp only at h
  split at h
  · cases h
    rfl
  · split_ifs at h
    · cases h
      rfl
    · cases h
      rfl

theorem stray_ne_ok {p : Position} {c : Char} {t : Token} : stray p c ≠ .ok t := by
  unfold stray
  split_ifs <;> simp

theorem shape_of_item?_eq_none {p : Position} {q : Piece} (h : item? p q = none) :
    q.shape = .blanks ∨ q.shape = .carriage := by
  unfold item? at h
  split at h
  case h_1 hq => exact .inl hq
  case h_2 hq => exact .inr hq
  all_goals cases h

theorem kind_of_item?_eq_some {p : Position} {q : Piece} {t : Token}
    (h : item? p q = some (.ok t)) :
    (q.shape = .lineBreak ∧ t.kind = .newline) ∨ (q.shape = .comment ∧ t.kind = .comment) ∨
      (q.shape ≠ .lineBreak ∧ q.shape ≠ .comment ∧ t.kind.isCode = true) := by
  unfold item? token at h
  split at h
  case h_1 => cases h
  case h_2 => cases h
  case h_3 hq =>
    cases h
    exact .inl ⟨hq, rfl⟩
  case h_4 hq =>
    cases h
    exact .inr (.inl ⟨hq, rfl⟩)
  case h_5 hq =>
    cases h
    exact .inr (.inr (by simp [hq, Kind.isCode]))
  case h_6 => cases h
  case h_7 hq =>
    cases h
    exact .inr (.inr (by simp [hq, Kind.isCode]))
  case h_8 hq =>
    have hw := word_isCode (Option.some.inj h)
    exact .inr (.inr (by simp [hq, hw]))
  case h_9 hq =>
    cases h
    exact .inr (.inr (by simp [hq, Kind.isCode]))
  case h_10 => exact absurd (Option.some.inj h) stray_ne_ok

def tokensOf (is : List Item) : List Token := is.filterMap token?

def Faultless (is : List Item) : Prop := is.filterMap fault? = []

theorem faultless_append {is js : List Item} :
    Faultless (is ++ js) ↔ Faultless is ∧ Faultless js := by
  simp [Faultless]

theorem tokensOf_append (is js : List Item) : tokensOf (is ++ js) = tokensOf is ++ tokensOf js := by
  simp [tokensOf]

theorem tokensOf_map_ok (ts : List Token) : tokensOf (ts.map .ok) = ts := by
  simp [tokensOf, Function.comp_def, token?]

section scan

variable {m m' : Margin} {p : Position} {q : Piece} {qs : List Piece}

/-- What the pieces `qs` give is laid out, if they are read at the start of a line only behind a
newline. -/
def LaysOut (qs : List Piece) : Prop :=
  ∀ m atStart p last, (∀ w ∈ m.widths, 0 < w) → (atStart = true → last = some .newline) →
    Faultless (items m atStart p qs) →
    Laid m.widths.length last (tokensOf (items m atStart p qs))

/-- The items from a piece on, behind the layout tokens of its line. -/
def itemsFrom (m : Margin) (p : Position) (q : Piece) (qs : List Piece) : List Item :=
  (item? p q).toList ++ items m (q.shape == .lineBreak) (p.after q.text) qs

theorem itemsFrom_laid (ih : LaysOut qs) (hpos : ∀ w ∈ m.widths, 0 < w) (last : Option Kind)
    (hf : Faultless (itemsFrom m p q qs)) :
    Laid m.widths.length last (tokensOf (itemsFrom m p q qs)) := by
  unfold itemsFrom at hf ⊢
  rw [faultless_append] at hf
  rw [tokensOf_append]
  cases hi : item? p q with
  | none =>
    refine ih _ _ _ _ hpos (fun hb => ?_) hf.2
    rcases shape_of_item?_eq_none hi with hq | hq <;> simp [hq] at hb
  | some i =>
    cases i with
    | error f => simp [hi, Faultless, fault?] at hf
    | ok t =>
      have hkind := kind_of_item?_eq_some hi
      have hrest := ih m (q.shape == .lineBreak) (p.after q.text) (some t.kind) hpos ?_ hf.2
      · refine .other ?_ ?_ ?_ hrest
        all_goals
          intro hk
          simp [hk, Kind.isCode] at hkind
      · intro hb
        rcases hkind with ⟨-, hk⟩ | ⟨hq, -⟩ | ⟨hq, -⟩
        · rw [hk]
        · simp [hq] at hb
        · simp [hq] at hb

theorem items_inLine : items m false p (q :: qs) = itemsFrom m p q qs := rfl

theorem items_atStart :
    items m true p (q :: qs) =
      (m.startLine p (q :: qs)).2.map .ok ++ itemsFrom (m.startLine p (q :: qs)).1 p q qs := rfl

theorem exists_code (hq : q.shape = .blanks) (hqs : Margin.isBlankLine qs = false)
    (hapart : Piece.Apart (q :: qs)) (hf : Faultless (itemsFrom m p q qs)) :
    ∃ c ts, tokensOf (itemsFrom m p q qs) = c :: ts ∧ c.kind.isCode = true := by
  cases qs with
  | nil => cases hqs
  | cons q' qs' =>
    have hblank : q'.shape ≠ .blanks := (Piece.apart_cons.mp hapart).1 hq q' rfl
    simp only [Margin.isBlankLine, Bool.or_eq_false_iff, beq_eq_false_iff_ne] at hqs
    obtain ⟨⟨hbreak, hcarriage⟩, hcomment⟩ := hqs
    -- blanks give no item, and the line goes on behind them
    have hnext : itemsFrom m p q (q' :: qs') = itemsFrom m (p.after q.text) q' qs' := by
      simp [itemsFrom, item?, hq, items]
    rw [hnext] at hf ⊢
    unfold itemsFrom at hf ⊢
    rw [faultless_append] at hf
    rw [tokensOf_append]
    cases hi : item? (p.after q.text) q' with
    | none => rcases shape_of_item?_eq_none hi with h | h <;> contradiction
    | some i =>
      cases i with
      | error f => simp [hi, Faultless, fault?] at hf
      | ok t =>
        refine ⟨t, _, rfl, ?_⟩
        rcases kind_of_item?_eq_some hi with ⟨h, -⟩ | ⟨h, -⟩ | ⟨-, -, h⟩
        · exact absurd h hbreak
        · exact absurd h hcomment
        · exact h

/-- The start of a line leaves the blocks alone, opens one for code, or closes some. -/
theorem startLine_cases (m : Margin) (p : Position) (q : Piece) (qs : List Piece) :
    ((m.startLine p (q :: qs)).1.widths = m.widths ∧ (m.startLine p (q :: qs)).2 = []) ∨
    (∃ w t, (m.startLine p (q :: qs)).1.widths = w :: m.widths ∧
      (m.startLine p (q :: qs)).2 = [t] ∧ t.kind = .indent ∧ 0 < w ∧
      q.shape = .blanks ∧ Margin.isBlankLine qs = false) ∨
    (∃ w, (m.startLine p (q :: qs)).1.widths = m.widths.dropWhile (w < ·) ∧
      (m.startLine p (q :: qs)).2 = (m.widths.takeWhile (w < ·)).map fun _ => Margin.dedent p) := by
  unfold Margin.startLine
  simp only
  split_ifs with hq hb hb
  · exact .inl ⟨rfl, rfl⟩
  · unfold Margin.moveTo
    split_ifs with hw
    · refine .inr (.inl ⟨_, _, rfl, rfl, rfl, Nat.zero_lt_of_lt hw, hq, ?_⟩)
      simpa using hb
    · exact .inr (.inr ⟨_, rfl, rfl⟩)
  · exact .inl ⟨rfl, rfl⟩
  · exact .inr (.inr ⟨0, rfl, rfl⟩)

theorem laid_dedents {n : Nat} {last : Option Kind} {ts : List Token} (ws : List Nat)
    (hlast : last = some .newline ∨ last = some .dedent) (h : ∀ last', Laid n last' ts) :
    Laid (ws.length + n) last (ws.map (fun _ => Margin.dedent p) ++ ts) := by
  induction ws generalizing last with
  | nil => simpa using h last
  | cons w ws ih =>
    rw [List.length_cons, Nat.add_right_comm]
    refine .dedent rfl ?_ (ih (.inr rfl))
    exact hlast.imp_right .inl

theorem laid_closing {last : Option Kind} {t : Token} (ws : List Nat) (ht : t.kind = .endOfInput) :
    Laid ws.length last (ws.map (fun _ => Margin.dedent p) ++ [t]) := by
  induction ws generalizing last with
  | nil => exact .ending ht
  | cons w ws ih =>
    refine .dedent rfl (.inr (.inr ⟨_, t, rfl, ?_, ht⟩)) ih
    simp [Margin.dedent]

/-- One line: its layout tokens, and what is behind them. -/
theorem line_laid (ih : LaysOut qs) (hapart : Piece.Apart (q :: qs)) (hpos : ∀ w ∈ m.widths, 0 < w)
    (hf : Faultless (items m true p (q :: qs))) :
    Laid m.widths.length (some .newline) (tokensOf (items m true p (q :: qs))) := by
  rw [items_atStart, faultless_append] at hf
  rw [items_atStart, tokensOf_append, tokensOf_map_ok]
  generalize hr : m.startLine p (q :: qs) = r at hf ⊢
  have hcases := startLine_cases m p q qs
  rw [hr] at hcases
  rcases hcases with ⟨hw, ht⟩ | ⟨w, t, hw, ht, hk, hpos', hq, hqs⟩ | ⟨w, hw, ht⟩
  · rw [ht, ← hw]
    exact itemsFrom_laid ih (by rwa [hw]) _ hf.2
  · obtain ⟨c, ts, hts, hc⟩ := exists_code hq hqs hapart hf.2
    have hrest := itemsFrom_laid ih (by simpa [hw, hpos'] using hpos) (some .indent) hf.2
    rw [hts, hw] at hrest
    rw [ht, hts]
    exact .indent hk hc hrest
  · have hsplit : m.widths.length =
        (m.widths.takeWhile (w < ·)).length + (m.widths.dropWhile (w < ·)).length := by
      rw [← List.length_append, List.takeWhile_append_dropWhile]
    rw [ht, hsplit, ← hw]
    refine laid_dedents _ (.inl rfl) fun last' => itemsFrom_laid ih ?_ last' hf.2
    rw [hw]
    exact fun x hx => hpos x ((List.dropWhile_suffix _).subset hx)

theorem laysOut (hapart : Piece.Apart qs) : LaysOut qs := by
  induction qs with
  | nil =>
    intro m atStart p last hpos _ _
    -- the widths of blocks are positive, so the end of the input closes them all
    have hall : m.widths.takeWhile (0 < ·) = m.widths := by
      rw [List.takeWhile_eq_self_iff]
      simpa using hpos
    rw [items, tokensOf_append, tokensOf_map_ok, Margin.closeTo, hall]
    exact laid_closing _ rfl
  | cons q qs ih =>
    intro m atStart p last hpos hlast hf
    have ih' := ih (Piece.apart_cons.mp hapart).2
    cases atStart with
    | false =>
      rw [items_inLine] at hf ⊢
      exact itemsFrom_laid ih' hpos last hf
    | true =>
      rw [hlast rfl]
      exact line_laid ih' hapart hpos hf

end scan

end Source

open Source in
/-- **The layout of tokens.** In the tokens of a text without faults the end of the input is the
last token and no other, blocks are nested and all of them end, they begin with code at the start of
a line, and they end at the start of a line or with the input. -/
theorem tokenize_layout {source : String} {ts : List Token} (h : tokenize source = .ok ts) :
    Layout ts := by
  unfold tokenize at h
  simp only at h
  split at h
  · rename_i hfaults
    cases h
    exact (laysOut (Piece.cut_apart _) .outermost false .start none nofun nofun hfaults).layout
  · cases h

/-- Two lines, the second further in. -/
theorem tokenize_layout_block :
    Layout [⟨.keyword .elseStmt, "ELSE", none, ⟨1, 1⟩⟩, ⟨.newline, "\n", none, ⟨1, 5⟩⟩,
      ⟨.indent, " ", none, ⟨2, 1⟩⟩, ⟨.keyword .passStmt, "PASS", none, ⟨2, 2⟩⟩,
      ⟨.dedent, "", none, ⟨2, 6⟩⟩, ⟨.endOfInput, "", none, ⟨2, 6⟩⟩] :=
  tokenize_layout (show tokenize "ELSE\n PASS" = .ok _ by with_unfolding_all rfl)

end Offside
