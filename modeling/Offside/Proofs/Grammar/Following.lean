import Mathlib.Data.Nat.Init
import Offside.Proofs.Grammar.Cursor

/-!
# A cursor that follows the readers of lists

An array of tokens with an end of input somewhere in it is read with a cursor (`Input.cursor`). As
long as the cursor has not come to the first end of input, what is left in front of that is a list,
and the cursor shows it (`Input.Shows`). The readers with a cursor do what the replies of the
readers of lists say (`Input.Ends`): they come to the same result or error, and stand where the
reply's rest is shown.

Here this is shown of tokens, lines and expressions, with fuel that grows no faster than the number
of tokens left (`Input.follows`).
-/

namespace Offside.Grammar

open Cursor

section equations

-- The equations of the readers are derived here, once. Otherwise the proofs below, which are
-- checked side by side, would all ask for them at the same time and wait for each other.
attribute [local simp] Grammar.expression Grammar.operations Grammar.comparisons Grammar.arguments
  Cursor.expression

end equations

/-! ## Inputs -/

/-- Tokens with a first end of input among them. -/
structure Input where
  /-- The tokens in front of the first end of input. -/
  inside : List Token
  final : Token
  /-- The tokens behind it. -/
  beyond : List Token
  kind_inside : ∀ t ∈ inside, t.kind ≠ .endOfInput
  kind_final : final.kind = .endOfInput

namespace Input

def stop (i : Input) : Position := i.final.pos

theorem describe_final (i : Input) : i.final.describe = describe [] := by
  unfold Token.describe
  rw [i.kind_final]
  rfl

def cursor (i : Input) (p : Nat) (es : List SyntaxError) : Cursor :=
  ⟨(i.inside ++ i.final :: i.beyond).toArray, p, es⟩

/-- At the place `p`, what is left in front of the first end of input is `ts`. -/
def Shows (i : Input) (p : Nat) (ts : List Token) : Prop :=
  i.inside.drop p = ts ∧ p ≤ i.inside.length

variable {i : Input} {p : Nat} {t : Token} {ts : List Token}

theorem Shows.inside_eq (h : i.Shows p ts) : i.inside = i.inside.take p ++ ts := by
  rw [← h.1, List.take_append_drop]

theorem Shows.tail (h : i.Shows p (t :: ts)) : i.Shows (p + 1) ts := by
  obtain ⟨hdrop, -⟩ := h
  have hlt : p < i.inside.length := by
    have hlength := congrArg List.length hdrop
    rw [List.length_drop, List.length_cons] at hlength
    omega
  refine ⟨?_, hlt⟩
  rw [← List.tail_drop, hdrop, List.tail_cons]

theorem Shows.kind_ne (h : i.Shows p (t :: ts)) : t.kind ≠ .endOfInput := by
  refine i.kind_inside t ?_
  rw [h.inside_eq]
  simp

theorem Shows.eq_length (h : i.Shows p []) : p = i.inside.length := by
  have hle := List.drop_eq_nil_iff.mp h.1
  exact Nat.le_antisymm h.2 hle

theorem Shows.token (h : i.Shows p (t :: ts)) (es : List SyntaxError) :
    (i.cursor p es).tokens[p]? = some t := by
  have hlength : (i.inside.take p).length = p := List.length_take_of_le h.2
  unfold cursor
  rw [h.inside_eq]
  simp [hlength]

theorem Shows.token_final (h : i.Shows p []) (es : List SyntaxError) :
    (i.cursor p es).tokens[p]? = some i.final := by
  rw [h.eq_length]
  simp [cursor]

end Input

/-! ## Steps -/

namespace Cursor

section steps

variable {α β : Type} {i : Input} {p : Nat} {es : List SyntaxError} {t : Token} {ts : List Token}

theorem bind_of_ok {x : Scan α} {f : α → Scan β} {c c' : Cursor} {a : α}
    (h : x c = .done (.ok a) c') : (x >>= f) c = f a c' := by
  show Cursor.bind x f c = f a c'
  rw [Cursor.bind, h]

theorem bind_of_error {x : Scan α} {f : α → Scan β} {c c' : Cursor} {e : SyntaxError}
    (h : x c = .done (.error e) c') : (x >>= f) c = .done (.error e) c' := by
  show Cursor.bind x f c = _
  rw [Cursor.bind, h]

theorem attempt_eq {x : Scan α} {c c' : Cursor} {r : Except SyntaxError α} (h : x c = .done r c') :
    attempt x c = .done (.ok r) c' := by
  rw [attempt, h]

theorem peek_of_some {c : Cursor} (h : c.tokens[c.pos]? = some t) : peek c = .done (.ok t) c := by
  rw [peek, h]

theorem previous_of_some {c : Cursor} (h : c.tokens[c.pos - 1]? = some t) :
    previous c = .done (.ok t) c := by
  rw [previous, h]

theorem peek_cons (h : i.Shows p (t :: ts)) :
    peek (i.cursor p es) = .done (.ok t) (i.cursor p es) :=
  peek_of_some (h.token es)

theorem peek_nil (h : i.Shows p []) :
    peek (i.cursor p es) = .done (.ok i.final) (i.cursor p es) :=
  peek_of_some (h.token_final es)

theorem previous_tail (h : i.Shows p (t :: ts)) :
    previous (i.cursor (p + 1) es) = .done (.ok t) (i.cursor (p + 1) es) :=
  previous_of_some (h.token es)

theorem atEnd_cons (h : i.Shows p (t :: ts)) :
    atEnd (i.cursor p es) = .done (.ok false) (i.cursor p es) := by
  unfold atEnd
  rw [bind_of_ok (peek_cons h), beq_false_of_ne h.kind_ne]
  rfl

theorem atEnd_nil (h : i.Shows p []) :
    atEnd (i.cursor p es) = .done (.ok true) (i.cursor p es) := by
  unfold atEnd
  rw [bind_of_ok (peek_nil h), i.kind_final]
  rfl

theorem check_cons (h : i.Shows p (t :: ts)) (kind : Kind) :
    check kind (i.cursor p es) = .done (.ok (t.kind == kind)) (i.cursor p es) := by
  unfold check
  rw [bind_of_ok (atEnd_cons h), if_neg Bool.false_ne_true, bind_of_ok (peek_cons h)]
  rfl

theorem check_nil (h : i.Shows p []) (kind : Kind) :
    check kind (i.cursor p es) = .done (.ok false) (i.cursor p es) := by
  unfold check
  rw [bind_of_ok (atEnd_nil h), if_pos rfl]
  rfl

theorem check_eq (h : i.Shows p ts) (kind : Kind) :
    check kind (i.cursor p es) = .done (.ok (startsWith kind ts)) (i.cursor p es) := by
  cases ts with
  | nil => exact check_nil h kind
  | cons t ts => exact check_cons h kind

theorem step_cons (h : i.Shows p (t :: ts)) :
    step (i.cursor p es) = .done (.ok ()) (i.cursor (p + 1) es) := by
  unfold step
  rw [bind_of_ok (peek_cons h), if_neg h.kind_ne]
  rfl

theorem advance_cons (h : i.Shows p (t :: ts)) :
    advance (i.cursor p es) = .done (.ok t) (i.cursor (p + 1) es) := by
  unfold advance
  rw [bind_of_ok (atEnd_cons h), if_neg Bool.false_ne_true, bind_of_ok (step_cons h),
    previous_tail h]

/-- At an end of input, the cursor stays and looks back. -/
theorem advance_nil (h : i.Shows p []) (es : List SyntaxError) :
    ∃ t, advance (i.cursor p es) = .done (.ok t) (i.cursor p es) := by
  have hlt : p - 1 < (i.inside ++ i.final :: i.beyond).length := by
    have hle := h.2
    rw [List.length_append, List.length_cons]
    omega
  obtain ⟨t, ht⟩ : ∃ t, (i.inside ++ i.final :: i.beyond)[p - 1]? = some t :=
    ⟨_, List.getElem?_eq_getElem hlt⟩
  have htoken : (i.cursor p es).tokens[p - 1]? = some t := by
    rw [Input.cursor, List.getElem?_toArray, ht]
  refine ⟨t, ?_⟩
  unfold advance
  rw [bind_of_ok (atEnd_nil h), if_pos rfl]
  exact previous_of_some htoken

theorem skip_of_eq (h : i.Shows p (t :: ts)) {kind : Kind} (ht : t.kind = kind) :
    skip kind (i.cursor p es) = .done (.ok true) (i.cursor (p + 1) es) := by
  unfold skip
  rw [bind_of_ok (check_cons h kind), if_pos (beq_iff_eq.mpr ht), bind_of_ok (step_cons h)]
  rfl

theorem skip_of_ne (h : i.Shows p (t :: ts)) {kind : Kind} (ht : t.kind ≠ kind) :
    skip kind (i.cursor p es) = .done (.ok false) (i.cursor p es) := by
  unfold skip
  rw [bind_of_ok (check_cons h kind), if_neg (by simpa using ht)]
  rfl

theorem skip_nil (h : i.Shows p []) (kind : Kind) :
    skip kind (i.cursor p es) = .done (.ok false) (i.cursor p es) := by
  unfold skip
  rw [bind_of_ok (check_nil h kind), if_neg Bool.false_ne_true]
  rfl

theorem expect_of_eq (h : i.Shows p (t :: ts)) {kind : Kind} (ht : t.kind = kind)
    (what : SyntaxError.Wanted) :
    expect kind what (i.cursor p es) = .done (.ok t) (i.cursor (p + 1) es) := by
  unfold expect
  rw [bind_of_ok (check_cons h kind), if_pos (beq_iff_eq.mpr ht), advance_cons h]

theorem expect_of_ne (h : i.Shows p (t :: ts)) {kind : Kind} (ht : t.kind ≠ kind)
    (what : SyntaxError.Wanted) :
    expect kind what (i.cursor p es) =
      .done (.error ⟨.expected what t.describe, t.pos⟩) (i.cursor p es) := by
  unfold expect
  rw [bind_of_ok (check_cons h kind), if_neg (by simpa using ht), bind_of_ok (peek_cons h)]
  rfl

theorem expect_nil (h : i.Shows p []) (kind : Kind) (what : SyntaxError.Wanted) :
    expect kind what (i.cursor p es) =
      .done (.error ⟨.expected what (describe []), i.stop⟩) (i.cursor p es) := by
  unfold expect
  rw [bind_of_ok (check_nil h kind), if_neg Bool.false_ne_true, bind_of_ok (peek_nil h),
    i.describe_final]
  rfl

end steps

end Cursor

/-! ## Doing what a reply says -/

section replies

variable {α β : Type} {k : Nat} {ts : List Token}

def Reply.result : Reply α k ts → Except SyntaxError α
  | ok a _ _ => .ok a
  | fail e _ _ => .error e

def Reply.rest : Reply α k ts → List Token
  | ok _ rest _ => rest
  | fail _ rest _ => rest

theorem Reply.quiet_andThen {j : Nat} (r : Reply α k ts)
    (f : (a : α) → (rest : List Token) → rest.length + k ≤ ts.length → Reply β j rest) :
    (r.andThen f).quiet = r.quiet.andThen fun a rest h => (f a rest h).quiet := by
  cases r with
  | fail e rest h => rfl
  | ok a rest h =>
    simp only [Reply.andThen, Traced.andThen, Reply.quiet]
    cases f a rest h <;> rfl

theorem Reply.quiet_map (f : α → β) (r : Reply α k ts) : (r.map f).quiet = r.quiet.map f := rfl

theorem Reply.quiet_behind (t : Token) (r : Reply α k ts) :
    (r.behind t).quiet = r.quiet.behind t := rfl

theorem Reply.quiet_loosen (r : Reply α k ts) : r.loosen.quiet = r.quiet.loosen := rfl

theorem Traced.andThen_ok {j : Nat} (errors : List SyntaxError) (a : α) (rest : List Token)
    (h : rest.length + k ≤ ts.length)
    (g : (a : α) → (rest : List Token) → rest.length + k ≤ ts.length → Traced β j rest) :
    ((⟨errors, .ok a rest h⟩ : Traced α k ts).andThen g).errors = errors ++ (g a rest h).errors ∧
      ((⟨errors, .ok a rest h⟩ : Traced α k ts).andThen g).reply.result =
        (g a rest h).reply.result ∧
      ((⟨errors, .ok a rest h⟩ : Traced α k ts).andThen g).reply.rest =
        (g a rest h).reply.rest := by
  unfold Traced.andThen
  simp only
  generalize g a rest h = r
  obtain ⟨errors', reply⟩ := r
  cases reply <;> exact ⟨rfl, rfl, rfl⟩

end replies

/-- A reader with a cursor ends as the reply says: with its result, with its errors behind those
that were noted before, and in front of what it leaves. -/
def Input.Ends {α : Type} (i : Input) (es : List SyntaxError) (o : Ending α) {k : Nat}
    {ts : List Token} (r : Traced α k ts) : Prop :=
  ∃ p, o = .done r.reply.result (i.cursor p (es ++ r.errors)) ∧ i.Shows p r.reply.rest

namespace Input.Ends

variable {α β : Type} {i : Input} {p : Nat} {es : List SyntaxError} {k : Nat} {ts : List Token}

@[simp] theorem behind_iff {t : Token} {o : Ending α} {r : Traced α k ts} :
    i.Ends es o (r.behind t) ↔ i.Ends es o r := by
  obtain ⟨errors, reply⟩ := r
  cases reply <;> exact Iff.rfl

@[simp] theorem loosen_iff {o : Ending α} {r : Traced α k ts} :
    i.Ends es o r.loosen ↔ i.Ends es o r := by
  obtain ⟨errors, reply⟩ := r
  cases reply <;> exact Iff.rfl

theorem ok {a : α} {rest : List Token} (hs : i.Shows p rest) (h : rest.length + k ≤ ts.length) :
    i.Ends es (.done (.ok a) (i.cursor p es)) (Reply.ok a rest h : Reply α k ts).quiet :=
  ⟨p, by simp [Reply.quiet, Reply.result], hs⟩

theorem fail {e : SyntaxError} {rest : List Token} (hs : i.Shows p rest)
    (h : rest.length ≤ ts.length) :
    i.Ends es (.done (.error e) (i.cursor p es)) (Reply.fail e rest h : Reply α k ts).quiet :=
  ⟨p, by simp [Reply.quiet, Reply.result], hs⟩

theorem bind_map {γ : Type} {j : Nat} (u : α → γ) {x : Scan γ} {c : Cursor} {f : γ → Scan β}
    {r : Traced α k ts}
    {g : (a : α) → (rest : List Token) → rest.length + k ≤ ts.length → Traced β j rest}
    (h : i.Ends es (x c) (r.map u))
    (hf : ∀ a rest hle p, i.Shows p rest → i.Ends (es ++ r.errors)
      (f (u a) (i.cursor p (es ++ r.errors))) (g a rest hle)) :
    i.Ends es ((x >>= f) c) (r.andThen g) := by
  obtain ⟨errors, reply⟩ := r
  obtain ⟨p, hx, hs⟩ := h
  cases reply with
  | fail e rest hle =>
    rw [bind_of_error hx]
    exact ⟨p, rfl, hs⟩
  | ok a rest hle =>
    rw [bind_of_ok hx]
    obtain ⟨p', hp', hs'⟩ := hf a rest hle p hs
    obtain ⟨herrors, hresult, hrest⟩ := Traced.andThen_ok errors a rest hle g
    refine ⟨p', ?_, hrest ▸ hs'⟩
    rw [herrors, hresult, ← List.append_assoc]
    exact hp'

theorem bind {j : Nat} {x : Scan α} {c : Cursor} {f : α → Scan β} {r : Traced α k ts}
    {g : (a : α) → (rest : List Token) → rest.length + k ≤ ts.length → Traced β j rest}
    (h : i.Ends es (x c) r)
    (hf : ∀ a rest hle p, i.Shows p rest → i.Ends (es ++ r.errors)
      (f a (i.cursor p (es ++ r.errors))) (g a rest hle)) :
    i.Ends es ((x >>= f) c) (r.andThen g) := by
  refine bind_map id ?_ hf
  obtain ⟨errors, reply⟩ := r
  cases reply <;> exact h

theorem map {x : Scan α} {c : Cursor} (f : α → β) {r : Traced α k ts} (h : i.Ends es (x c) r) :
    i.Ends es ((x >>= fun a => pure (f a)) c) (r.map f) := by
  obtain ⟨errors, reply⟩ := r
  obtain ⟨p, hx, hs⟩ := h
  cases reply with
  | fail e rest hle =>
    rw [bind_of_error hx]
    exact ⟨p, rfl, hs⟩
  | ok a rest hle =>
    rw [bind_of_ok hx]
    exact ⟨p, rfl, hs⟩

/-! ## Tokens and lines -/

theorem expect (kind : Kind) (what : SyntaxError.Wanted) (hs : i.Shows p ts) :
    i.Ends es (Cursor.expect kind what (i.cursor p es))
      (Grammar.expect i.stop kind what ts).quiet := by
  cases ts with
  | nil =>
    rw [expect_nil hs]
    exact fail hs _
  | cons t ts =>
    rw [Grammar.expect]
    by_cases ht : t.kind = kind
    · rw [if_pos ht, expect_of_eq hs ht]
      exact ok hs.tail _
    · rw [if_neg ht, expect_of_ne hs ht]
      exact fail hs _

theorem endLine (hs : i.Shows p ts) :
    i.Ends es (Cursor.endLine (i.cursor p es)) (Grammar.endLine i.stop ts).quiet := by
  unfold Cursor.endLine
  cases ts with
  | nil =>
    rw [bind_of_ok (peek_nil hs), i.kind_final]
    exact ok hs _
  | cons t ts =>
    rw [bind_of_ok (peek_cons hs), Grammar.endLine]
    by_cases hn : t.kind = .newline
    · rw [if_pos hn, if_pos hn, bind_of_ok (advance_cons hs)]
      exact ok hs.tail _
    · by_cases hd : t.kind = .dedent
      · rw [if_neg hn, if_neg hn, if_pos (.inl hd), if_pos hd]
        exact ok hs _
      · rw [if_neg hn, if_neg hn, if_neg (not_or.mpr ⟨hd, hs.kind_ne⟩), if_neg hd]
        exact fail hs _

end Input.Ends

/-! ## Expressions -/

section operators

variable {i : Input} {p : Nat} {es : List SyntaxError} {t : Token} {ts : List Token} {l : Level}

theorem operator?_of_some (hs : i.Shows p (t :: ts)) {op : BinaryOp}
    (h : l.operator? t.kind = some op) :
    operator? l (i.cursor p es) = .done (.ok (some op)) (i.cursor (p + 1) es) := by
  unfold operator?
  rw [bind_of_ok (peek_cons hs), h]
  simp only
  rw [bind_of_ok (step_cons hs)]
  rfl

theorem operator?_of_none (hs : i.Shows p (t :: ts)) (h : l.operator? t.kind = none) :
    operator? l (i.cursor p es) = .done (.ok none) (i.cursor p es) := by
  unfold operator?
  rw [bind_of_ok (peek_cons hs), h]
  rfl

theorem operator?_nil (hs : i.Shows p []) (l : Level) :
    operator? l (i.cursor p es) = .done (.ok none) (i.cursor p es) := by
  have hend : l.operator? .endOfInput = none := by cases l <;> rfl
  unfold operator?
  rw [bind_of_ok (peek_nil hs), i.kind_final, hend]
  rfl

theorem comparisonOperator_cases (hs : i.Shows p ts) :
    (Grammar.comparisonOperator ts = none ∧
      Cursor.comparisonOperator (i.cursor p es) = .done (.ok none) (i.cursor p es)) ∨
    ∃ r, Grammar.comparisonOperator ts = some r ∧
      i.Ends es (Cursor.comparisonOperator (i.cursor p es)) (r.quiet.map some) := by
  unfold Cursor.comparisonOperator
  cases ts with
  | nil =>
    rw [bind_of_ok (peek_nil hs), i.kind_final]
    exact .inl ⟨rfl, rfl⟩
  | cons t ts =>
    rw [bind_of_ok (peek_cons hs)]
    unfold Grammar.comparisonOperator
    cases hop : comparison? t.kind with
    | some op =>
      simp only [hop]
      rw [bind_of_ok (advance_cons hs)]
      exact .inr ⟨_, rfl, Input.Ends.ok hs.tail _⟩
    | none =>
      simp only [hop]
      by_cases his : t.kind = .keyword .isOp
      · rw [if_pos his, if_pos his, bind_of_ok (advance_cons hs)]
        cases ts with
        | nil =>
          rw [bind_of_ok (skip_nil hs.tail _)]
          exact .inr ⟨_, rfl, Input.Ends.ok hs.tail _⟩
        | cons u ts =>
          by_cases hu : u.kind = .keyword .notOp
          · rw [bind_of_ok (skip_of_eq hs.tail hu)]
            exact .inr ⟨_, if_pos hu, Input.Ends.ok hs.tail.tail _⟩
          · rw [bind_of_ok (skip_of_ne hs.tail hu)]
            exact .inr ⟨_, if_neg hu, Input.Ends.ok hs.tail _⟩
      · rw [if_neg his, if_neg his]
        by_cases hnot : t.kind = .keyword .notOp
        · rw [if_pos hnot, if_pos hnot, bind_of_ok (advance_cons hs)]
          cases ts with
          | nil =>
            rw [bind_of_ok (skip_nil hs.tail _)]
            exact .inr ⟨_, rfl, Input.Ends.fail hs.tail _⟩
          | cons u ts =>
            by_cases hu : u.kind = .keyword .inOp
            · rw [bind_of_ok (skip_of_eq hs.tail hu)]
              exact .inr ⟨_, if_pos hu, Input.Ends.ok hs.tail.tail _⟩
            · rw [bind_of_ok (skip_of_ne hs.tail hu)]
              exact .inr ⟨_, if_neg hu, Input.Ends.fail hs.tail _⟩
        · rw [if_neg hnot, if_neg hnot]
          exact .inl ⟨rfl, rfl⟩

end operators

theorem expression_nil (stop : Position) (tier : Tier) :
    expression stop tier [] =
      .fail ⟨.expectedExpression (describe []), stop⟩ [] (Nat.le_refl _) := by
  induction hrank : tier.rank using Nat.strong_induction_on generalizing tier with
  | _ n ih =>
    have hlower : ∀ tier' : Tier, tier'.rank < tier.rank → expression stop tier' [] =
        .fail ⟨.expectedExpression (describe []), stop⟩ [] (Nat.le_refl _) :=
      fun tier' hlt => ih tier'.rank (hrank ▸ hlt) tier' rfl
    cases tier with
    | conditional =>
      rw [expression, hlower (.level .disjunction) (by decide)]
      rfl
    | level l =>
      rw [expression, hlower l.operands (Level.rank_operands_lt l)]
      rfl
    | inversion => rw [expression, hlower .comparison (by decide)]
    | comparison =>
      rw [expression, hlower (.level .bitOr) (by decide)]
      rfl
    | signed => rw [expression, hlower .power (by decide)]
    | power =>
      rw [expression, hlower .atom (by decide)]
      rfl
    | atom => rw [expression]

/-- With this fuel, the readers of expressions do what the replies say. -/
structure Input.Follows (i : Input) (fuel : Nat) : Prop where
  expression {tier : Tier} {ts : List Token} {p : Nat} {es : List SyntaxError}
    (hfuel : 20 * ts.length + tier.rank < fuel) (hs : i.Shows p ts) :
    i.Ends es (Cursor.expression fuel tier (i.cursor p es))
      (Grammar.expression i.stop tier ts).quiet
  operations {l : Level} {left : Expr} {ts : List Token} {p : Nat} {es : List SyntaxError}
    (hfuel : 20 * ts.length + 15 < fuel) (hs : i.Shows p ts) :
    i.Ends es (Cursor.operations fuel l left (i.cursor p es))
      (Grammar.operations i.stop l left ts).quiet
  comparisons {ts : List Token} {p : Nat} {es : List SyntaxError}
    (hfuel : 20 * ts.length + 15 < fuel) (hs : i.Shows p ts) :
    i.Ends es (Cursor.comparisons fuel (i.cursor p es)) (Grammar.comparisons i.stop ts).quiet
  arguments {closes : Kind → Bool} {ts : List Token} {p : Nat} {es : List SyntaxError}
    (hfuel : 20 * ts.length + 15 < fuel) (hs : i.Shows p ts) :
    i.Ends es (Cursor.arguments fuel closes (i.cursor p es))
      (Grammar.arguments i.stop closes ts).quiet

namespace Input.Follows

variable {i : Input} {fuel p : Nat} {es : List SyntaxError} {ts : List Token}

theorem conditional (ih : i.Follows fuel) (hfuel : 20 * ts.length + 13 < fuel + 1)
    (hs : i.Shows p ts) :
    i.Ends es (Cursor.expression (fuel + 1) .conditional (i.cursor p es))
      (Grammar.expression i.stop .conditional ts).quiet := by
  rw [Cursor.expression, Grammar.expression, Reply.quiet_andThen]
  refine Ends.bind (ih.expression (by simp only [Tier.rank]; omega) hs) fun left rest hle p hs => ?_
  cases rest with
  | nil =>
    rw [bind_of_ok (skip_nil hs _), if_neg Bool.false_ne_true]
    exact Ends.ok hs _
  | cons t rest =>
    rw [List.length_cons] at hle
    by_cases ht : t.kind = .keyword .ifOp
    · rw [bind_of_ok (skip_of_eq hs ht), if_pos rfl]
      simp only [if_pos ht, Reply.quiet_loosen, Reply.quiet_behind, Ends.loosen_iff,
        Ends.behind_iff, Reply.quiet_andThen]
      refine Ends.bind (ih.expression (by simp only [Tier.rank]; omega) hs.tail)
        fun condition rest₂ hle₂ p₂ hs₂ => ?_
      refine Ends.bind (Ends.expect _ _ hs₂) fun _ rest₃ hle₃ p₃ hs₃ => ?_
      exact Ends.map _ (ih.expression (by simp only [Tier.rank]; omega) hs₃)
    · rw [bind_of_ok (skip_of_ne hs ht), if_neg Bool.false_ne_true]
      simp only [if_neg ht]
      exact Ends.ok hs _

theorem level (ih : i.Follows fuel) {l : Level}
    (hfuel : 20 * ts.length + (Tier.level l).rank < fuel + 1) (hs : i.Shows p ts) :
    i.Ends es (Cursor.expression (fuel + 1) (.level l) (i.cursor p es))
      (Grammar.expression i.stop (.level l) ts).quiet := by
  have hrank := Level.rank_operands_lt l
  rw [Cursor.expression, Grammar.expression, Reply.quiet_andThen]
  refine Ends.bind (ih.expression (by omega) hs) fun left rest hle p hs => ?_
  exact ih.operations (by omega) hs

theorem inversion (ih : i.Follows fuel) (hfuel : 20 * ts.length + 10 < fuel + 1)
    (hs : i.Shows p ts) :
    i.Ends es (Cursor.expression (fuel + 1) .inversion (i.cursor p es))
      (Grammar.expression i.stop .inversion ts).quiet := by
  rw [Cursor.expression]
  cases ts with
  | nil =>
    rw [bind_of_ok (skip_nil hs _), if_neg Bool.false_ne_true, Grammar.expression]
    exact ih.expression (by simp only [Tier.rank]; omega) hs
  | cons t ts =>
    rw [Grammar.expression]
    by_cases ht : t.kind = .keyword .notOp
    · rw [bind_of_ok (skip_of_eq hs ht), if_pos rfl, bind_of_ok (previous_tail hs), if_pos ht,
        Reply.quiet_behind, Ends.behind_iff]
      rw [List.length_cons] at hfuel
      exact Ends.map _ (ih.expression (by simp only [Tier.rank]; omega) hs.tail)
    · rw [bind_of_ok (skip_of_ne hs ht), if_neg Bool.false_ne_true, if_neg ht]
      exact ih.expression (by simp only [Tier.rank]; omega) hs

theorem comparison (ih : i.Follows fuel) (hfuel : 20 * ts.length + 9 < fuel + 1)
    (hs : i.Shows p ts) :
    i.Ends es (Cursor.expression (fuel + 1) .comparison (i.cursor p es))
      (Grammar.expression i.stop .comparison ts).quiet := by
  rw [Cursor.expression, Grammar.expression, Reply.quiet_andThen]
  refine Ends.bind (ih.expression (by simp only [Tier.rank]; omega) hs)
    fun first rest hle p hs => ?_
  exact Ends.map _ (ih.comparisons (by omega) hs)

theorem signed (ih : i.Follows fuel) (hfuel : 20 * ts.length + 2 < fuel + 1)
    (hs : i.Shows p ts) :
    i.Ends es (Cursor.expression (fuel + 1) .signed (i.cursor p es))
      (Grammar.expression i.stop .signed ts).quiet := by
  rw [Cursor.expression]
  cases ts with
  | nil =>
    rw [bind_of_ok (peek_nil hs), i.kind_final, Grammar.expression]
    exact ih.expression (by simp only [Tier.rank]; omega) hs
  | cons t ts =>
    rw [bind_of_ok (peek_cons hs), Grammar.expression]
    cases hop : signOperator? t.kind with
    | none => exact ih.expression (by simp only [Tier.rank]; omega) hs
    | some op =>
      simp only
      rw [bind_of_ok (advance_cons hs), Reply.quiet_behind, Ends.behind_iff]
      rw [List.length_cons] at hfuel
      exact Ends.map _ (ih.expression (by simp only [Tier.rank]; omega) hs.tail)

theorem power (ih : i.Follows fuel) (hfuel : 20 * ts.length + 1 < fuel + 1)
    (hs : i.Shows p ts) :
    i.Ends es (Cursor.expression (fuel + 1) .power (i.cursor p es))
      (Grammar.expression i.stop .power ts).quiet := by
  rw [Cursor.expression, Grammar.expression, Reply.quiet_andThen]
  refine Ends.bind (ih.expression (by simp only [Tier.rank]; omega) hs) fun base rest hle p hs => ?_
  cases rest with
  | nil =>
    rw [bind_of_ok (skip_nil hs _), if_neg Bool.false_ne_true]
    exact Ends.ok hs _
  | cons t rest =>
    rw [List.length_cons] at hle
    by_cases ht : t.kind = .symbol .starStar
    · rw [bind_of_ok (skip_of_eq hs ht), if_pos rfl, bind_of_ok (previous_tail hs)]
      simp only [if_pos ht, Reply.quiet_loosen, Reply.quiet_behind, Ends.loosen_iff,
        Ends.behind_iff]
      exact Ends.map _ (ih.expression (by simp only [Tier.rank]; omega) hs.tail)
    · rw [bind_of_ok (skip_of_ne hs ht), if_neg Bool.false_ne_true]
      simp only [if_neg ht]
      exact Ends.ok hs _

theorem atom (ih : i.Follows fuel) (hfuel : 20 * ts.length < fuel + 1) (hs : i.Shows p ts) :
    i.Ends es (Cursor.expression (fuel + 1) .atom (i.cursor p es))
      (Grammar.expression i.stop .atom ts).quiet := by
  rw [Cursor.expression, Grammar.expression.eq_def]
  cases ts with
  | nil =>
    have hleaf : leaf? i.final = none := by simp [leaf?, i.kind_final]
    rw [bind_of_ok (peek_nil hs), hleaf, i.kind_final, i.describe_final]
    exact Ends.fail hs _
  | cons t ts =>
    rw [bind_of_ok (peek_cons hs)]
    rw [List.length_cons] at hfuel
    cases hleaf : leaf? t with
    | some e =>
      simp only [hleaf]
      rw [bind_of_ok (advance_cons hs)]
      exact Ends.ok hs.tail _
    | none =>
      simp only [hleaf]
      by_cases ht : t.kind = .symbol .leftParen
      · rw [if_pos ht, if_pos ht, bind_of_ok (advance_cons hs)]
        have hs₁ := hs.tail
        cases ts with
        | nil =>
          have hinner : i.Ends es (Cursor.expression fuel .conditional (i.cursor (p + 1) es)) _ :=
            ih.expression (by simp only [Tier.rank, List.length_nil]; omega) hs₁
          obtain ⟨p', hx, hs'⟩ := hinner
          rw [expression_nil] at hx hs'
          rw [bind_of_ok (check_nil hs₁ _), if_neg Bool.false_ne_true, bind_of_error hx]
          exact ⟨p', rfl, hs'⟩
        | cons n rest =>
          rw [bind_of_ok (check_cons hs₁ _)]
          rw [List.length_cons] at hfuel
          by_cases hn : n.kind = .command
          · rw [if_pos (beq_iff_eq.mpr hn), bind_of_ok (advance_cons hs₁)]
            simp only [if_pos hn, Reply.quiet_behind, Ends.behind_iff, Reply.quiet_andThen]
            refine Ends.bind (ih.arguments (by omega) hs₁.tail) fun args rest₂ hle₂ p₂ hs₂ => ?_
            exact Ends.map _ (Ends.expect _ _ hs₂)
          · rw [if_neg (by simpa using hn)]
            simp only [if_neg hn, Reply.quiet_behind, Ends.behind_iff, Reply.quiet_andThen]
            refine Ends.bind (ih.expression (by simp only [Tier.rank, List.length_cons]; omega) hs₁)
              fun inner rest₂ hle₂ p₂ hs₂ => ?_
            exact Ends.map _ (Ends.expect _ _ hs₂)
      · rw [if_neg ht, if_neg ht]
        exact Ends.fail hs _

theorem operations_succ (ih : i.Follows fuel) {l : Level} {left : Expr}
    (hfuel : 20 * ts.length + 15 < fuel + 1) (hs : i.Shows p ts) :
    i.Ends es (Cursor.operations (fuel + 1) l left (i.cursor p es))
      (Grammar.operations i.stop l left ts).quiet := by
  have hrank := Tier.rank_lt l.operands
  rw [Cursor.operations, Grammar.operations.eq_def]
  cases ts with
  | nil =>
    rw [bind_of_ok (operator?_nil hs l)]
    exact Ends.ok hs _
  | cons t ts =>
    rw [List.length_cons] at hfuel
    cases hop : l.operator? t.kind with
    | none =>
      rw [bind_of_ok (operator?_of_none hs hop)]
      simp only [hop]
      exact Ends.ok hs _
    | some op =>
      rw [bind_of_ok (operator?_of_some hs hop)]
      simp only [hop, Reply.quiet_loosen, Reply.quiet_behind, Ends.loosen_iff, Ends.behind_iff,
        Reply.quiet_andThen]
      rw [bind_of_ok (previous_tail hs)]
      refine Ends.bind (ih.expression (by omega) hs.tail) fun right rest hle p hs => ?_
      exact ih.operations (by omega) hs

theorem comparisons_succ (ih : i.Follows fuel) (hfuel : 20 * ts.length + 15 < fuel + 1)
    (hs : i.Shows p ts) :
    i.Ends es (Cursor.comparisons (fuel + 1) (i.cursor p es))
      (Grammar.comparisons i.stop ts).quiet := by
  rw [Cursor.comparisons, Grammar.comparisons]
  rcases comparisonOperator_cases hs with ⟨hop, h⟩ | ⟨r, hop, h⟩
  · rw [bind_of_ok h, hop]
    exact Ends.ok hs _
  · rw [hop]
    simp only [Reply.quiet_loosen, Ends.loosen_iff, Reply.quiet_andThen]
    refine Ends.bind_map some h fun o rest hle p hs => ?_
    refine Ends.bind (ih.expression (by simp only [Tier.rank]; omega) hs)
      fun right rest₂ hle₂ p₂ hs₂ => ?_
    exact Ends.map _ (ih.comparisons (by omega) hs₂)

theorem arguments_succ (ih : i.Follows fuel) {closes : Kind → Bool}
    (hfuel : 20 * ts.length + 15 < fuel + 1) (hs : i.Shows p ts) :
    i.Ends es (Cursor.arguments (fuel + 1) closes (i.cursor p es))
      (Grammar.arguments i.stop closes ts).quiet := by
  rw [Cursor.arguments, Grammar.arguments.eq_def]
  cases ts with
  | nil =>
    rw [bind_of_ok (peek_nil hs), if_pos (.inr i.kind_final)]
    exact Ends.ok hs _
  | cons t ts =>
    rw [bind_of_ok (peek_cons hs)]
    simp only
    by_cases ht : closes t.kind = true
    · rw [if_pos (.inl ht), if_pos ht]
      exact Ends.ok hs _
    · rw [if_neg (not_or.mpr ⟨ht, hs.kind_ne⟩), if_neg ht, Reply.quiet_loosen, Ends.loosen_iff,
        Reply.quiet_andThen]
      refine Ends.bind (ih.expression (by simp only [Tier.rank]; omega) hs)
        fun e rest hle p hs => ?_
      exact Ends.map _ (ih.arguments (by omega) hs)

end Input.Follows

/-- With enough fuel, the readers of expressions do what the replies say. -/
theorem Input.follows (i : Input) (fuel : Nat) : i.Follows fuel := by
  induction fuel with
  | zero => constructor <;> intros <;> omega
  | succ fuel ih =>
    refine ⟨fun {tier ts p es} hfuel hs => ?_, ih.operations_succ, ih.comparisons_succ,
      ih.arguments_succ⟩
    cases tier with
    | conditional => exact ih.conditional hfuel hs
    | level l => exact ih.level hfuel hs
    | inversion => exact ih.inversion hfuel hs
    | comparison => exact ih.comparison hfuel hs
    | signed => exact ih.signed hfuel hs
    | power => exact ih.power hfuel hs
    | atom => exact ih.atom hfuel hs

end Offside.Grammar
