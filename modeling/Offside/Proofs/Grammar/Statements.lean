import Offside.Proofs.Grammar.Reading
import Offside.Grammar.Statement

/-!
# What reading statements amounts to

The readers of statements note errors of the blocks inside and go on. `Gives` is said of a reply
that noted none, so that recovery has no part in it. For each reader one lemma says when it gives a
result, in terms of the readers it calls.
-/

namespace Offside.Grammar

/-! ## Replies without errors -/

namespace Traced

variable {α β : Type} {k : Nat} {ts : List Token}

/-- The reply is the result `a` with `rest` left, and no error was noted on the way. -/
def Gives (r : Traced α k ts) (a : α) (rest : List Token) : Prop :=
  r.errors = [] ∧ r.reply.Gives a rest

theorem Gives.le {r : Traced α k ts} {a : α} {rest : List Token} (h : r.Gives a rest) :
    rest.length + k ≤ ts.length := h.2.le

@[simp] theorem gives_mk {es : List SyntaxError} {r : Reply α k ts} {a : α} {rest : List Token} :
    (⟨es, r⟩ : Traced α k ts).Gives a rest ↔ es = [] ∧ r.Gives a rest := Iff.rfl

@[simp] theorem gives_quiet {r : Reply α k ts} {a : α} {rest : List Token} :
    r.quiet.Gives a rest ↔ r.Gives a rest := by
  simp [Reply.quiet]

@[simp] theorem gives_map {f : α → β} {r : Traced α k ts} {b : β} {rest : List Token} :
    (r.map f).Gives b rest ↔ ∃ a, r.Gives a rest ∧ f a = b := by
  simp only [map, Gives, Reply.gives_map]
  constructor
  · rintro ⟨he, a, ha, hb⟩
    exact ⟨a, ⟨he, ha⟩, hb⟩
  · rintro ⟨a, ⟨he, ha⟩, hb⟩
    exact ⟨he, a, ha, hb⟩

@[simp] theorem gives_behind {t : Token} {r : Traced α k ts} {a : α} {rest : List Token} :
    (r.behind t).Gives a rest ↔ r.Gives a rest := by
  simp [behind, Gives]

@[simp] theorem gives_loosen {r : Traced α k ts} {a : α} {rest : List Token} :
    r.loosen.Gives a rest ↔ r.Gives a rest := by
  simp [loosen, Gives]

theorem gives_andThen {j : Nat} {r : Traced α k ts}
    {f : (a : α) → (rest : List Token) → rest.length + k ≤ ts.length → Traced β j rest} {b : β}
    {rest : List Token} :
    (r.andThen f).Gives b rest ↔ ∃ a mid, ∃ h : r.Gives a mid, (f a mid h.le).Gives b rest := by
  obtain ⟨es, r⟩ := r
  cases r with
  | fail e mid le =>
    constructor
    · intro h
      exact absurd h.2 Reply.not_gives_fail
    · rintro ⟨a, mid', h, -⟩
      exact absurd h.2 Reply.not_gives_fail
  | ok a mid shorter =>
    constructor
    · intro hb
      cases hf : f a mid shorter with
      | mk es' r' =>
        cases r' with
        | fail e mid' le =>
          simp only [andThen, hf] at hb
          exact absurd hb.2 Reply.not_gives_fail
        | ok b' mid' shorter' =>
          simp only [andThen, hf, gives_mk, List.append_eq_nil_iff, Reply.gives_ok] at hb
          obtain ⟨⟨rfl, rfl⟩, rfl, rfl⟩ := hb
          exact ⟨a, mid, ⟨rfl, shorter, rfl⟩, by rw [hf]; simp⟩
    · rintro ⟨a', mid', ⟨hes, hok⟩, hb⟩
      obtain ⟨rfl, rfl⟩ := Reply.gives_ok.mp hok
      obtain rfl : es = [] := hes
      obtain ⟨hes', shorter', hr'⟩ := hb
      cases hf : f a mid shorter with
      | mk es' r' =>
        rw [hf] at hes' hr'
        simp only at hes' hr'
        simp [andThen, hf, hes', hr']

end Traced

/-! ## Parts of a line -/

/-- A line ends at `ts`: a newline is taken, and the end of a block or of the input is left. -/
def LineEnd (ts rest : List Token) : Prop :=
  (∃ t, ts = t :: rest ∧ t.kind = .newline) ∨ ts = rest ∧ Ahead (· = .dedent) ts

variable {stop : Position} {ts rest : List Token}

@[simp] theorem gives_endLine {x : Unit} : (endLine stop ts).Gives x rest ↔ LineEnd ts rest := by
  unfold LineEnd
  cases ts with
  | nil => simp [endLine]
  | cons t ts =>
    simp only [endLine]
    split_ifs with hn hd
    · simp only [Reply.gives_ok, true_and, ahead_cons, hn, reduceCtorEq, and_false, or_false]
      constructor
      · rintro rfl
        exact ⟨t, rfl, hn⟩
      · rintro ⟨t', he, -⟩
        exact (List.cons.inj he).2
    · simp only [Reply.gives_ok, true_and, ahead_cons, hd, and_true]
      constructor
      · exact .inr
      · rintro (⟨t', he, hn'⟩ | he)
        · rw [← (List.cons.inj he).1] at hn'
          exact absurd hn' hn
        · exact he
    · simp only [Reply.not_gives_fail, ahead_cons, hd, and_false, or_false, false_iff]
      rintro ⟨t', he, hn'⟩
      rw [← (List.cons.inj he).1] at hn'
      exact hn hn'

theorem gives_parameters {ps : List Name} :
    (parameters ts).Gives ps rest ↔
      ∃ us, ts = us ++ rest ∧ ps = us.map nameOf ∧ (∀ u ∈ us, u.kind = .identifier) ∧
        Ahead (· ≠ .identifier) rest := by
  induction ts generalizing ps with
  | nil =>
    simp only [parameters, Reply.gives_ok]
    constructor
    · rintro ⟨rfl, rfl⟩
      exact ⟨[], rfl, rfl, by simp, ahead_nil _⟩
    · rintro ⟨us, he, rfl, -, -⟩
      obtain ⟨rfl, rfl⟩ := List.append_eq_nil_iff.mp he.symm
      exact ⟨rfl, rfl⟩
  | cons t ts ih =>
    simp only [parameters]
    split_ifs with ht
    · simp only [Reply.gives_loosen, Reply.gives_behind, Reply.gives_map, ih]
      constructor
      · rintro ⟨ps, ⟨us, rfl, rfl, hus, hrest⟩, rfl⟩
        exact ⟨t :: us, rfl, rfl, by simpa [ht] using hus, hrest⟩
      · rintro ⟨us, he, rfl, hus, hrest⟩
        cases us with
        | nil =>
          obtain rfl : t :: ts = rest := he
          exact absurd ht (ahead_cons.mp hrest)
        | cons u us =>
          obtain ⟨rfl, rfl⟩ := List.cons.inj he
          exact ⟨us.map nameOf, ⟨us, rfl, rfl, fun x hx => hus x (by simp [hx]), hrest⟩, rfl⟩
    · simp only [Reply.gives_ok]
      constructor
      · rintro ⟨rfl, rfl⟩
        exact ⟨[], rfl, rfl, by simp, ahead_cons.mpr ht⟩
      · rintro ⟨us, he, rfl, hus, -⟩
        cases us with
        | nil => exact ⟨rfl, he⟩
        | cons u us =>
          obtain ⟨rfl, -⟩ := List.cons.inj he
          exact absurd (hus t (by simp)) ht

/-- An expression is read where the rules allow it, wherever the input is said to end. -/
theorem gives_expression {tier : Tier} {e : Expr} :
    (expression stop tier ts).Gives e rest ↔ Reads (.expr tier e) ts rest :=
  (reads_iff stop (g := .expr tier e)).symm

theorem gives_arguments {closes : Kind → Bool} {es : List Expr} :
    (arguments stop closes ts).Gives es rest ↔ Reads (.args closes es) ts rest :=
  (reads_iff stop (g := .args closes es)).symm

theorem gives_binding {n : Name} {e : Expr} :
    (binding stop ts).Gives (n, e) rest ↔
      ∃ t r₁ r₂, ts = t :: r₁ ∧ t.kind = .identifier ∧ nameOf t = n ∧
        Reads (.expr .conditional e) r₁ r₂ ∧ LineEnd r₂ rest := by
  simp only [binding, Reply.gives_andThen, Reply.gives_map, gives_expect, gives_expression,
    gives_endLine]
  constructor
  · rintro ⟨t, r₁, ⟨rfl, ht⟩, value, r₂, he, -, hend, hv⟩
    cases hv
    exact ⟨t, r₁, r₂, rfl, ht, rfl, he, hend⟩
  · rintro ⟨t, r₁, r₂, rfl, ht, rfl, he, hend⟩
    exact ⟨t, r₁, ⟨rfl, ht⟩, e, r₂, he, (), hend, rfl⟩

theorem atLineEnd_iff : atLineEnd ts = true ↔ Ahead (endsArguments · = true) ts := by
  cases ts with
  | nil => simp [atLineEnd]
  | cons t ts =>
    simp only [atLineEnd, ahead_cons, Bool.or_eq_true, beq_iff_eq]
    unfold endsArguments
    split <;> simp_all

theorem gives_returnValue {v : Option Expr} :
    (returnValue stop ts).Gives v rest ↔
      (v = none ∧ ts = rest ∧ Ahead (endsArguments · = true) ts) ∨
        ∃ e, v = some e ∧ atLineEnd ts = false ∧ Reads (.expr .conditional e) ts rest := by
  unfold returnValue
  split_ifs with h
  · rw [Reply.gives_ok]
    constructor
    · rintro ⟨rfl, rfl⟩
      exact .inl ⟨rfl, rfl, atLineEnd_iff.mp h⟩
    · rintro (⟨rfl, rfl, -⟩ | ⟨e, -, h', -⟩)
      · exact ⟨rfl, rfl⟩
      · rw [h] at h'
        cases h'
  · simp only [Reply.gives_loosen, Reply.gives_map, gives_expression]
    constructor
    · rintro ⟨e, he, rfl⟩
      exact .inr ⟨e, rfl, Bool.eq_false_iff.mpr h, he⟩
    · rintro (⟨-, -, h'⟩ | ⟨e, rfl, -, he⟩)
      · exact absurd (atLineEnd_iff.mpr h') h
      · exact ⟨e, he, rfl⟩

theorem gives_expressionStatement {s : Stmt} :
    (expressionStatement stop ts).Gives s rest ↔
      ∃ e mid, Reads (.expr .conditional e) ts mid ∧ LineEnd mid rest ∧ s = .expression e := by
  simp only [expressionStatement, Reply.gives_andThen, Reply.gives_map, gives_expression,
    gives_endLine]
  constructor
  · rintro ⟨e, mid, he, -, hend, rfl⟩
    exact ⟨e, mid, he, hend, rfl⟩
  · rintro ⟨e, mid, he, hend, rfl⟩
    exact ⟨e, mid, he, (), hend, rfl⟩

/-! ## Blocks -/

/-- The statements are `p` with `rest` left, and no error was noted between or in them. -/
def Statements.Gives (r : Statements ts) (p : Program) (rest : List Token) : Prop :=
  r.errors = [] ∧ r.program = p ∧ r.rest = rest

/-- Statements end at the end of the input and, inside a block, at the end of the block. -/
def StatementsEnd (inside : Bool) (ts : List Token) : Prop :=
  Ahead (fun k => inside = true ∧ k = .dedent) ts

theorem gives_statements_end {inside : Bool} {p : Program} (h : StatementsEnd inside ts) :
    (statements stop inside ts).Gives p rest ↔ p = [] ∧ ts = rest := by
  cases ts with
  | nil => simp [statements, Statements.Gives, eq_comm]
  | cons t ts =>
    obtain ⟨hi, ht⟩ := ahead_cons.mp h
    simp [statements, Statements.Gives, hi, ht, eq_comm]

theorem gives_statements_cons {inside : Bool} {p : Program} {t : Token}
    (h : ¬ StatementsEnd inside (t :: ts)) :
    (statements stop inside (t :: ts)).Gives p rest ↔
      ∃ s mid p', (statement stop (t :: ts)).Gives s mid ∧
        (statements stop inside (skipNewlines mid)).Gives p' rest ∧ p = s :: p' := by
  have hend : (inside && t.kind == .dedent) = false := by
    simpa [StatementsEnd, Bool.and_eq_false_imp] using h
  rw [statements, hend]
  simp only [Bool.false_eq_true, if_false]
  cases hs : statement stop (t :: ts) with
  | mk es r =>
    cases r with
    | ok s mid shorter =>
      simp only [Statements.Gives, List.append_eq_nil_iff]
      constructor
      · rintro ⟨⟨rfl, he⟩, rfl, hr⟩
        exact ⟨s, mid, _, ⟨rfl, shorter, rfl⟩, ⟨he, rfl, hr⟩, rfl⟩
      · rintro ⟨s', mid', p', ⟨rfl, hok⟩, ⟨he, rfl, hr⟩, rfl⟩
        obtain ⟨rfl, rfl⟩ := Reply.gives_ok.mp hok
        exact ⟨⟨rfl, he⟩, rfl, hr⟩
    | fail e mid le =>
      simp only [Statements.Gives, List.append_eq_nil_iff, reduceCtorEq, and_false, false_and,
        false_iff]
      rintro ⟨s', mid', p', hgives, -⟩
      exact absurd hgives.2 Reply.not_gives_fail

theorem gives_block {body : List Stmt} :
    (block stop ts).Gives body rest ↔
      ∃ t r₁ mid, skipNewlines ts = t :: r₁ ∧ t.kind = .indent ∧
        (statements stop true r₁).Gives body mid ∧ rest = mid.tail := by
  rw [block]
  split
  · rename_i h
    simp [h]
  · rename_i t r₁ h
    have hunique : ∀ {t' r₁'}, skipNewlines ts = t' :: r₁' → t = t' ∧ r₁ = r₁' := fun h' =>
      List.cons.inj (h.symm.trans h')
    split_ifs with ht
    · cases hs : statements stop true r₁ with
      | mk es p mid le =>
        -- the end of the block is taken, if it is there
        have hright : (∃ t' r₁' mid', skipNewlines ts = t' :: r₁' ∧ t'.kind = .indent ∧
            (statements stop true r₁').Gives body mid' ∧ rest = mid'.tail) ↔
            es = [] ∧ p = body ∧ mid.tail = rest := by
          constructor
          · rintro ⟨t', r₁', mid', h', -, hg, rfl⟩
            obtain ⟨rfl, rfl⟩ := hunique h'
            rw [hs] at hg
            obtain ⟨he, hp, rfl⟩ := hg
            exact ⟨he, hp, rfl⟩
          · rintro ⟨rfl, rfl, rfl⟩
            exact ⟨t, r₁, mid, h, ht, by rw [hs]; exact ⟨rfl, rfl, rfl⟩, rfl⟩
        rw [hright]
        cases mid <;> simp
    · simp only [Traced.gives_mk, Reply.not_gives_fail, and_false, false_iff]
      rintro ⟨t', r₁', mid, h', ht', -⟩
      rw [← (hunique h').1] at ht'
      exact ht ht'

theorem gives_blockBelow {what : SyntaxError.Wanted} {body : List Stmt} :
    (blockBelow stop what ts).Gives body rest ↔
      ∃ t r₁, ts = t :: r₁ ∧ t.kind = .newline ∧ (block stop r₁).Gives body rest := by
  simp only [blockBelow, Traced.gives_andThen, Traced.gives_quiet, gives_expect]
  constructor
  · rintro ⟨t, r₁, ⟨rfl, ht⟩, hb⟩
    exact ⟨t, r₁, rfl, ht, hb⟩
  · rintro ⟨t, r₁, rfl, ht, hb⟩
    exact ⟨t, r₁, ⟨rfl, ht⟩, hb⟩

/-! ## Statements -/

theorem gives_elseBranch {body : List Stmt} :
    (elseBranch stop ts).Gives body rest ↔
      (∃ t r₁ s, ts = t :: r₁ ∧ t.kind = .keyword .ifStmt ∧ (condition stop r₁).Gives s rest ∧
        body = [s]) ∨
      Ahead (· ≠ .keyword .ifStmt) ts ∧ (blockBelow stop .newlineAfterElse ts).Gives body rest := by
  cases ts with
  | nil => simp [elseBranch]
  | cons t ts =>
    rw [elseBranch]
    split_ifs with ht
    · simp only [Traced.gives_behind, Traced.gives_map, ahead_cons, ht, ne_eq, not_true_eq_false,
        false_and, or_false]
      constructor
      · rintro ⟨s, hs, rfl⟩
        exact ⟨t, ts, s, rfl, ht, hs, rfl⟩
      · rintro ⟨t', r₁, s, he, -, hs, rfl⟩
        obtain ⟨rfl, rfl⟩ := List.cons.inj he
        exact ⟨s, hs, rfl⟩
    · simp only [ahead_cons, ne_eq, ht, not_false_eq_true, true_and]
      constructor
      · exact .inr
      · rintro (⟨t', r₁, s, he, ht', -⟩ | hb)
        · rw [← (List.cons.inj he).1] at ht'
          exact absurd ht' ht
        · exact hb

/-- What can follow a condition without belonging to it. -/
def EndsCondition (k : Kind) : Prop := k ≠ .keyword .elseStmt ∧ k ≠ .keyword .elsifStmt

theorem gives_condition {s : Stmt} :
    (condition stop ts).Gives s rest ↔
      ∃ test r₁ body r₂, Reads (.expr .conditional test) ts r₁ ∧
        (blockBelow stop .newlineAfterCondition r₁).Gives body r₂ ∧
        (s = .condition test body none ∧ r₂ = rest ∧ Ahead EndsCondition r₂ ∨
          ∃ t r₃, r₂ = t :: r₃ ∧
            ((∃ other, t.kind = .keyword .elseStmt ∧ (elseBranch stop r₃).Gives other rest ∧
                s = .condition test body (some other)) ∨
              ∃ s', t.kind = .keyword .elsifStmt ∧ (condition stop r₃).Gives s' rest ∧
                s = .condition test body (some [s']))) := by
  rw [condition]
  simp only [Traced.gives_andThen, Traced.gives_quiet, gives_expression]
  constructor
  · rintro ⟨test, r₁, htest, body, r₂, hbody, h⟩
    refine ⟨test, r₁, body, r₂, htest, hbody, ?_⟩
    cases r₂ with
    | nil =>
      obtain ⟨-, hs⟩ := h
      obtain ⟨rfl, rfl⟩ := Reply.gives_ok.mp hs
      exact .inl ⟨rfl, rfl, ahead_nil _⟩
    | cons t r₃ =>
      simp only at h
      split_ifs at h with helse helsif
      · simp only [Traced.gives_loosen, Traced.gives_behind, Traced.gives_map] at h
        obtain ⟨other, ho, rfl⟩ := h
        exact .inr ⟨t, r₃, rfl, .inl ⟨other, helse, ho, rfl⟩⟩
      · simp only [Traced.gives_loosen, Traced.gives_behind, Traced.gives_map] at h
        obtain ⟨s', hs', rfl⟩ := h
        exact .inr ⟨t, r₃, rfl, .inr ⟨s', helsif, hs', rfl⟩⟩
      · obtain ⟨-, hs⟩ := h
        obtain ⟨rfl, rfl⟩ := Reply.gives_ok.mp hs
        exact .inl ⟨rfl, rfl, ahead_cons.mpr ⟨helse, helsif⟩⟩
  · rintro ⟨test, r₁, body, r₂, htest, hbody, h⟩
    refine ⟨test, r₁, htest, body, r₂, hbody, ?_⟩
    rcases h with ⟨rfl, rfl, hend⟩ | ⟨t, r₃, rfl, ⟨other, ht, ho, rfl⟩ | ⟨s', ht, hs', rfl⟩⟩
    · cases r₂ with
      | nil => simp
      | cons t r₃ =>
        obtain ⟨helse, helsif⟩ := ahead_cons.mp hend
        simp [helse, helsif]
    · simp only [ht, if_true, Traced.gives_loosen, Traced.gives_behind, Traced.gives_map]
      exact ⟨other, ho, rfl⟩
    · simp only [ht, reduceCtorEq, if_true, if_false, Traced.gives_loosen, Traced.gives_behind,
        Traced.gives_map, Kind.keyword.injEq]
      exact ⟨s', hs', rfl⟩

section header

variable {t : Token} {s : Stmt}

theorem gives_init (ht : t.kind = .keyword .initStmt) :
    (statement stop (t :: ts)).Gives s rest ↔
      ∃ n e, (binding stop ts).Gives (n, e) rest ∧ s = .init n e := by
  rw [statement, ht]
  simp [eq_comm]

theorem gives_set (ht : t.kind = .keyword .setStmt) :
    (statement stop (t :: ts)).Gives s rest ↔
      ∃ n e, (binding stop ts).Gives (n, e) rest ∧ s = .set n e := by
  rw [statement, ht]
  simp [eq_comm]

theorem gives_return (ht : t.kind = .keyword .returnStmt) :
    (statement stop (t :: ts)).Gives s rest ↔
      ∃ v, (returnValue stop ts).Gives v rest ∧ s = .ret t.pos v := by
  rw [statement, ht]
  simp [eq_comm]

theorem gives_definition (ht : t.kind = .keyword .defStmt) :
    (statement stop (t :: ts)).Gives s rest ↔
      ∃ n r₁ params r₂ body, ts = n :: r₁ ∧ n.kind = .command ∧ (parameters r₁).Gives params r₂ ∧
        (blockBelow stop .newlineAfterParameters r₂).Gives body rest ∧
        s = .definition (nameOf n) params body := by
  rw [statement, ht]
  simp only [Traced.gives_behind, Traced.gives_andThen, Traced.gives_quiet, Traced.gives_map,
    gives_expect]
  constructor
  · rintro ⟨n, r₁, ⟨rfl, hn⟩, params, r₂, hps, body, hb, rfl⟩
    exact ⟨n, r₁, params, r₂, body, rfl, hn, hps, hb, rfl⟩
  · rintro ⟨n, r₁, params, r₂, body, rfl, hn, hps, hb, rfl⟩
    exact ⟨n, r₁, ⟨rfl, hn⟩, params, r₂, hps, body, hb, rfl⟩

theorem gives_if (ht : t.kind = .keyword .ifStmt) :
    (statement stop (t :: ts)).Gives s rest ↔ (condition stop ts).Gives s rest := by
  rw [statement, ht]
  simp

theorem gives_while (ht : t.kind = .keyword .whileStmt) :
    (statement stop (t :: ts)).Gives s rest ↔
      ∃ test mid body, Reads (.expr .conditional test) ts mid ∧
        (blockBelow stop .newlineAfterCondition mid).Gives body rest ∧ s = .loop test body := by
  rw [statement, ht]
  simp only [Traced.gives_behind, Traced.gives_andThen, Traced.gives_quiet, Traced.gives_map,
    gives_expression]
  constructor
  · rintro ⟨test, mid, he, body, hb, rfl⟩
    exact ⟨test, mid, body, he, hb, rfl⟩
  · rintro ⟨test, mid, body, he, hb, rfl⟩
    exact ⟨test, mid, he, body, hb, rfl⟩

theorem gives_pass (ht : t.kind = .keyword .passStmt) :
    (statement stop (t :: ts)).Gives s rest ↔ LineEnd ts rest ∧ s = .pass := by
  rw [statement, ht]
  simp [eq_comm]

theorem gives_call (ht : t.kind = .command) :
    (statement stop (t :: ts)).Gives s rest ↔
      ∃ es, Reads (.args endsArguments es) ts rest ∧ s = .expression (.call (nameOf t) es) := by
  rw [statement, ht]
  simp [gives_arguments, eq_comm]

theorem not_gives_indent (ht : t.kind = .indent) : ¬ (statement stop (t :: ts)).Gives s rest := by
  rw [statement, ht]
  simp

/-- The kinds that statements other than expressions begin with. -/
def opensStatement : Kind → Bool
  | .keyword .initStmt | .keyword .setStmt | .keyword .returnStmt | .keyword .defStmt
  | .keyword .ifStmt | .keyword .whileStmt | .keyword .passStmt | .command | .indent => true
  | _ => false

theorem statement_of_not_opens (ht : opensStatement t.kind = false) :
    statement stop (t :: ts) = (expressionStatement stop (t :: ts)).quiet := by
  have hne : ∀ k, opensStatement k = true → t.kind ≠ k := by
    rintro k hk rfl
    rw [ht] at hk
    cases hk
  rw [statement.eq_def]
  simp only
  split
  case h_10 => rfl
  all_goals exact absurd ‹t.kind = _› (hne _ rfl)

theorem gives_other (ht : Ahead (opensStatement · = false) ts) :
    (statement stop ts).Gives s rest ↔ (expressionStatement stop ts).Gives s rest := by
  cases ts with
  | nil => simp [statement]
  | cons t ts => rw [statement_of_not_opens (ahead_cons.mp ht), Traced.gives_quiet]

end header

end Offside.Grammar
