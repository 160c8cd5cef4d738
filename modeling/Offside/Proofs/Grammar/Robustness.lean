import Mathlib.Data.List.Basic
import Mathlib.Data.List.TakeWhile
import Offside.Proofs.Grammar.Following
import Offside.Proofs.Grammar.Statements

/-!
# Reading arbitrary tokens

Whatever the tokens are, the parser with a cursor comes to the same end as the parser of lists. So
it never asks for a token that is not there, never moves on from an end of input and never counts
blocks below zero, and the fuel it needs grows no faster than the number of tokens. It ends at the
first end of input, and nothing behind that has any influence.

The hard part is recovery: an error may leave the cursor anywhere, also at the end of a block or in
front of a block without a header, and reading goes on from there.
-/

namespace Offside.Grammar

open Cursor

/-- A reader with a cursor gives a result, notes no errors, and stands in front of `rest`. -/
def Input.Lands {α : Type} (i : Input) (es : List SyntaxError) (o : Ending α) (a : α)
    (rest : List Token) : Prop :=
  ∃ p, o = .done (.ok a) (i.cursor p es) ∧ i.Shows p rest

/-! ## Recovery -/

namespace Input.Lands

variable {i : Input} {fuel p : Nat} {es : List SyntaxError} {ts : List Token}

theorem skipNewlines (hfuel : ts.length < fuel) (hs : i.Shows p ts) :
    i.Lands es (Cursor.skipNewlines fuel (i.cursor p es)) () (Grammar.skipNewlines ts) := by
  induction fuel generalizing ts p with
  | zero => omega
  | succ fuel ih =>
    rw [Cursor.skipNewlines, Grammar.skipNewlines]
    cases ts with
    | nil =>
      rw [bind_of_ok (skip_nil hs _)]
      exact ⟨p, rfl, hs⟩
    | cons t ts =>
      by_cases ht : t.kind = .newline
      · rw [bind_of_ok (skip_of_eq hs ht), if_pos rfl,
          List.dropWhile_cons_of_pos (by simpa using ht)]
        rw [List.length_cons] at hfuel
        exact ih (by omega) hs.tail
      · rw [bind_of_ok (skip_of_ne hs ht), List.dropWhile_cons_of_neg (by simpa using ht)]
        exact ⟨p, rfl, hs⟩

theorem synchronizeFrom {last : Token} (hfuel : ts.length < fuel) (hs : i.Shows p (last :: ts)) :
    i.Lands es (Cursor.synchronizeFrom fuel (i.cursor (p + 1) es)) ()
      (synchronizeAfter last ts) := by
  induction fuel generalizing ts p last with
  | zero => omega
  | succ fuel ih =>
    rw [Cursor.synchronizeFrom, synchronizeAfter.eq_def]
    cases ts with
    | nil =>
      rw [bind_of_ok (atEnd_nil hs.tail)]
      exact ⟨p + 1, rfl, hs.tail⟩
    | cons t ts =>
      rw [bind_of_ok (atEnd_cons hs.tail), if_neg Bool.false_ne_true,
        bind_of_ok (previous_tail hs), bind_of_ok (peek_cons hs.tail)]
      simp only
      by_cases hstop : last.kind = .newline ∨ resumesAt t.kind = true
      · rw [if_pos hstop, if_pos hstop]
        exact ⟨p + 1, rfl, hs.tail⟩
      · rw [if_neg hstop, if_neg hstop, bind_of_ok (advance_cons hs.tail)]
        rw [List.length_cons] at hfuel
        exact ih (by omega) hs.tail

theorem synchronize (hfuel : ts.length < fuel) (hs : i.Shows p ts) :
    i.Lands es (Cursor.synchronize fuel (i.cursor p es)) () (Grammar.synchronize ts) := by
  unfold Cursor.synchronize
  cases ts with
  | nil =>
    obtain ⟨t, ht⟩ := advance_nil hs es
    obtain ⟨n, rfl⟩ : ∃ n, fuel = n + 1 := ⟨fuel - 1, by omega⟩
    rw [bind_of_ok ht, Cursor.synchronizeFrom, bind_of_ok (atEnd_nil hs)]
    exact ⟨p, rfl, hs⟩
  | cons t ts =>
    rw [bind_of_ok (advance_cons hs)]
    rw [List.length_cons] at hfuel
    exact synchronizeFrom (by omega) hs

/-- The counter is one ahead of the number of inner blocks, so it is never counted below zero. -/
theorem leaveBlocks {inner : Nat} (hfuel : ts.length < fuel) (hs : i.Shows p ts) :
    i.Lands es (Cursor.leaveBlocks fuel (inner + 1) (i.cursor p es)) () (leaveBlock inner ts) := by
  induction fuel generalizing ts p inner with
  | zero => omega
  | succ fuel ih =>
    rw [Cursor.leaveBlocks, leaveBlock.eq_def]
    cases ts with
    | nil =>
      rw [bind_of_ok (atEnd_nil hs)]
      exact ⟨p, rfl, hs⟩
    | cons t ts =>
      rw [List.length_cons] at hfuel
      rw [bind_of_ok (atEnd_cons hs), if_neg Bool.false_ne_true, bind_of_ok (advance_cons hs)]
      simp only
      by_cases hin : t.kind = .indent
      · rw [if_pos hin, if_pos hin]
        exact ih (by omega) hs.tail
      · rw [if_neg hin, if_neg hin]
        by_cases hde : t.kind = .dedent
        · have hcount : countDown (inner + 1) (i.cursor (p + 1) es) =
              .done (.ok inner) (i.cursor (p + 1) es) := rfl
          rw [if_pos hde, if_pos hde, bind_of_ok hcount]
          cases inner with
          | zero => exact ⟨p + 1, rfl, hs.tail⟩
          | succ inner => exact ih (by omega) hs.tail
        · rw [if_neg hde, if_neg hde]
          exact ih (by omega) hs.tail

theorem skipOrphan (hfuel : ts.length < fuel) (hs : i.Shows p ts) :
    i.Lands es (Cursor.skipOrphan fuel (i.cursor p es)) () (Grammar.skipOrphan ts) := by
  unfold Cursor.skipOrphan
  cases ts with
  | nil =>
    rw [bind_of_ok (check_nil hs _)]
    exact ⟨p, rfl, hs⟩
  | cons t ts =>
    rw [List.length_cons] at hfuel
    rw [bind_of_ok (check_cons hs _), Grammar.skipOrphan]
    by_cases ht : t.kind = .indent
    · rw [if_pos (beq_iff_eq.mpr ht), if_pos ht]
      obtain ⟨n, rfl⟩ : ∃ n, fuel = n + 1 := ⟨fuel - 1, by omega⟩
      -- the first token is the one that opens the block
      have hopen : Cursor.leaveBlocks (n + 1) 0 (i.cursor p es) =
          Cursor.leaveBlocks n 1 (i.cursor (p + 1) es) := by
        rw [Cursor.leaveBlocks, bind_of_ok (atEnd_cons hs), if_neg Bool.false_ne_true,
          bind_of_ok (advance_cons hs), if_pos ht]
      obtain ⟨p', hleave, hs'⟩ : i.Lands es (Cursor.leaveBlocks n 1 (i.cursor (p + 1) es)) () _ :=
        leaveBlocks (by omega) hs.tail
      rw [bind_of_ok (hopen.trans hleave)]
      have hlength := length_leaveBlock_le 0 ts
      exact skipNewlines (by omega) hs'
    · rw [if_neg (by simpa using ht), if_neg ht]
      exact ⟨p, rfl, hs⟩

theorem recover (hfuel : ts.length < fuel) (hs : i.Shows p ts) :
    i.Lands es (Cursor.recover fuel (i.cursor p es)) () (resume ts) := by
  unfold Cursor.recover resume
  rw [bind_of_ok (check_eq hs .indent)]
  cases hindent : startsWith .indent ts with
  | true => exact skipOrphan hfuel hs
  | false =>
    obtain ⟨p', hsync, hs'⟩ : i.Lands es (Cursor.synchronize fuel (i.cursor p es)) () _ :=
      synchronize hfuel hs
    have hlength : (Grammar.synchronize ts).length ≤ ts.length := by
      cases ts with
      | nil => exact Nat.le_refl _
      | cons t ts => exact Nat.le_succ_of_le (length_synchronizeAfter_le t ts)
    rw [if_neg Bool.false_ne_true, if_neg Bool.false_ne_true, bind_of_ok hsync]
    exact skipOrphan (by omega) hs'

end Input.Lands

/-! ## Parts of a line -/

namespace Input.Ends

variable {i : Input} {fuel p : Nat} {es : List SyntaxError} {ts : List Token}

theorem parameters (hfuel : ts.length < fuel) (hs : i.Shows p ts) :
    i.Ends es (Cursor.parameters fuel (i.cursor p es)) (Grammar.parameters ts).quiet := by
  induction fuel generalizing ts p with
  | zero => omega
  | succ fuel ih =>
    rw [Cursor.parameters]
    cases ts with
    | nil =>
      rw [bind_of_ok (check_nil hs _)]
      exact ok hs _
    | cons t ts =>
      rw [bind_of_ok (check_cons hs _), Grammar.parameters]
      by_cases ht : t.kind = .identifier
      · rw [if_pos (beq_iff_eq.mpr ht), if_pos ht, bind_of_ok (advance_cons hs),
          Reply.quiet_loosen, Reply.quiet_behind, loosen_iff, behind_iff]
        rw [List.length_cons] at hfuel
        exact map _ (ih (by omega) hs.tail)
      · rw [if_neg (by simpa using ht), if_neg ht]
        exact ok hs _

theorem binding (hfuel : 20 * ts.length < fuel) (hs : i.Shows p ts) :
    i.Ends es (Cursor.binding fuel (i.cursor p es)) (Grammar.binding i.stop ts).quiet := by
  unfold Cursor.binding Grammar.binding
  simp only [Reply.quiet_andThen]
  refine bind (expect _ _ hs) fun name rest hle p hs => ?_
  refine bind ((i.follows fuel).expression (by simp only [Tier.rank]; omega) hs)
    fun value rest₂ hle₂ p₂ hs₂ => ?_
  exact map _ (endLine hs₂)

theorem returnValue (hfuel : 20 * ts.length + 13 < fuel) (hs : i.Shows p ts) :
    i.Ends es (Cursor.returnValue fuel (i.cursor p es)) (Grammar.returnValue i.stop ts).quiet := by
  unfold Cursor.returnValue Grammar.returnValue
  cases ts with
  | nil =>
    rw [bind_of_ok (peek_nil hs), if_pos (.inr (.inr i.kind_final))]
    exact ok hs _
  | cons t ts =>
    rw [bind_of_ok (peek_cons hs)]
    by_cases ht : t.kind = .newline ∨ t.kind = .dedent
    · have hend : atLineEnd (t :: ts) = true := by simpa [atLineEnd] using ht
      rw [if_pos (or_assoc.mp (.inl ht)), if_pos hend]
      exact ok hs _
    · have hend : ¬atLineEnd (t :: ts) = true := by simpa [atLineEnd] using ht
      have hnot : ¬(t.kind = .newline ∨ t.kind = .dedent ∨ t.kind = .endOfInput) := by
        rw [← or_assoc]
        exact not_or.mpr ⟨ht, hs.kind_ne⟩
      rw [if_neg hnot, if_neg hend, Reply.quiet_loosen, loosen_iff]
      exact map _ ((i.follows fuel).expression hfuel hs)

theorem expressionStatement (hfuel : 20 * ts.length + 13 < fuel) (hs : i.Shows p ts) :
    i.Ends es (Cursor.expressionStatement fuel (i.cursor p es))
      (Grammar.expressionStatement i.stop ts).quiet := by
  unfold Cursor.expressionStatement Grammar.expressionStatement
  rw [Reply.quiet_andThen]
  refine bind ((i.follows fuel).expression hfuel hs) fun e rest hle p hs => ?_
  exact map _ (endLine hs)

end Input.Ends

/-! ## Statements -/

theorem opensStatement_cases {k : Kind} (h : opensStatement k = true) :
    k = .keyword .initStmt ∨ k = .keyword .setStmt ∨ k = .keyword .returnStmt ∨
      k = .keyword .defStmt ∨ k = .keyword .ifStmt ∨ k = .keyword .whileStmt ∨
      k = .keyword .passStmt ∨ k = .command ∨ k = .indent := by
  unfold opensStatement at h
  split at h <;> simp_all

theorem cursor_statement_of_not_opens {fuel : Nat} {t : Token} {c : Cursor}
    (h : opensStatement t.kind = false) (hpeek : peek c = .done (.ok t) c) :
    Cursor.statement (fuel + 1) c = Cursor.expressionStatement fuel c := by
  rw [Cursor.statement, bind_of_ok hpeek]
  generalize t.kind = k at h ⊢
  cases k with
  | keyword w => cases w <;> cases h <;> rfl
  | command => cases h
  | indent => cases h
  | _ => rfl

theorem statements_end (stop : Position) (inside : Bool) (ts : List Token) :
    StatementsEnd inside (statements stop inside ts).rest := by
  induction hn : ts.length using Nat.strong_induction_on generalizing ts with
  | _ n ih =>
    cases ts with
    | nil =>
      rw [statements]
      exact ahead_nil _
    | cons t ts =>
      rw [List.length_cons] at hn
      rw [statements.eq_def]
      simp only
      split_ifs with hend
      · exact ahead_cons.mpr (by simpa using hend)
      · cases hstmt : statement stop (t :: ts) with
        | mk es r =>
          cases r with
          | ok s rest h =>
            have hle := length_skipNewlines_le rest
            rw [List.length_cons] at h
            exact ih _ (by omega) (skipNewlines rest) rfl
          | fail e rest h =>
            have hle := length_resume_le rest
            rw [List.length_cons] at h
            exact ih _ (by omega) (resume rest) rfl

/-- With this fuel, the readers of statements do what the replies say. -/
structure Input.Obeys (i : Input) (fuel : Nat) : Prop where
  statement {ts : List Token} {p : Nat} {es : List SyntaxError}
    (hfuel : 20 * ts.length + 16 < fuel) (hs : i.Shows p ts) :
    i.Ends es (Cursor.statement fuel (i.cursor p es)) (Grammar.statement i.stop ts)
  condition {ts : List Token} {p : Nat} {es : List SyntaxError}
    (hfuel : 20 * ts.length + 16 < fuel) (hs : i.Shows p ts) :
    i.Ends es (Cursor.condition fuel (i.cursor p es)) (Grammar.condition i.stop ts)
  elseBranch {ts : List Token} {p : Nat} {es : List SyntaxError}
    (hfuel : 20 * ts.length + 17 < fuel) (hs : i.Shows p ts) :
    i.Ends es (Cursor.elseBranch fuel (i.cursor p es)) (Grammar.elseBranch i.stop ts)
  blockBelow {what : SyntaxError.Wanted} {ts : List Token} {p : Nat} {es : List SyntaxError}
    (hfuel : 20 * ts.length + 16 < fuel) (hs : i.Shows p ts) :
    i.Ends es (Cursor.blockBelow fuel what (i.cursor p es)) (Grammar.blockBelow i.stop what ts)
  block {ts : List Token} {p : Nat} {es : List SyntaxError}
    (hfuel : 20 * ts.length + 16 < fuel) (hs : i.Shows p ts) :
    i.Ends es (Cursor.block fuel (i.cursor p es)) (Grammar.block i.stop ts)
  statements {inside : Bool} {ts : List Token} {p : Nat} {es : List SyntaxError}
    (hfuel : 20 * ts.length + 17 < fuel) (hs : i.Shows p ts) :
    i.Lands (es ++ (Grammar.statements i.stop inside ts).errors)
      (Cursor.statements fuel inside (i.cursor p es))
      (Grammar.statements i.stop inside ts).program (Grammar.statements i.stop inside ts).rest

namespace Input.Obeys

variable {i : Input} {fuel p : Nat} {es : List SyntaxError} {t : Token} {ts : List Token}

theorem statement_succ (ih : i.Obeys fuel) (hfuel : 20 * ts.length + 16 < fuel + 1)
    (hs : i.Shows p ts) :
    i.Ends es (Cursor.statement (fuel + 1) (i.cursor p es)) (Grammar.statement i.stop ts) := by
  cases ts with
  | nil =>
    rw [Cursor.statement, bind_of_ok (peek_nil hs), i.kind_final, Grammar.statement]
    exact Ends.expressionStatement (by omega) hs
  | cons t ts =>
    have hrest := hs.tail
    cases hopen : opensStatement t.kind with
    | false =>
      rw [cursor_statement_of_not_opens hopen (peek_cons hs), statement_of_not_opens hopen]
      exact Ends.expressionStatement (by omega) hs
    | true =>
      rw [List.length_cons] at hfuel
      rw [Cursor.statement, bind_of_ok (peek_cons hs), Grammar.statement]
      rcases opensStatement_cases hopen with ht | ht | ht | ht | ht | ht | ht | ht | ht <;>
        rw [ht] <;> simp only [Ends.behind_iff, Reply.quiet_map]
      · rw [bind_of_ok (advance_cons hs)]
        exact Ends.map _ (Ends.binding (by omega) hrest)
      · rw [bind_of_ok (advance_cons hs)]
        exact Ends.map _ (Ends.binding (by omega) hrest)
      · rw [bind_of_ok (advance_cons hs), bind_of_ok (previous_tail hs)]
        exact Ends.map _ (Ends.returnValue (by omega) hrest)
      · rw [bind_of_ok (advance_cons hs)]
        refine Ends.bind (Ends.expect _ _ hrest) fun name rest₁ hle₁ p₁ hs₁ => ?_
        refine Ends.bind (Ends.parameters (by omega) hs₁) fun params rest₂ hle₂ p₂ hs₂ => ?_
        exact Ends.map _ (ih.blockBelow (by omega) hs₂)
      · rw [bind_of_ok (advance_cons hs)]
        exact ih.condition (by omega) hrest
      · rw [bind_of_ok (advance_cons hs)]
        refine Ends.bind ((i.follows fuel).expression (by simp only [Tier.rank]; omega) hrest)
          fun test rest₁ hle₁ p₁ hs₁ => ?_
        exact Ends.map _ (ih.blockBelow (by omega) hs₁)
      · rw [bind_of_ok (advance_cons hs)]
        exact Ends.map _ (Ends.endLine hrest)
      · rw [bind_of_ok (advance_cons hs)]
        exact Ends.map _ ((i.follows fuel).arguments (by omega) hrest)
      · exact Ends.fail hs _

theorem condition_succ (ih : i.Obeys fuel) (hfuel : 20 * ts.length + 16 < fuel + 1)
    (hs : i.Shows p ts) :
    i.Ends es (Cursor.condition (fuel + 1) (i.cursor p es)) (Grammar.condition i.stop ts) := by
  rw [Cursor.condition, Grammar.condition]
  refine Ends.bind ((i.follows fuel).expression (by simp only [Tier.rank]; omega) hs)
    fun test rest₁ hle₁ p₁ hs₁ => ?_
  refine Ends.bind (ih.blockBelow (by omega) hs₁) fun thenBody rest₂ hle₂ p₂ hs₂ => ?_
  cases rest₂ with
  | nil =>
    rw [bind_of_ok (skip_nil hs₂ _), if_neg Bool.false_ne_true, bind_of_ok (skip_nil hs₂ _)]
    exact Ends.ok hs₂ _
  | cons t rest₂ =>
    rw [List.length_cons] at hle₂
    by_cases helse : t.kind = .keyword .elseStmt
    · rw [bind_of_ok (skip_of_eq hs₂ helse), if_pos rfl]
      simp only [if_pos helse, Ends.loosen_iff, Ends.behind_iff]
      exact Ends.map _ (ih.elseBranch (by omega) hs₂.tail)
    · rw [bind_of_ok (skip_of_ne hs₂ helse), if_neg Bool.false_ne_true]
      simp only [if_neg helse]
      by_cases helsif : t.kind = .keyword .elsifStmt
      · rw [bind_of_ok (skip_of_eq hs₂ helsif), if_pos rfl]
        simp only [if_pos helsif, Ends.loosen_iff, Ends.behind_iff]
        exact Ends.map _ (ih.condition (by omega) hs₂.tail)
      · rw [bind_of_ok (skip_of_ne hs₂ helsif), if_neg Bool.false_ne_true]
        simp only [if_neg helsif]
        exact Ends.ok hs₂ _

theorem elseBranch_succ (ih : i.Obeys fuel) (hfuel : 20 * ts.length + 17 < fuel + 1)
    (hs : i.Shows p ts) :
    i.Ends es (Cursor.elseBranch (fuel + 1) (i.cursor p es)) (Grammar.elseBranch i.stop ts) := by
  rw [Cursor.elseBranch]
  cases ts with
  | nil =>
    rw [bind_of_ok (skip_nil hs _), if_neg Bool.false_ne_true, Grammar.elseBranch]
    exact ih.blockBelow (by omega) hs
  | cons t ts =>
    rw [Grammar.elseBranch]
    by_cases ht : t.kind = .keyword .ifStmt
    · rw [bind_of_ok (skip_of_eq hs ht), if_pos rfl, if_pos ht, Ends.behind_iff]
      rw [List.length_cons] at hfuel
      exact Ends.map _ (ih.condition (by omega) hs.tail)
    · rw [bind_of_ok (skip_of_ne hs ht), if_neg Bool.false_ne_true, if_neg ht]
      exact ih.blockBelow (by omega) hs

theorem blockBelow_succ (ih : i.Obeys fuel) {what : SyntaxError.Wanted}
    (hfuel : 20 * ts.length + 16 < fuel + 1) (hs : i.Shows p ts) :
    i.Ends es (Cursor.blockBelow (fuel + 1) what (i.cursor p es))
      (Grammar.blockBelow i.stop what ts) := by
  rw [Cursor.blockBelow, Grammar.blockBelow]
  exact Ends.bind (Ends.expect _ _ hs) fun _ rest hle p hs => ih.block (by omega) hs

theorem block_succ (ih : i.Obeys fuel) (hfuel : 20 * ts.length + 16 < fuel + 1)
    (hs : i.Shows p ts) :
    i.Ends es (Cursor.block (fuel + 1) (i.cursor p es)) (Grammar.block i.stop ts) := by
  have hlength := length_skipNewlines_le ts
  obtain ⟨p₁, hskip, hs₁⟩ : i.Lands es (Cursor.skipNewlines fuel (i.cursor p es)) () _ :=
    Lands.skipNewlines (by omega) hs
  rw [Cursor.block, bind_of_ok hskip, Grammar.block]
  split
  · rename_i h
    rw [h] at hs₁
    rw [bind_of_error (expect_nil hs₁ _ _)]
    exact Ends.fail hs₁ _
  · rename_i t rest h
    rw [h] at hs₁ hlength
    rw [List.length_cons] at hlength
    by_cases ht : t.kind = .indent
    · rw [if_pos ht, bind_of_ok (expect_of_eq hs₁ ht _)]
      obtain ⟨p₂, hbody, hs₂⟩ :
          i.Lands _ (Cursor.statements fuel true (i.cursor (p₁ + 1) es)) _ _ :=
        ih.statements (by omega) hs₁.tail
      have hend := statements_end i.stop true rest
      rw [bind_of_ok hbody]
      cases hr : Grammar.statements i.stop true rest with
      | mk es₁ body left h₁ =>
        rw [hr] at hs₂ hend
        cases left with
        | nil =>
          rw [bind_of_ok (skip_nil hs₂ _)]
          exact ⟨p₂, rfl, hs₂⟩
        | cons u left =>
          have hu : u.kind = .dedent := (ahead_cons.mp hend).2
          rw [bind_of_ok (skip_of_eq hs₂ hu)]
          exact ⟨p₂ + 1, rfl, hs₂.tail⟩
    · rw [if_neg ht, bind_of_error (expect_of_ne hs₁ ht _)]
      exact Ends.fail hs₁ _

theorem statements_succ (ih : i.Obeys fuel) {inside : Bool}
    (hfuel : 20 * ts.length + 17 < fuel + 1) (hs : i.Shows p ts) :
    i.Lands (es ++ (Grammar.statements i.stop inside ts).errors)
      (Cursor.statements (fuel + 1) inside (i.cursor p es))
      (Grammar.statements i.stop inside ts).program
      (Grammar.statements i.stop inside ts).rest := by
  rw [Cursor.statements, Grammar.statements.eq_def]
  cases ts with
  | nil =>
    rw [bind_of_ok (peek_nil hs), if_pos (.inl i.kind_final), List.append_nil]
    exact ⟨p, rfl, hs⟩
  | cons t ts =>
    rw [bind_of_ok (peek_cons hs)]
    simp only
    by_cases hend : (inside && t.kind == .dedent) = true
    · have hend' : inside = true ∧ t.kind = .dedent := by simpa using hend
      simp only [if_pos hend]
      rw [if_pos (.inr hend'), List.append_nil]
      exact ⟨p, rfl, hs⟩
    · have hend' : ¬(t.kind = .endOfInput ∨ inside = true ∧ t.kind = .dedent) := by
        rintro (h | h)
        · exact hs.kind_ne h
        · exact hend (by simpa using h)
      simp only [if_neg hend]
      rw [if_neg hend']
      rw [List.length_cons] at hfuel
      obtain ⟨p₁, hx, hs₁⟩ : i.Ends es (Cursor.statement fuel (i.cursor p es)) _ :=
        ih.statement (by rw [List.length_cons]; omega) hs
      rw [bind_of_ok (attempt_eq hx)]
      cases hstmt : Grammar.statement i.stop (t :: ts) with
      | mk es₁ reply =>
        rw [hstmt] at hs₁
        cases reply with
        | ok s rest h =>
          have hrest : i.Shows p₁ rest := hs₁
          have hle := length_skipNewlines_le rest
          rw [List.length_cons] at h
          obtain ⟨p₂, hskip, hs₂⟩ : i.Lands (es ++ es₁)
              (Cursor.skipNewlines fuel (i.cursor p₁ (es ++ es₁))) () _ :=
            Lands.skipNewlines (by omega) hrest
          obtain ⟨p₃, hmore, hs₃⟩ : i.Lands _
              (Cursor.statements fuel inside (i.cursor p₂ (es ++ es₁))) _ _ :=
            ih.statements (by omega) hs₂
          simp only [Reply.result]
          rw [bind_of_ok hskip, bind_of_ok hmore, List.append_assoc]
          exact ⟨p₃, rfl, hs₃⟩
        | fail e rest h =>
          have hrest : i.Shows p₁ rest := hs₁
          have hle := length_resume_le rest
          rw [List.length_cons] at h
          have hnote : note e (i.cursor p₁ (es ++ es₁)) =
              .done (.ok ()) (i.cursor p₁ (es ++ es₁ ++ [e])) := rfl
          obtain ⟨p₂, hrecover, hs₂⟩ : i.Lands (es ++ es₁ ++ [e])
              (Cursor.recover fuel (i.cursor p₁ (es ++ es₁ ++ [e]))) () _ :=
            Lands.recover (by omega) hrest
          obtain ⟨p₃, hmore, hs₃⟩ : i.Lands _
              (Cursor.statements fuel inside (i.cursor p₂ (es ++ es₁ ++ [e]))) _ _ :=
            ih.statements (by omega) hs₂
          simp only [Reply.result]
          rw [bind_of_ok hnote, bind_of_ok hrecover, hmore]
          exact ⟨p₃, by simp, hs₃⟩

end Input.Obeys

/-- With enough fuel, the readers of statements do what the replies say. -/
theorem Input.obeys (i : Input) (fuel : Nat) : i.Obeys fuel := by
  induction fuel with
  | zero => constructor <;> intros <;> omega
  | succ fuel ih =>
    exact ⟨ih.statement_succ, ih.condition_succ, ih.elseBranch_succ, ih.blockBelow_succ,
      ih.block_succ, ih.statements_succ⟩

/-! ## Programs -/

section ends

variable {ts rest : List Token} {e : Token}

theorem takeWhile_isInside (hts : ∀ t ∈ ts, t.kind ≠ .endOfInput) :
    ts.takeWhile Token.isInside = ts := by
  refine List.takeWhile_eq_self_iff.mpr fun t ht => ?_
  simpa [Token.isInside] using hts t ht

theorem takeWhile_first_end (hts : ∀ t ∈ ts, t.kind ≠ .endOfInput) (he : e.kind = .endOfInput) :
    (ts ++ e :: rest).takeWhile Token.isInside = ts := by
  have hall : ∀ t ∈ ts, Token.isInside t = true := fun t ht => by
    simpa [Token.isInside] using hts t ht
  have hend : ¬Token.isInside e = true := by simp [Token.isInside, he]
  rw [List.takeWhile_append_of_pos hall, List.takeWhile_cons_of_neg hend, List.append_nil]

theorem endPosition_first_end (hts : ∀ t ∈ ts, t.kind ≠ .endOfInput)
    (he : e.kind = .endOfInput) : endPosition (ts ++ e :: rest) = e.pos := by
  have hnone : ts.find? (·.kind == .endOfInput) = none := by simpa using hts
  unfold endPosition
  rw [List.find?_append, hnone, Option.none_or, List.find?_cons_of_pos (by simpa using he)]

theorem endPosition_inside (hts : ∀ t ∈ ts, t.kind ≠ .endOfInput) :
    endPosition ts = (ts.getLast?.map Token.pos).getD .start := by
  have hnone : ts.find? (·.kind == .endOfInput) = none := by simpa using hts
  unfold endPosition
  rw [hnone]

theorem first_end_cases (ts : List Token) :
    (∀ t ∈ ts, t.kind ≠ .endOfInput) ∨
      ∃ us e rest, ts = us ++ e :: rest ∧ (∀ t ∈ us, t.kind ≠ .endOfInput) ∧
        e.kind = .endOfInput := by
  induction ts with
  | nil => exact .inl (by simp)
  | cons t ts ih =>
    by_cases ht : t.kind = .endOfInput
    · exact .inr ⟨[], t, ts, rfl, by simp, ht⟩
    · rcases ih with hts | ⟨us, e, rest, rfl, hus, he⟩
      · exact .inl (List.forall_mem_cons.mpr ⟨ht, hts⟩)
      · exact .inr ⟨t :: us, e, rest, rfl, List.forall_mem_cons.mpr ⟨ht, hus⟩, he⟩

end ends

/-- The tokens that are prepared for the cursor are an input, and what is in front of its end is
what the readers of lists are given. -/
theorem exists_input (tokens : List Token) :
    ∃ i : Input, prepare tokens = i.inside ++ i.final :: i.beyond ∧
      i.inside = (tokens.filter (·.kind != .comment)).takeWhile Token.isInside ∧
      i.stop = endPosition (tokens.filter (·.kind != .comment)) := by
  unfold prepare
  simp only
  generalize tokens.filter (·.kind != .comment) = ts
  rcases first_end_cases ts with hts | ⟨us, e, rest, rfl, hus, he⟩
  · have hlast : ¬ts.getLast?.any (·.kind == .endOfInput) = true := by
      rw [Option.any_eq_true]
      rintro ⟨t, ht, hkind⟩
      exact hts t (List.mem_of_getLast? ht) (beq_iff_eq.mp hkind)
    rw [if_neg hlast, takeWhile_isInside hts, endPosition_inside hts]
    exact ⟨⟨ts, _, [], hts, rfl⟩, rfl, rfl, rfl⟩
  · rw [takeWhile_first_end hus he, endPosition_first_end hus he]
    split_ifs
    · exact ⟨⟨us, e, rest, hus, he⟩, rfl, rfl, rfl⟩
    · exact ⟨⟨us, e, rest ++ _, hus, he⟩, by rw [List.append_assoc, List.cons_append], rfl, rfl⟩

theorem Input.findIdx_end (i : Input) :
    (i.inside ++ i.final :: i.beyond).findIdx (·.kind == .endOfInput) = i.inside.length := by
  have hnone : ∀ t ∈ i.inside, (t.kind == .endOfInput) = false := fun t ht =>
    beq_false_of_ne (i.kind_inside t ht)
  rw [List.findIdx_append, List.findIdx_eq_length.mpr hnone, if_neg (Nat.lt_irrefl _),
    List.findIdx_cons, i.kind_final]
  simp

theorem cursor_parse {tokens : List Token} {fuel : Nat} (hfuel : 20 * (tokens.length + 1) ≤ fuel) :
    ∃ es, Cursor.parse fuel tokens = .done (.ok (Offside.parse tokens))
      ⟨(prepare tokens).toArray, (prepare tokens).findIdx (·.kind == .endOfInput), es⟩ := by
  obtain ⟨i, hprepare, hinside, hstop⟩ := exists_input tokens
  have hlength : i.inside.length ≤ tokens.length := by
    rw [hinside]
    exact ((List.takeWhile_sublist _).trans List.filter_sublist).length_le
  have hskipped := length_skipNewlines_le i.inside
  have hstart : i.Shows 0 i.inside := ⟨rfl, Nat.zero_le _⟩
  obtain ⟨p₁, hskip, hs₁⟩ : i.Lands [] (Cursor.skipNewlines fuel (i.cursor 0 [])) () _ :=
    Input.Lands.skipNewlines (by omega) hstart
  obtain ⟨p₂, hread, hs₂⟩ : i.Lands _ (Cursor.statements fuel false (i.cursor p₁ [])) _ _ :=
    (i.obeys fuel).statements (by omega) hs₁
  have hend := statements_end i.stop false (skipNewlines i.inside)
  have hprogram : Cursor.parse fuel tokens = Cursor.program fuel (i.cursor 0 []) := by
    rw [Cursor.parse, hprepare]
    rfl
  rw [hprogram, Cursor.program, bind_of_ok hskip, bind_of_ok hread, hprepare, i.findIdx_end]
  unfold Offside.parse finish
  simp only
  rw [← hinside, ← hstop]
  cases hr : statements i.stop false (skipNewlines i.inside) with
  | mk errors program left h =>
    rw [hr] at hs₂ hend
    -- outside of blocks nothing but the end of the input ends the statements
    cases left with
    | cons t left => exact absurd (ahead_cons.mp hend).1 Bool.false_ne_true
    | nil =>
      obtain rfl : p₂ = i.inside.length := hs₂.eq_length
      cases errors with
      | nil => exact ⟨[], rfl⟩
      | cons e errors => exact ⟨e :: errors, rfl⟩

theorem parse_beyond {ts rest : List Token} {e : Token} (hts : ∀ t ∈ ts, t.kind ≠ .endOfInput)
    (he : e.kind = .endOfInput) : Offside.parse (ts ++ e :: rest) = Offside.parse (ts ++ [e]) := by
  have hfilter : ∀ rest : List Token, (ts ++ e :: rest).filter (·.kind != .comment) =
      ts.filter (·.kind != .comment) ++ e :: rest.filter (·.kind != .comment) := by
    intro rest
    rw [List.filter_append, List.filter_cons_of_pos (by simp [he])]
  have hts' : ∀ t ∈ ts.filter (·.kind != .comment), t.kind ≠ .endOfInput := fun t ht =>
    hts t (List.mem_of_mem_filter ht)
  unfold Offside.parse
  simp only
  rw [hfilter rest, hfilter [], takeWhile_first_end hts' he, takeWhile_first_end hts' he,
    endPosition_first_end hts' he, endPosition_first_end hts' he]

end Offside.Grammar

namespace Offside

open Grammar

/-- **Any tokens can be read.** Whatever the tokens are, reading them with a cursor comes to an end,
within fuel that grows no faster than their number, and never breaks: no token is asked for that is
not there, the cursor does not move on from an end of input, and no counter goes below zero. It
stops at the first end of input, with the program or the errors that `parse` says. What stands
behind the first end of input makes no difference. -/
theorem parse_any_tokens :
    (∀ tokens fuel, 20 * (tokens.length + 1) ≤ fuel →
      ∃ es, Cursor.parse fuel tokens = .done (.ok (parse tokens))
        ⟨(Cursor.prepare tokens).toArray,
          (Cursor.prepare tokens).findIdx (·.kind == .endOfInput), es⟩) ∧
    ∀ ts e rest, (∀ t ∈ ts, t.kind ≠ .endOfInput) → e.kind = .endOfInput →
      parse (ts ++ e :: rest) = parse (ts ++ [e]) :=
  ⟨fun _ _ hfuel => cursor_parse hfuel, fun _ _ _ hts he => parse_beyond hts he⟩

/-- The end of a block that was not opened, a block that is not closed, and a number without a
value. -/
def unbalanced : List Token :=
  [⟨.dedent, "", none, ⟨1, 1⟩⟩, ⟨.indent, "", none, ⟨2, 3⟩⟩, ⟨.number, "1", none, ⟨2, 3⟩⟩]

def lastLine : Token := ⟨.endOfInput, "", none, ⟨3, 1⟩⟩

theorem parse_any_tokens_unbalanced :
    20 * (unbalanced.length + 1) ≤ 80 ∧
      (∃ es, Cursor.parse 80 unbalanced = .done (.ok (parse unbalanced))
        ⟨(Cursor.prepare unbalanced).toArray,
          (Cursor.prepare unbalanced).findIdx (·.kind == .endOfInput), es⟩) ∧
      (∀ t ∈ unbalanced, t.kind ≠ .endOfInput) ∧ lastLine.kind = .endOfInput ∧
      parse (unbalanced ++ lastLine :: unbalanced) = parse (unbalanced ++ [lastLine]) :=
  ⟨by decide, parse_any_tokens.1 unbalanced 80 (by decide), by decide, rfl,
    parse_any_tokens.2 unbalanced lastLine unbalanced (by decide) rfl⟩

end Offside
