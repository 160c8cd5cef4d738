import Offside.Proofs.Grammar.Phrases
import Offside.Proofs.Grammar.Statements

/-!
# Statements are read as they are spelled

The readers of statements against the spelling of programs, for readings that note no error. In
both directions the argument goes along the clauses of the grammar: a block is read in terms of its
statements, and statements one after the other.

* `soundBelow`: statements that have been read are spelled by the tokens that are gone.
* `spelled_readBack`: statements that are spelled are read.
* `gives_statements_iff`: the two together.
-/

namespace Offside.Grammar

/-! ## Newlines -/

theorem newlines_nil : Newlines [] := by
  simp [Newlines]

theorem skipNewlines_split (ts : List Token) :
    ∃ n, ts = n ++ skipNewlines ts ∧ Newlines n := by
  refine ⟨ts.takeWhile (·.kind == .newline), by simp [skipNewlines], fun t ht => ?_⟩
  simpa using List.all_eq_true.mp List.all_takeWhile t ht

theorem skipNewlines_append {n ts : List Token} (h : Newlines n) :
    skipNewlines (n ++ ts) = skipNewlines ts := by
  induction n with
  | nil => rfl
  | cons t n ih =>
    have ht : t.kind = .newline := h t (by simp)
    rw [List.cons_append, skipNewlines, List.dropWhile_cons]
    simp only [ht, beq_self_eq_true, if_true]
    exact ih fun u hu => h u (by simp [hu])

theorem skipNewlines_of_ahead {ts : List Token} (h : Ahead (· ≠ .newline) ts) :
    skipNewlines ts = ts := by
  cases ts with
  | nil => rfl
  | cons t ts => simp [skipNewlines, ahead_cons.mp h]

theorem LineEnd.skipNewlines_eq {ts rest : List Token} (h : LineEnd ts rest) :
    skipNewlines ts = skipNewlines rest := by
  rcases h with ⟨t, rfl, ht⟩ | ⟨rfl, -⟩
  · exact skipNewlines_append (n := [t]) (by simpa [Newlines] using ht)
  · rfl

/-! ## How statements begin and end -/

theorem LineEnd.ahead {ts rest : List Token} (h : LineEnd ts rest) :
    Ahead (endsArguments · = true) ts := by
  rcases h with ⟨t, rfl, ht⟩ | ⟨rfl, hd⟩
  · simp [ht, endsArguments]
  · exact hd.mono fun k hk => by simp [hk, endsArguments]

/-- A token can be the first of a statement `s`. -/
def StatementOpens (s : Stmt) (k : Kind) : Prop :=
  endsArguments k = false ∧ EndsCondition k ∧ (joins? k = none ↔ s.startsWithSign = false)

theorem StatementOpens.ne_newline {s : Stmt} {k : Kind} (h : StatementOpens s k) :
    k ≠ .newline := by
  rintro rfl
  cases h.1

theorem StatementOpens.ne_dedent {s : Stmt} {k : Kind} (h : StatementOpens s k) : k ≠ .dedent := by
  rintro rfl
  cases h.1

theorem OpensWith.statement {e : Expr} {k : Kind} (h : OpensWith e k) :
    StatementOpens (.expression e) k := by
  refine ⟨?_, ?_, h.joins?_eq_none_iff⟩
  · refine Bool.eq_false_iff.mpr fun hk => ?_
    exact (endsList_endsArguments k hk).2 e h
  · constructor
    all_goals
      rintro rfl
      rcases h.cases with ⟨-, -, h⟩ | ⟨-, -, h⟩ | ⟨-, -, h⟩ <;> simp at h

theorem statementOpens_of_word {s : Stmt} {k : Kind} (hs : s.startsWithSign = false)
    (hk : opensStatement k = true) : StatementOpens s k := by
  unfold opensStatement at hk
  unfold StatementOpens EndsCondition
  split at hk
  case h_10 => cases hk
  all_goals simp [hs, endsArguments, joins?]

theorem spelled_statement_opens {s : Stmt} {closed : Bool} {w : List Token}
    (h : (Clause.statement s).Spelled closed w) :
    ∃ t w', w = t :: w' ∧ StatementOpens s t.kind := by
  cases h with
  | init ht | set ht | ret ht | retValue ht | pass ht | call ht | definition ht | loop ht =>
    exact ⟨_, _, rfl, statementOpens_of_word rfl (by rw [ht]; rfl)⟩
  | condition ht hs =>
    refine ⟨_, _, rfl, statementOpens_of_word ?_ (by rw [ht]; rfl)⟩
    cases hs <;> rfl
  | expression he =>
    obtain ⟨t, w', rfl, hopen⟩ := spelled_opens he
    exact ⟨t, w', rfl, hopen.statement⟩

/-- What stands behind a statement shows that it has ended. -/
def Follows (s : Stmt) (rest : List Token) : Prop :=
  match s with
  | .condition _ _ _ | .loop _ _ | .definition _ _ _ => True
  | .ret _ (some _) => Ahead (joins? · = none) rest
  | _ => Ahead (endsArguments · = true) rest

/-! ## What has been read is spelled -/

def clauseFits : Clause → Bool
  | .statement s | .condition s => s.fits
  | .block body | .statements body => fitBody body

/-- The tokens `ts` in front of `rest` spell the clause. A block is open only at the end. -/
def SpelledBefore (c : Clause) (ts rest : List Token) : Prop :=
  clauseFits c = true ∧
    ∃ w closed, ts = w ++ rest ∧ c.Spelled closed w ∧ (closed = false → rest = [])

theorem closed_of_cons {closed : Bool} {t : Token} {rest : List Token}
    (h : closed = false → t :: rest = []) : closed = true := by
  cases closed with
  | true => rfl
  | false => cases h rfl

/-- Statements, and conditions behind their first word, in fewer than `n` tokens are read as they
are spelled. -/
def SoundBelow (stop : Position) (n : Nat) : Prop :=
  ∀ ts rest, ts.length < n →
    (∀ inside p, (statements stop inside ts).Gives p rest →
      SpelledBefore (.statements p) ts rest ∧ StatementsEnd inside rest) ∧
    ∀ s, (condition stop ts).Gives s rest → SpelledBefore (.condition s) ts rest

section sound

variable {stop : Position} {ts rest : List Token}

theorem blockBelow_spelled (ih : SoundBelow stop ts.length) {what : SyntaxError.Wanted}
    {body : List Stmt} (h : (blockBelow stop what ts).Gives body rest) :
    SpelledBefore (.block body) ts rest := by
  obtain ⟨t, r₁, rfl, ht, hb⟩ := gives_blockBelow.mp h
  obtain ⟨i, r₂, mid, hskip, hi, hs, rfl⟩ := gives_block.mp hb
  obtain ⟨n, hn, hnl⟩ := skipNewlines_split r₁
  rw [hskip] at hn
  have hlt : r₂.length < (t :: r₁).length := by
    rw [hn]
    simp only [List.length_cons, List.length_append]
    omega
  obtain ⟨⟨hf, w, closed, rfl, hw, hopen⟩, hend⟩ := (ih r₂ mid hlt).1 true body hs
  subst hn
  refine ⟨hf, ?_⟩
  -- the end of the block can only be missing where nothing is left
  cases mid with
  | nil => exact ⟨_, false, by simp, .openBlock ht hnl hi hw, fun _ => rfl⟩
  | cons d mid =>
    obtain rfl : closed = true := closed_of_cons hopen
    refine ⟨_, true, ?_, .closedBlock ht hnl hi hw (ahead_cons.mp hend).2, by simp⟩
    simp

theorem elseBranch_spelled (ih : SoundBelow stop (ts.length + 1)) {test : Expr}
    {body other : List Stmt} {u v : List Token} {t : Token}
    (hf : test.fits = true ∧ fitBody body = true)
    (he : (Phrase.expr test).Spelled u) (hb : (Clause.block body).Spelled true v)
    (ht : t.kind = .keyword .elseStmt) (h : (elseBranch stop ts).Gives other rest) :
    SpelledBefore (.condition (.condition test body (some other))) (u ++ v ++ t :: ts) rest := by
  rcases gives_elseBranch.mp h with ⟨t', r₁, s, rfl, ht', hs, rfl⟩ | ⟨-, hbelow⟩
  · have hlt : r₁.length < (t' :: r₁).length + 1 := by
      rw [List.length_cons]
      omega
    obtain ⟨hfs, w, closed, rfl, hw, hopen⟩ := (ih r₁ rest hlt).2 s hs
    refine ⟨?_, _, closed, ?_, .elseIf he hb ht ht' hw, hopen⟩
    · simpa [clauseFits, Stmt.fits, fitBody, hf] using hfs
    · simp
  · have ih' : SoundBelow stop ts.length := fun ts' rest' hlt => ih ts' rest' (by omega)
    obtain ⟨hfo, w, closed, rfl, hw, hopen⟩ := blockBelow_spelled ih' hbelow
    refine ⟨?_, _, closed, ?_, .withElse he hb ht hw, hopen⟩
    · simpa [clauseFits, Stmt.fits, hf] using hfo
    · simp

theorem condition_spelled (ih : SoundBelow stop ts.length) {s : Stmt}
    (h : (condition stop ts).Gives s rest) : SpelledBefore (.condition s) ts rest := by
  obtain ⟨test, r₁, body, r₂, htest, hbody, hbehind⟩ := gives_condition.mp h
  obtain ⟨hft, -, u, rfl, hu⟩ := reads_expr_iff.mp htest
  have ih₁ : SoundBelow stop r₁.length := fun ts' rest' hlt =>
    ih ts' rest' (by rw [List.length_append]; omega)
  obtain ⟨hfb, v, closed, rfl, hv, hopen⟩ := blockBelow_spelled ih₁ hbody
  rcases hbehind with ⟨rfl, rfl, -⟩ | ⟨t, r₃, rfl, ⟨other, ht, ho, rfl⟩ | ⟨s', ht, hs', rfl⟩⟩
  · refine ⟨?_, u ++ v, closed, by simp, .noElse hu hv, hopen⟩
    simpa [clauseFits, Stmt.fits, hft] using hfb
  · obtain rfl : closed = true := closed_of_cons hopen
    have ih₃ : SoundBelow stop (r₃.length + 1) := fun ts' rest' hlt =>
      ih ts' rest' (by simp only [List.length_append, List.length_cons]; omega)
    have hspelled := elseBranch_spelled ih₃ ⟨hft, hfb⟩ hu hv ht ho
    rwa [List.append_assoc] at hspelled
  · obtain rfl : closed = true := closed_of_cons hopen
    have hlt : r₃.length < (u ++ (v ++ t :: r₃)).length := by
      simp only [List.length_append, List.length_cons]
      omega
    obtain ⟨hfs, w, closed, rfl, hw, hopen'⟩ := (ih r₃ rest hlt).2 s' hs'
    refine ⟨?_, _, closed, ?_, .elsif hu hv ht hw, hopen'⟩
    · simp only [clauseFits] at hfb hfs
      simp [clauseFits, Stmt.fits, fitBody, hft, hfb, hfs]
    · simp

theorem binding_spelled {n : Name} {e : Expr} (h : (binding stop ts).Gives (n, e) rest) :
    ∃ t w mid, ts = t :: w ++ mid ∧ t.kind = .identifier ∧ nameOf t = n ∧ e.fits = true ∧
      (Phrase.expr e).Spelled w ∧ LineEnd mid rest := by
  obtain ⟨t, r₁, mid, rfl, ht, hn, he, hend⟩ := gives_binding.mp h
  obtain ⟨hf, -, w, rfl, hw⟩ := reads_expr_iff.mp he
  exact ⟨t, w, mid, rfl, ht, hn, hf, hw, hend⟩

/-- The tokens `ts` spell a statement, which has ended at `mid`; from there to `rest` only newlines
have been taken. -/
def StatementBefore (s : Stmt) (ts rest : List Token) : Prop :=
  ∃ mid, SpelledBefore (.statement s) ts mid ∧ Follows s mid ∧ skipNewlines mid = skipNewlines rest

theorem expressionStatement_spelled {s : Stmt} (hts : Ahead (opensStatement · = false) ts)
    (h : (expressionStatement stop ts).Gives s rest) : StatementBefore s ts rest := by
  obtain ⟨e, mid, he, hend, rfl⟩ := gives_expressionStatement.mp h
  obtain ⟨hf, -, w, rfl, hw⟩ := reads_expr_iff.mp he
  refine ⟨mid, ⟨?_, w, true, rfl, .expression hw, by simp⟩, hend.ahead, hend.skipNewlines_eq⟩
  obtain ⟨t, w', rfl, hopen⟩ := spelled_opens hw
  have hk : t.kind ≠ .command := by
    intro hk
    simpa [hk, opensStatement] using ahead_cons.mp hts
  rw [ne_eq, hopen.eq_command_iff, Bool.not_eq_true] at hk
  simp [clauseFits, Stmt.fits, hf, hk]

theorem statement_spelled (ih : SoundBelow stop ts.length) {s : Stmt}
    (h : (statement stop ts).Gives s rest) : StatementBefore s ts rest := by
  by_cases hts : Ahead (opensStatement · = false) ts
  · exact expressionStatement_spelled hts ((gives_other hts).mp h)
  cases ts with
  | nil => exact absurd (ahead_nil _) hts
  | cons t ts =>
    rw [ahead_cons, Bool.not_eq_false] at hts
    have ih' : SoundBelow stop (ts.length + 1) := ih
    unfold opensStatement at hts
    split at hts
    case h_1 ht =>
      obtain ⟨n, e, hb, rfl⟩ := (gives_init ht).mp h
      obtain ⟨id, w, mid, rfl, hid, rfl, hf, hw, hend⟩ := binding_spelled hb
      exact ⟨mid, ⟨hf, _, true, by simp, .init ht hid hw, by simp⟩, hend.ahead,
        hend.skipNewlines_eq⟩
    case h_2 ht =>
      obtain ⟨n, e, hb, rfl⟩ := (gives_set ht).mp h
      obtain ⟨id, w, mid, rfl, hid, rfl, hf, hw, hend⟩ := binding_spelled hb
      exact ⟨mid, ⟨hf, _, true, by simp, .set ht hid hw, by simp⟩, hend.ahead,
        hend.skipNewlines_eq⟩
    case h_3 ht =>
      obtain ⟨v, hv, rfl⟩ := (gives_return ht).mp h
      rcases gives_returnValue.mp hv with ⟨rfl, rfl, hend⟩ | ⟨e, rfl, -, he⟩
      · exact ⟨ts, ⟨rfl, _, true, by simp, .ret ht, by simp⟩, hend, rfl⟩
      · obtain ⟨hf, hend, w, rfl, hw⟩ := reads_expr_iff.mp he
        exact ⟨rest, ⟨hf, _, true, by simp, .retValue ht hw, by simp⟩, hend, rfl⟩
    case h_4 ht =>
      obtain ⟨n, r₁, params, r₂, body, rfl, hn, hps, hb, rfl⟩ := (gives_definition ht).mp h
      obtain ⟨us, rfl, rfl, hus, -⟩ := gives_parameters.mp hps
      have ihb : SoundBelow stop r₂.length := fun ts' rest' hlt =>
        ih ts' rest' (by simp only [List.length_cons, List.length_append]; omega)
      obtain ⟨hf, w, closed, rfl, hw, hopen⟩ := blockBelow_spelled ihb hb
      exact ⟨rest, ⟨hf, _, closed, by simp, .definition ht hn hus hw, hopen⟩, trivial, rfl⟩
    case h_5 ht =>
      obtain ⟨hf, w, closed, rfl, hw, hopen⟩ :=
        (ih ts rest (Nat.lt_succ_self _)).2 s ((gives_if ht).mp h)
      refine ⟨rest, ⟨hf, _, closed, by simp, .condition ht hw, hopen⟩, ?_, rfl⟩
      cases hw <;> trivial
    case h_6 ht =>
      obtain ⟨test, mid, body, he, hb, rfl⟩ := (gives_while ht).mp h
      obtain ⟨hft, -, u, rfl, hu⟩ := reads_expr_iff.mp he
      have ihb : SoundBelow stop mid.length := fun ts' rest' hlt =>
        ih ts' rest' (by simp only [List.length_cons, List.length_append]; omega)
      obtain ⟨hfb, w, closed, rfl, hw, hopen⟩ := blockBelow_spelled ihb hb
      refine ⟨rest, ⟨?_, _, closed, by simp, .loop ht hu hw, hopen⟩, trivial, rfl⟩
      simpa [clauseFits, Stmt.fits, hft] using hfb
    case h_7 ht =>
      obtain ⟨hend, rfl⟩ := (gives_pass ht).mp h
      exact ⟨ts, ⟨rfl, _, true, by simp, .pass ht, by simp⟩, hend.ahead, hend.skipNewlines_eq⟩
    case h_8 ht =>
      obtain ⟨es, hes, rfl⟩ := (gives_call ht).mp h
      obtain ⟨⟨hf, hns⟩, hend, w, rfl, hw⟩ := (reads_args_iff endsList_endsArguments).mp hes
      refine ⟨rest, ⟨?_, _, true, by simp, .call ht hw, by simp⟩, hend, rfl⟩
      simp only [clauseFits, Stmt.fits, Expr.fits, hf, hns]
      rfl
    case h_9 ht => exact absurd h (not_gives_indent ht)
    case h_10 => cases hts

theorem Follows.endsBefore {s : Stmt} {n v : List Token} {p : List Stmt} {closed : Bool}
    (h : Follows s (n ++ (v ++ rest))) (hp : (Clause.statements p).Spelled closed v) :
    s.EndsBefore n p := by
  by_cases hn : n = []
  · subst hn
    cases hp with
    | nil => exact .inr (.inl rfl)
    | cons hs' =>
      obtain ⟨t, w, rfl, hends, -, hsign⟩ := spelled_statement_opens hs'
      refine .inr (.inr ?_)
      unfold Follows at h
      split at h
      · trivial
      · trivial
      · trivial
      · simpa [hsign] using h
      · simp [hends] at h
  · exact .inl hn

theorem eq_nil_of_spelled {p : List Stmt} {closed : Bool}
    (h : (Clause.statements p).Spelled closed []) : p = [] := by
  generalize hw : ([] : List Token) = w at h
  cases h with
  | nil => rfl
  | cons hs =>
    obtain ⟨t, w', rfl, -⟩ := spelled_statement_opens hs
    cases hw

theorem statements_spelled (ih : SoundBelow stop ts.length) {inside : Bool} {p : Program}
    (h : (statements stop inside ts).Gives p rest) :
    SpelledBefore (.statements p) ts rest ∧ StatementsEnd inside rest := by
  by_cases hts : StatementsEnd inside ts
  · obtain ⟨rfl, rfl⟩ := (gives_statements_end hts).mp h
    exact ⟨⟨rfl, [], true, rfl, .nil, by simp⟩, hts⟩
  cases ts with
  | nil => exact absurd (ahead_nil _) hts
  | cons t ts =>
    obtain ⟨s, r₁, p', hs, hp', rfl⟩ := (gives_statements_cons hts).mp h
    have hle := hs.le
    obtain ⟨mid, ⟨hf, u, closed, hu, hsp, hopen⟩, hfollows, hskip⟩ := statement_spelled ih hs
    -- the reader of the statement may have taken the first of the newlines behind it
    obtain ⟨n, hn, hnl⟩ := skipNewlines_split mid
    have hlt : (skipNewlines r₁).length < (t :: ts).length := by
      have hle' := length_skipNewlines_le r₁
      omega
    obtain ⟨⟨hf', v, closed', hv, hsp', hopen'⟩, hend⟩ := (ih _ rest hlt).1 inside p' hp'
    rw [hskip, hv] at hn
    subst hn
    refine ⟨⟨?_, u ++ n ++ v, closed && closed', by simp [hu], ?_, ?_⟩, hend⟩
    · simp only [clauseFits] at hf hf'
      simp [clauseFits, fitBody, hf, hf']
    · refine .cons hsp hnl hsp' (hfollows.endsBefore hsp') fun hc => ?_
      obtain ⟨rfl, hvr⟩ := List.append_eq_nil_iff.mp (hopen hc)
      obtain ⟨rfl, -⟩ := List.append_eq_nil_iff.mp hvr
      exact ⟨rfl, eq_nil_of_spelled hsp'⟩
    · intro hc
      cases closed with
      | true => exact hopen' hc
      | false => exact (List.append_eq_nil_iff.mp (List.append_eq_nil_iff.mp (hopen rfl)).2).2

/-- Statements and conditions that have been read are spelled by the tokens that are gone. -/
theorem soundBelow (n : Nat) : SoundBelow stop n := by
  induction n with
  | zero => exact fun ts rest hlt => absurd hlt (Nat.not_lt_zero _)
  | succ n ih =>
    intro ts rest hlt
    have ih' : SoundBelow stop ts.length := fun ts' rest' hlt' => ih ts' rest' (by omega)
    exact ⟨fun inside p => statements_spelled ih', fun s => condition_spelled ih'⟩

end sound

/-! ## What is spelled is read -/

/-- What a spelled clause owes the readers. -/
def ReadBack (stop : Position) : Clause → Bool → List Token → Prop
  | .statement s, closed, w => s.fits = true → ∀ rest, (closed = false → rest = []) →
      Follows s rest → Ahead EndsCondition rest →
      ∃ rest', (statement stop (w ++ rest)).Gives s rest' ∧ skipNewlines rest' = skipNewlines rest
  | .condition s, closed, w => s.fits = true → ∀ rest, (closed = false → rest = []) →
      Ahead EndsCondition rest → (condition stop (w ++ rest)).Gives s rest
  | .block body, closed, w => fitBody body = true → ∀ what rest, (closed = false → rest = []) →
      (blockBelow stop what (w ++ rest)).Gives body rest
  | .statements p, closed, w => fitBody p = true → ∀ inside rest, (closed = false → rest = []) →
      StatementsEnd inside rest → (statements stop inside (w ++ rest)).Gives p rest

theorem exists_lineEnd {ts : List Token} (h : Ahead (endsArguments · = true) ts) :
    ∃ rest, LineEnd ts rest := by
  cases ts with
  | nil => exact ⟨[], .inr ⟨rfl, ahead_nil _⟩⟩
  | cons t ts =>
    have hk := ahead_cons.mp h
    unfold endsArguments at hk
    split at hk
    · exact ⟨ts, .inl ⟨t, rfl, ‹_›⟩⟩
    · exact ⟨t :: ts, .inr ⟨rfl, ahead_cons.mpr ‹_›⟩⟩
    · cases hk

theorem OpensWith.opensStatement_eq_false {e : Expr} {k : Kind} (h : OpensWith e k)
    (hc : e.startsWithCommand = false) : opensStatement k = false := by
  rcases h.cases with ⟨hc', -⟩ | ⟨-, -, hk⟩ | ⟨-, -, hk⟩
  · rw [hc] at hc'
    cases hc'
  all_goals
    simp only [List.mem_cons, List.not_mem_nil, or_false] at hk
    unfold opensStatement
    split <;> simp_all

theorem spelled_block_opens {body : List Stmt} {closed : Bool} {w : List Token}
    (h : (Clause.block body).Spelled closed w) : ∃ t w', w = t :: w' ∧ t.kind = .newline := by
  cases h with
  | closedBlock hnl => exact ⟨_, _, rfl, hnl⟩
  | openBlock hnl => exact ⟨_, _, rfl, hnl⟩

section complete

variable {stop : Position} {rest u v w : List Token} {closed : Bool}

theorem reads_of_endsArguments {e : Expr} (hf : e.fits = true) (hw : (Phrase.expr e).Spelled w)
    (h : Ahead (endsArguments · = true) rest) : Reads (.expr .conditional e) (w ++ rest) rest :=
  reads_expr_iff.mpr ⟨hf, h.mono fun k hk => (endsList_endsArguments k hk).1, w, rfl, hw⟩

/-- The header of a block is read up to the newline that begins the block. -/
theorem reads_header {test : Expr} {body : List Stmt} (hf : test.fits = true)
    (hu : (Phrase.expr test).Spelled u) (hv : (Clause.block body).Spelled closed v) :
    Reads (.expr .conditional test) (u ++ (v ++ rest)) (v ++ rest) := by
  obtain ⟨t, v', rfl, ht⟩ := spelled_block_opens hv
  exact reads_of_endsArguments hf hu (by simp [ht, endsArguments])

theorem binding_reads {t : Token} {e : Expr} {rest' : List Token} (ht : t.kind = .identifier)
    (hf : e.fits = true) (hw : (Phrase.expr e).Spelled w) (hend : LineEnd rest rest') :
    (binding stop (t :: (w ++ rest))).Gives (nameOf t, e) rest' :=
  gives_binding.mpr
    ⟨t, _, rest, rfl, ht, rfl, reads_of_endsArguments hf hw hend.ahead, hend⟩

theorem blockBelow_reads {what : SyntaxError.Wanted} {t i : Token} {n mid : List Token}
    {body : List Stmt} (hnl : t.kind = .newline) (hn : Newlines n) (hi : i.kind = .indent)
    (h : (statements stop true (w ++ mid)).Gives body mid) :
    (blockBelow stop what (t :: n ++ i :: w ++ mid)).Gives body mid.tail := by
  have hskip : skipNewlines (n ++ i :: (w ++ mid)) = i :: (w ++ mid) := by
    rw [skipNewlines_append hn, skipNewlines_of_ahead (by simp [hi])]
  exact gives_blockBelow.mpr ⟨t, n ++ i :: (w ++ mid), by simp, hnl,
    gives_block.mpr ⟨i, w ++ mid, mid, hskip, hi, h, rfl⟩⟩

theorem ahead_statements {P : Kind → Prop} {p : List Stmt} {inside : Bool}
    (h : (Clause.statements p).Spelled closed v) (hend : StatementsEnd inside rest)
    (hopens : ∀ s ∈ p.head?, ∀ k, StatementOpens s k → P k) (hdedent : P .dedent) :
    Ahead P (v ++ rest) := by
  cases h with
  | nil => exact hend.mono fun k hk => hk.2 ▸ hdedent
  | cons hs =>
    obtain ⟨t, w, rfl, ht⟩ := spelled_statement_opens hs
    exact ahead_cons.mpr (hopens _ rfl _ ht)

theorem skipNewlines_statements {p : List Stmt} {inside : Bool}
    (h : (Clause.statements p).Spelled closed v) (hend : StatementsEnd inside rest) :
    skipNewlines (v ++ rest) = v ++ rest :=
  skipNewlines_of_ahead (ahead_statements h hend (fun _ _ _ hk => hk.ne_newline) (by simp))

theorem ahead_newlines {P : Kind → Prop} {n ts : List Token} (hn : Newlines n)
    (hnewline : P .newline) (h : n = [] → Ahead P ts) : Ahead P (n ++ ts) := by
  cases n with
  | nil => exact h rfl
  | cons t n => exact ahead_cons.mpr (hn t (by simp) ▸ hnewline)

theorem follows_of_endsBefore {s : Stmt} {p : List Stmt} {n : List Token} {inside : Bool}
    (hn : Newlines n) (hp : (Clause.statements p).Spelled closed v)
    (hend : StatementsEnd inside rest) (h : s.EndsBefore n p) : Follows s (n ++ (v ++ rest)) := by
  -- whatever the statement is, it has ended where a line or the block has
  have hline : n ≠ [] ∨ p = [] → Ahead (endsArguments · = true) (n ++ (v ++ rest)) := by
    intro hline
    refine ahead_newlines hn rfl fun hnil => ahead_statements hp hend ?_ rfl
    obtain rfl : p = [] := hline.resolve_left (absurd hnil)
    simp
  unfold Follows
  split
  · trivial
  · trivial
  · trivial
  · refine ahead_newlines hn rfl fun hnil => ahead_statements hp hend (fun s' hs' k hk => ?_) rfl
    rcases h with h | rfl | h
    · exact absurd hnil h
    · cases hs'
    · exact hk.2.2.mpr (h s' hs')
  · refine hline ?_
    rcases h with h | h | h
    · exact .inl h
    · exact .inr h
    · split at h <;> simp_all

theorem cons_readBack {s : Stmt} {p : List Stmt} {n : List Token} {closed' : Bool}
    (hs : (Clause.statement s).Spelled closed u) (hn : Newlines n)
    (hr : (Clause.statements p).Spelled closed' v) (hends : s.EndsBefore n p)
    (hopen : closed = false → n = [] ∧ p = []) (ihs : ReadBack stop (.statement s) closed u)
    (ihr : ReadBack stop (.statements p) closed' v) :
    ReadBack stop (.statements (s :: p)) (closed && closed') (u ++ n ++ v) := by
  intro hf inside rest hrest hend
  simp only [fitBody, Bool.and_eq_true] at hf
  have hfollows := follows_of_endsBefore hn hr hend hends
  have hcondition : Ahead EndsCondition (n ++ (v ++ rest)) :=
    ahead_newlines hn (by simp [EndsCondition]) fun _ =>
      ahead_statements hr hend (fun _ _ _ hk => hk.2.1) (by simp [EndsCondition])
  have hclosed : closed = false → n ++ (v ++ rest) = [] := by
    intro hc
    obtain ⟨rfl, rfl⟩ := hopen hc
    cases hr
    exact hrest (by simp [hc])
  obtain ⟨mid, hgives, hskip⟩ := ihs hf.1 _ hclosed hfollows hcondition
  have hrestgives := ihr hf.2 inside rest (fun hc => hrest (by simp [hc])) hend
  rw [skipNewlines_append hn, skipNewlines_statements hr hend] at hskip
  obtain ⟨t, u', rfl, ht⟩ := spelled_statement_opens hs
  have hgo : ¬ StatementsEnd inside (t :: (u' ++ (n ++ (v ++ rest)))) := by
    intro hstop
    exact ht.ne_dedent (ahead_cons.mp hstop).2
  rw [List.append_assoc, List.append_assoc]
  exact (gives_statements_cons hgo).mpr ⟨s, mid, p, hgives, by rwa [hskip], rfl⟩

end complete

theorem spelled_readBack {stop : Position} {c : Clause} {closed : Bool} {w : List Token}
    (h : c.Spelled closed w) : ReadBack stop c closed w := by
  induction h with
  | init ht hn he =>
    intro hf rest _ hend _
    obtain ⟨rest', hline⟩ := exists_lineEnd hend
    exact ⟨rest', (gives_init ht).mpr ⟨_, _, binding_reads hn hf he hline, rfl⟩,
      hline.skipNewlines_eq.symm⟩
  | set ht hn he =>
    intro hf rest _ hend _
    obtain ⟨rest', hline⟩ := exists_lineEnd hend
    exact ⟨rest', (gives_set ht).mpr ⟨_, _, binding_reads hn hf he hline, rfl⟩,
      hline.skipNewlines_eq.symm⟩
  | ret ht =>
    intro _ rest _ hend _
    have hvalue : (returnValue stop rest).Gives none rest :=
      gives_returnValue.mpr (.inl ⟨rfl, rfl, hend⟩)
    exact ⟨rest, (gives_return ht).mpr ⟨none, hvalue, rfl⟩, rfl⟩
  | @retValue t e w ht he =>
    intro hf rest _ hend _
    have hreads : Reads (.expr .conditional e) (w ++ rest) rest :=
      reads_expr_iff.mpr ⟨hf, hend, w, rfl, he⟩
    have hline : atLineEnd (w ++ rest) = false := by
      obtain ⟨t, w', rfl, hopen⟩ := spelled_opens he
      rw [← Bool.not_eq_true, atLineEnd_iff]
      simp [hopen.statement.1]
    exact ⟨rest, (gives_return ht).mpr
      ⟨some e, gives_returnValue.mpr (.inr ⟨e, rfl, hline, hreads⟩), rfl⟩, rfl⟩
  | pass ht =>
    intro _ rest _ hend _
    obtain ⟨rest', hline⟩ := exists_lineEnd hend
    exact ⟨rest', (gives_pass ht).mpr ⟨hline, rfl⟩, hline.skipNewlines_eq.symm⟩
  | @call n es w hn hs =>
    intro hf rest _ hend _
    simp only [Stmt.fits, Expr.fits, Bool.and_eq_true] at hf
    have hreads : Reads (.args endsArguments es) (w ++ rest) rest :=
      (reads_args_iff endsList_endsArguments).mpr ⟨hf.1, hend, w, rfl, hs⟩
    exact ⟨rest, (gives_call hn).mpr ⟨es, hreads, rfl⟩, rfl⟩
  | @expression e w he =>
    intro hf rest _ hend _
    simp only [Stmt.fits, Bool.and_eq_true, Bool.not_eq_true'] at hf
    obtain ⟨rest', hline⟩ := exists_lineEnd hend
    have hopens : Ahead (opensStatement · = false) (w ++ rest) := by
      obtain ⟨t, w', rfl, hopen⟩ := spelled_opens he
      exact ahead_cons.mpr (hopen.opensStatement_eq_false hf.2)
    exact ⟨rest', (gives_other hopens).mpr (gives_expressionStatement.mpr
      ⟨e, rest, reads_of_endsArguments hf.1 he hend, hline, rfl⟩), hline.skipNewlines_eq.symm⟩
  | @definition t n params body closed w ht hn hps hb ih =>
    intro hf rest hopen _ _
    have hnot : Ahead (· ≠ .identifier) (w ++ rest) := by
      obtain ⟨t, w', rfl, ht⟩ := spelled_block_opens hb
      simp [ht]
    refine ⟨rest, (gives_definition ht).mpr ⟨n, params ++ (w ++ rest), params.map nameOf, w ++ rest,
      body, by simp, hn, ?_, ih hf _ rest hopen, rfl⟩, rfl⟩
    exact gives_parameters.mpr ⟨params, rfl, rfl, hps, hnot⟩
  | @loop t test body closed u v ht he hb ih =>
    intro hf rest hopen _ _
    simp only [Stmt.fits, Bool.and_eq_true] at hf
    refine ⟨rest, (gives_while ht).mpr ⟨test, v ++ rest, body, ?_, ih hf.2 _ rest hopen, rfl⟩, rfl⟩
    simpa using reads_header hf.1 he hb
  | condition ht hs ih =>
    intro hf rest hopen _ hend
    exact ⟨rest, (gives_if ht).mpr (ih hf rest hopen hend), rfl⟩
  | @noElse test body closed u v he hb ih =>
    intro hf rest hopen hend
    simp only [Stmt.fits, Bool.and_eq_true] at hf
    rw [List.append_assoc]
    exact gives_condition.mpr ⟨test, v ++ rest, body, rest, reads_header hf.1 he hb,
      ih hf.2 _ rest hopen, .inl ⟨rfl, rfl, hend⟩⟩
  | @withElse t test body other closed u v w he hb ht ho ihb iho =>
    intro hf rest hopen hend
    simp only [Stmt.fits, Bool.and_eq_true] at hf
    have hother : (elseBranch stop (w ++ rest)).Gives other rest := by
      obtain ⟨t', w', rfl, ht'⟩ := spelled_block_opens ho
      exact gives_elseBranch.mpr (.inr ⟨by simp [ht'], iho hf.2 _ rest hopen⟩)
    rw [List.append_assoc, List.append_assoc]
    exact gives_condition.mpr ⟨test, v ++ t :: (w ++ rest), body, t :: (w ++ rest),
      reads_header hf.1.1 he hb, ihb hf.1.2 _ _ (by simp),
      .inr ⟨t, _, rfl, .inl ⟨other, ht, hother, rfl⟩⟩⟩
  | @elseIf t t' test body s closed u v w he hb ht ht' hs ihb ihs =>
    intro hf rest hopen hend
    simp only [Stmt.fits, fitBody, Bool.and_eq_true] at hf
    have hother : (elseBranch stop (t' :: (w ++ rest))).Gives [s] rest :=
      gives_elseBranch.mpr (.inl ⟨t', w ++ rest, s, rfl, ht', ihs hf.2.1 rest hopen hend, rfl⟩)
    rw [List.append_assoc, List.append_assoc]
    exact gives_condition.mpr ⟨test, v ++ t :: t' :: (w ++ rest), body, t :: t' :: (w ++ rest),
      reads_header hf.1.1 he hb, ihb hf.1.2 _ _ (by simp),
      .inr ⟨t, _, rfl, .inl ⟨[s], ht, hother, rfl⟩⟩⟩
  | @elsif t test body s closed u v w he hb ht hs ihb ihs =>
    intro hf rest hopen hend
    simp only [Stmt.fits, fitBody, Bool.and_eq_true] at hf
    rw [List.append_assoc, List.append_assoc]
    exact gives_condition.mpr ⟨test, v ++ t :: (w ++ rest), body, t :: (w ++ rest),
      reads_header hf.1.1 he hb, ihb hf.1.2 _ _ (by simp),
      .inr ⟨t, _, rfl, .inr ⟨s, ht, ihs hf.2.1 rest hopen hend, rfl⟩⟩⟩
  | @closedBlock n t i d body w hnl hn hi hb hd ih =>
    intro hf what rest _
    have hbody := ih hf true (d :: rest) (by simp) (ahead_cons.mpr ⟨rfl, hd⟩)
    rw [List.append_assoc]
    exact blockBelow_reads hnl hn hi hbody
  | @openBlock n t i body closed w hnl hn hi hb ih =>
    intro hf what rest hopen
    obtain rfl : rest = [] := hopen rfl
    have hbody := ih hf true [] (fun _ => rfl) (ahead_nil _)
    exact blockBelow_reads hnl hn hi hbody
  | nil =>
    intro _ inside rest _ hend
    exact (gives_statements_end hend).mpr ⟨rfl, rfl⟩
  | cons hs hn hr hends hopen ihs ihr => exact cons_readBack hs hn hr hends hopen ihs ihr

/-- Statements are read from exactly the tokens that spell them. -/
theorem gives_statements_iff {stop : Position} {inside : Bool} {p : Program}
    {ts rest : List Token} :
    (statements stop inside ts).Gives p rest ↔
      SpelledBefore (.statements p) ts rest ∧ StatementsEnd inside rest := by
  constructor
  · exact (soundBelow _ ts rest (Nat.lt_succ_self _)).1 inside p
  · rintro ⟨⟨hf, w, closed, rfl, hw, hopen⟩, hend⟩
    exact spelled_readBack hw hf inside rest hopen hend

end Offside.Grammar
