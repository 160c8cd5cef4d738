import Offside.Proofs.Grammar.Clauses

/-!
# A program is what its tokens spell

The content of a token list is what stands before the end of the input, without comments. `parse`
returns a program for exactly those token lists whose content spells it, and the program then fits
the grammar. Recovery from errors never has a part in a program that is returned.

Every program that fits has a spelling, `Program.write`, so nothing that the grammar allows is out
of reach.
-/

namespace Offside

open Grammar

/-! ## The content of a token list -/

/-- The tokens that count: those before the end of the input that are no comments. -/
def content (ts : List Token) : List Token :=
  (ts.takeWhile (·.kind != .endOfInput)).filter (·.kind != .comment)

theorem takeWhile_filter_comment (ts : List Token) :
    (ts.filter (·.kind != .comment)).takeWhile Token.isInside = content ts := by
  induction ts with
  | nil => rfl
  | cons t ts ih =>
    unfold content at ih ⊢
    by_cases hc : t.kind = .comment
    · simp [hc, ih]
    · by_cases he : t.kind = .endOfInput
      · simp [he, Token.isInside]
      · simp [List.takeWhile_cons, hc, he, Token.isInside, ih]

/-- A token that is neither a comment nor the end of the input. -/
def Token.Counts (t : Token) : Prop := t.kind ≠ .comment ∧ t.kind ≠ .endOfInput

theorem content_append {w rest : List Token} (hw : ∀ t ∈ w, t.Counts) :
    content (w ++ rest) = w ++ content rest := by
  induction w with
  | nil => rfl
  | cons t w ih =>
    obtain ⟨hc, he⟩ := hw t (by simp)
    have ih' := ih fun u hu => hw u (by simp [hu])
    unfold content at ih' ⊢
    simp [hc, he, ih']

theorem content_end {t : Token} {rest : List Token} (ht : t.kind = .endOfInput) :
    content (t :: rest) = [] := by
  simp [content, ht]

/-! ## Reading a program -/

theorem parse_eq_ok {ts : List Token} {p : Program} :
    parse ts = .ok p ↔ ∃ rest, (statements (endPosition (ts.filter (·.kind != .comment))) false
      (skipNewlines (content ts))).Gives p rest := by
  unfold parse
  simp only []
  rw [takeWhile_filter_comment]
  -- a program is returned only if no error was noted, also none that reading recovered from
  split
  · rename_i h
    simp [Statements.Gives, h]
  · rename_i h
    simp only [reduceCtorEq, Statements.Gives, false_iff]
    rintro ⟨rest, he, -⟩
    exact h he

theorem spelled_of_parse {ts : List Token} {p : Program} (h : parse ts = .ok p) :
    Program.fits p = true ∧ Program.Spelled p (content ts) := by
  obtain ⟨rest, hgives⟩ := parse_eq_ok.mp h
  obtain ⟨⟨hf, w, closed, hw, hsp, -⟩, hend⟩ := gives_statements_iff.mp hgives
  obtain ⟨n, hn, hnl⟩ := skipNewlines_split (content ts)
  obtain rfl : rest = [] := by
    cases rest with
    | nil => rfl
    | cons t rest => cases (ahead_cons.mp hend).1
  rw [hw, List.append_nil] at hn
  exact ⟨hf, n, w, closed, hn, hnl, hsp⟩

theorem parse_of_spelled {ts : List Token} {p : Program} (hf : Program.fits p = true)
    (h : Program.Spelled p (content ts)) : parse ts = .ok p := by
  obtain ⟨n, w, closed, hts, hn, hw⟩ := h
  have hend : StatementsEnd false [] := ahead_nil _
  have hskip : skipNewlines (content ts) = w ++ [] := by
    rw [hts, skipNewlines_append hn, ← skipNewlines_statements hw hend, List.append_nil]
  have hspelled : SpelledBefore (.statements p) (skipNewlines (content ts)) [] :=
    ⟨hf, w, closed, hskip, hw, fun _ => rfl⟩
  exact parse_eq_ok.mpr ⟨[], gives_statements_iff.mpr ⟨hspelled, hend⟩⟩

/-! ## Writing a program -/

namespace Grammar

/-- A token that is known by its kind. -/
def word (k : Kind) (p : Position) : Token := ⟨k, "", none, p⟩

def nameToken (k : Kind) (n : Name) : Token := ⟨k, n.text, none, n.pos⟩

@[simp] theorem nameOf_nameToken (k : Kind) (n : Name) : nameOf (nameToken k n) = n := rfl

def literalToken : Literal → Token
  | .number x => ⟨.number, "", some (.number x), .start⟩
  | .text s => ⟨.text, "", some (.text s), .start⟩
  | .boolean true => word (.keyword .trueLit) .start
  | .boolean false => word (.keyword .falseLit) .start
  | .none => word (.keyword .noneLit) .start

def operatorTokens (op : BinaryOp) (p : Position) : List Token := op.words.map (word · p)

/-- A block below a header line. -/
def below (w : List Token) : List Token :=
  word .newline .start :: word .indent .start :: w ++ [word .dedent .start]

end Grammar

mutual

def Expr.write : Expr → List Token
  | .literal v => [literalToken v]
  | .name k n => [nameToken k.kind n]
  | .group inner =>
    word (.symbol .leftParen) .start :: inner.write ++ [word (.symbol .rightParen) .start]
  | .unary op p right => word op.word p :: right.write
  | .binary left op p right => left.write ++ operatorTokens op p ++ right.write
  | .comparison first links => first.write ++ writeLinks links
  | .ternary condition left right =>
    left.write ++ word (.keyword .ifOp) .start :: condition.write ++
      word (.keyword .elseOp) .start :: right.write
  | .call n args =>
    word (.symbol .leftParen) .start :: nameToken .command n :: writeAll args ++
      [word (.symbol .rightParen) .start]

def writeLinks : List (Link Expr) → List Token
  | [] => []
  | ⟨op, p, right⟩ :: links => operatorTokens op p ++ right.write ++ writeLinks links

def writeAll : List Expr → List Token
  | [] => []
  | e :: es => e.write ++ writeAll es

end

mutual

/-- The tokens of a statement. A call is written without parentheses. -/
def Stmt.write : Stmt → List Token
  | .init n value => word (.keyword .initStmt) .start :: nameToken .identifier n :: value.write
  | .set n value => word (.keyword .setStmt) .start :: nameToken .identifier n :: value.write
  | .condition test thenBody none =>
    word (.keyword .ifStmt) .start :: (test.write ++ below (writeBody thenBody))
  | .condition test thenBody (some elseBody) =>
    word (.keyword .ifStmt) .start :: (test.write ++ below (writeBody thenBody) ++
      word (.keyword .elseStmt) .start :: below (writeBody elseBody))
  | .loop test body => word (.keyword .whileStmt) .start :: test.write ++ below (writeBody body)
  | .definition n params body =>
    word (.keyword .defStmt) .start :: nameToken .command n ::
      params.map (nameToken .identifier) ++ below (writeBody body)
  | .ret p none => [word (.keyword .returnStmt) p]
  | .ret p (some value) => word (.keyword .returnStmt) p :: value.write
  | .expression (.call n args) => nameToken .command n :: writeAll args
  | .expression e => e.write
  | .body _ => []
  | .pass => [word (.keyword .passStmt) .start]

/-- The tokens of statements, each with a newline behind it. -/
def writeBody : List Stmt → List Token
  | [] => []
  | s :: rest => s.write ++ [word .newline .start] ++ writeBody rest

end

/-- The tokens of a program, with the end of the input. -/
def Program.write (p : Program) : List Token := writeBody p ++ [word .endOfInput .start]

theorem literalToken_spelled (v : Literal) : v.SpelledBy (literalToken v) := by
  cases v with
  | boolean b => cases b <;> rfl
  | number x => exact ⟨.inl rfl, rfl⟩
  | text s => exact ⟨.inr rfl, rfl⟩
  | none => exact .inl rfl

theorem operatorTokens_spelled (op : BinaryOp) (p : Position) :
    op.SpelledAt p (operatorTokens op p) := by
  cases op <;> exact ⟨rfl, rfl⟩

mutual

theorem Expr.write_spelled : ∀ e : Expr, (Phrase.expr e).Spelled e.write
  | .literal v => .literal (literalToken_spelled v)
  | .name k n => .name (t := nameToken k.kind n) rfl
  | .group inner => .group rfl inner.write_spelled rfl
  | .unary op p right => .unary (t := word op.word p) rfl right.write_spelled
  | .binary left op p right =>
    .binary left.write_spelled (operatorTokens_spelled op p) right.write_spelled
  | .comparison first links => .comparison first.write_spelled (writeLinks_spelled links)
  | .ternary condition left right =>
    .ternary left.write_spelled rfl condition.write_spelled rfl right.write_spelled
  | .call name args => .call (n := nameToken .command name) rfl rfl (writeAll_spelled args) rfl

theorem writeLinks_spelled :
    ∀ links : List (Link Expr), (Phrase.links links).Spelled (writeLinks links)
  | [] => .noLink
  | ⟨op, p, right⟩ :: links =>
    .link (operatorTokens_spelled op p) right.write_spelled (writeLinks_spelled links)

theorem writeAll_spelled : ∀ es : List Expr, (Phrase.args es).Spelled (writeAll es)
  | [] => .noArg
  | e :: es => .arg e.write_spelled (writeAll_spelled es)

end

theorem below_spelled {body : List Stmt} {w : List Token}
    (h : (Clause.statements body).Spelled true w) : (Clause.block body).Spelled true (below w) :=
  .closedBlock (n := []) rfl newlines_nil rfl h rfl

mutual

theorem Stmt.write_spelled : ∀ s : Stmt, s.fits = true → (Clause.statement s).Spelled true s.write
  | .init name value, _ => .init (n := nameToken .identifier name) rfl rfl value.write_spelled
  | .set name value, _ => .set (n := nameToken .identifier name) rfl rfl value.write_spelled
  | .condition test thenBody none, h => by
    simp only [Stmt.fits, Bool.and_eq_true] at h
    exact .condition rfl
      (.noElse test.write_spelled (below_spelled (writeBody_spelled thenBody h.2)))
  | .condition test thenBody (some elseBody), h => by
    simp only [Stmt.fits, Bool.and_eq_true] at h
    exact .condition rfl (.withElse test.write_spelled
      (below_spelled (writeBody_spelled thenBody h.1.2)) rfl
      (below_spelled (writeBody_spelled elseBody h.2)))
  | .loop test body, h => by
    simp only [Stmt.fits, Bool.and_eq_true] at h
    exact .loop rfl test.write_spelled (below_spelled (writeBody_spelled body h.2))
  | .definition name params body, h => by
    have hdef : (Clause.statement (.definition name
        ((params.map (nameToken .identifier)).map nameOf) body)).Spelled true
        (Stmt.definition name params body).write :=
      .definition (n := nameToken .command name) rfl rfl (by simp [nameToken])
        (below_spelled (writeBody_spelled body h))
    simpa [Function.comp_def] using hdef
  | .ret p none, _ => .ret (t := word (.keyword .returnStmt) p) rfl
  | .ret p (some value), _ => .retValue (t := word (.keyword .returnStmt) p) rfl value.write_spelled
  | .expression e, _ => by
    cases e with
    | call name args => exact .call (n := nameToken .command name) rfl (writeAll_spelled args)
    | _ => exact .expression (Expr.write_spelled _)
  | .pass, _ => .pass rfl

theorem writeBody_spelled : ∀ body : List Stmt, fitBody body = true →
    (Clause.statements body).Spelled true (writeBody body)
  | [], _ => .nil
  | s :: rest, h => by
    simp only [fitBody, Bool.and_eq_true] at h
    exact .cons (s.write_spelled h.1) (by simp [Newlines, word]) (writeBody_spelled rest h.2)
      (.inl (by simp)) nofun

end

/-! ## Spelled tokens count -/

theorem counts_of_kind {t : Token} {k : Kind} (h : t.kind = k)
    (hk : k ≠ .comment ∧ k ≠ .endOfInput) : t.Counts := by
  rwa [← h] at hk

theorem isCode_of_kind {t : Token} {k : Kind} (h : t.kind = k) (hk : k.isCode = true) :
    t.kind.isCode = true := by
  rwa [h]

/-- The kinds of tokens that expressions are made of. -/
def Kind.inPhrase : Kind → Bool
  | .newline | .comment | .indent | .dedent | .endOfInput | .keyword .initStmt | .keyword .setStmt
  | .keyword .ifStmt | .keyword .elseStmt | .keyword .elsifStmt | .keyword .forStmt
  | .keyword .whileStmt | .keyword .defStmt | .keyword .passStmt | .keyword .continueStmt
  | .keyword .returnStmt => false
  | _ => true

theorem isCode_of_inPhrase {k : Kind} (h : k.inPhrase = true) : k.isCode = true := by
  cases k <;> first | rfl | cases h

theorem inPhrase_of_kind {t : Token} {k : Kind} (h : t.kind = k) (hk : k.inPhrase = true) :
    t.kind.inPhrase = true := by
  rwa [h]

theorem inPhrase_of_operator {op : BinaryOp} {p : Position} {o : List Token}
    (h : op.SpelledAt p o) : ∀ t ∈ o, t.kind.inPhrase = true := by
  intro t ht
  have hmem : t.kind ∈ op.words := h.1 ▸ List.mem_map_of_mem ht
  have hall : ∀ k ∈ op.words, k.inPhrase = true := by
    cases op <;> decide
  exact hall _ hmem

theorem Phrase.Spelled.inPhrase {ph : Phrase} {w : List Token} (h : ph.Spelled w) :
    ∀ t ∈ w, t.kind.inPhrase = true := by
  induction h with
  | literal ht =>
    have hall : ∀ k ∈ [.keyword .trueLit, .keyword .falseLit, .keyword .noneLit, Kind.number,
        .text], k.inPhrase = true := by decide
    simp only [List.mem_singleton, forall_eq]
    exact hall _ (kind_of_literal ht)
  | @name t k ht =>
    simp only [List.mem_singleton, forall_eq]
    exact inPhrase_of_kind ht (by cases k <;> rfl)
  | group ht he hu ihe =>
    simp only [List.forall_mem_append, List.forall_mem_cons]
    exact ⟨⟨inPhrase_of_kind ht rfl, ihe⟩, inPhrase_of_kind hu rfl, by simp⟩
  | call ht hn hs hu ihs =>
    simp only [List.forall_mem_append, List.forall_mem_cons]
    exact ⟨⟨inPhrase_of_kind ht rfl, inPhrase_of_kind hn rfl, ihs⟩, inPhrase_of_kind hu rfl,
      by simp⟩
  | @unary t op e w ht he ihe =>
    simp only [List.forall_mem_cons]
    exact ⟨inPhrase_of_kind ht (by cases op <;> rfl), ihe⟩
  | binary hl ho hr ihl ihr =>
    simp only [List.forall_mem_append]
    exact ⟨⟨ihl, inPhrase_of_operator ho⟩, ihr⟩
  | comparison hf hs ihf ihs =>
    simp only [List.forall_mem_append]
    exact ⟨ihf, ihs⟩
  | ternary hl ht hc ht' hr ihl ihc ihr =>
    simp only [List.forall_mem_append, List.forall_mem_cons]
    exact ⟨⟨ihl, inPhrase_of_kind ht rfl, ihc⟩, inPhrase_of_kind ht' rfl, ihr⟩
  | noLink => simp
  | link ho hr hs ihr ihs =>
    simp only [List.forall_mem_append]
    exact ⟨⟨inPhrase_of_operator ho, ihr⟩, ihs⟩
  | noArg => simp
  | arg he hs ihe ihs =>
    simp only [List.forall_mem_append]
    exact ⟨ihe, ihs⟩

theorem Phrase.Spelled.isCode {ph : Phrase} {w : List Token} (h : ph.Spelled w) :
    ∀ t ∈ w, t.kind.isCode = true :=
  fun t ht => isCode_of_inPhrase (h.inPhrase t ht)

theorem Phrase.Spelled.counts {ph : Phrase} {w : List Token} (h : ph.Spelled w) :
    ∀ t ∈ w, t.Counts := by
  intro t ht
  have hcode := h.isCode t ht
  refine ⟨fun hk => ?_, fun hk => ?_⟩
  all_goals
    rw [hk] at hcode
    cases hcode

theorem Newlines.counts {n : List Token} (h : Newlines n) : ∀ t ∈ n, t.Counts :=
  fun t ht => counts_of_kind (h t ht) (by decide)

theorem Clause.Spelled.counts {c : Clause} {closed : Bool} {w : List Token}
    (h : c.Spelled closed w) : ∀ t ∈ w, t.Counts := by
  induction h with
  | init ht hn he =>
    simp only [List.forall_mem_cons]
    exact ⟨counts_of_kind ht (by decide), counts_of_kind hn (by decide), he.counts⟩
  | set ht hn he =>
    simp only [List.forall_mem_cons]
    exact ⟨counts_of_kind ht (by decide), counts_of_kind hn (by decide), he.counts⟩
  | ret ht =>
    simp only [List.mem_singleton, forall_eq]
    exact counts_of_kind ht (by decide)
  | retValue ht he =>
    simp only [List.forall_mem_cons]
    exact ⟨counts_of_kind ht (by decide), he.counts⟩
  | pass ht =>
    simp only [List.mem_singleton, forall_eq]
    exact counts_of_kind ht (by decide)
  | call hn hs =>
    simp only [List.forall_mem_cons]
    exact ⟨counts_of_kind hn (by decide), hs.counts⟩
  | expression he => exact he.counts
  | definition ht hn hps hb ih =>
    simp only [List.forall_mem_append, List.forall_mem_cons]
    exact ⟨⟨counts_of_kind ht (by decide), counts_of_kind hn (by decide),
      fun p hp => counts_of_kind (hps p hp) (by decide)⟩, ih⟩
  | loop ht he hb ih =>
    simp only [List.forall_mem_append, List.forall_mem_cons]
    exact ⟨⟨counts_of_kind ht (by decide), he.counts⟩, ih⟩
  | condition ht hs ih =>
    simp only [List.forall_mem_cons]
    exact ⟨counts_of_kind ht (by decide), ih⟩
  | noElse he hb ih =>
    simp only [List.forall_mem_append]
    exact ⟨he.counts, ih⟩
  | withElse he hb ht ho ihb iho =>
    simp only [List.forall_mem_append, List.forall_mem_cons]
    exact ⟨⟨he.counts, ihb⟩, counts_of_kind ht (by decide), iho⟩
  | elseIf he hb ht ht' hs ihb ihs =>
    simp only [List.forall_mem_append, List.forall_mem_cons]
    exact ⟨⟨he.counts, ihb⟩, counts_of_kind ht (by decide), counts_of_kind ht' (by decide), ihs⟩
  | elsif he hb ht hs ihb ihs =>
    simp only [List.forall_mem_append, List.forall_mem_cons]
    exact ⟨⟨he.counts, ihb⟩, counts_of_kind ht (by decide), ihs⟩
  | closedBlock hnl hn hi hb hd ih =>
    simp only [List.forall_mem_append, List.forall_mem_cons]
    exact ⟨⟨⟨counts_of_kind hnl (by decide), hn.counts⟩, counts_of_kind hi (by decide), ih⟩,
      counts_of_kind hd (by decide), by simp⟩
  | openBlock hnl hn hi hb ih =>
    simp only [List.forall_mem_append, List.forall_mem_cons]
    exact ⟨⟨counts_of_kind hnl (by decide), hn.counts⟩, counts_of_kind hi (by decide), ih⟩
  | nil => simp
  | cons hs hn hr hend hopen ihs ihr =>
    simp only [List.forall_mem_append]
    exact ⟨⟨ihs, hn.counts⟩, ihr⟩

theorem Program.Spelled.content_eq {p : Program} {w rest : List Token} {t : Token}
    (h : Program.Spelled p w) (ht : t.kind = .endOfInput) : content (w ++ t :: rest) = w := by
  obtain ⟨n, v, closed, rfl, hn, hv⟩ := h
  have hcounts : ∀ u ∈ n ++ v, u.Counts := List.forall_mem_append.mpr ⟨hn.counts, hv.counts⟩
  rw [content_append hcounts, content_end ht, List.append_nil]

theorem writeBody_program_spelled {p : Program} (hf : Program.fits p = true) :
    Program.Spelled p (writeBody p) :=
  ⟨[], writeBody p, true, rfl, newlines_nil, writeBody_spelled p hf⟩

/-! ## Soundness and completeness -/

/-- **Soundness, with its converse.** A program is returned if and only if it fits the grammar and
is spelled by the tokens before the end of the input that are no comments, by all of them and in
their order. -/
theorem parse_eq_ok_iff (ts : List Token) (p : Program) :
    parse ts = .ok p ↔ Program.fits p = true ∧ Program.Spelled p (content ts) :=
  ⟨spelled_of_parse, fun h => parse_of_spelled h.1 h.2⟩

/-- A comment, and what is behind the end of the input, does not count; a parenthesis is no
program. -/
theorem parse_eq_ok_iff_pass :
    Program.Spelled [.pass] (content
      [⟨.keyword .passStmt, "PASS", none, ⟨1, 1⟩⟩, ⟨.comment, "#", none, ⟨1, 6⟩⟩,
        ⟨.endOfInput, "", none, ⟨1, 7⟩⟩, ⟨.symbol .rightParen, ")", none, ⟨1, 7⟩⟩]) ∧
    ∀ p, ¬ (Program.fits p = true ∧
      Program.Spelled p (content [⟨.symbol .rightParen, ")", none, ⟨1, 1⟩⟩])) := by
  refine ⟨((parse_eq_ok_iff _ _).mp (by with_unfolding_all rfl)).2, fun p hp => ?_⟩
  have hparse := (parse_eq_ok_iff _ p).mpr hp
  have herror : parse [⟨.symbol .rightParen, ")", none, ⟨1, 1⟩⟩] =
      .error [⟨.expectedExpression "')'", ⟨1, 1⟩⟩] := by with_unfolding_all rfl
  rw [hparse] at herror
  cases herror

/-- **Completeness.** A program that fits the grammar is read back from its tokens, with all its
positions: from those that `Program.write` gives, and from any others that spell it, with comments
among them and anything behind the end of the input. -/
theorem parse_complete {p : Program} (hf : Program.fits p = true) :
    parse p.write = .ok p ∧ ∀ ts, Program.Spelled p (content ts) → parse ts = .ok p := by
  refine ⟨parse_of_spelled hf ?_, fun ts => parse_of_spelled hf⟩
  have hspelled := writeBody_program_spelled hf
  rwa [Program.write, hspelled.content_eq rfl]

/-- The program `DEF PICK a b` with `RETURN a if not a < b <= a else -b ** a` and `PICK a` below. -/
def pick : Program :=
  let a : Expr := .name .variable ⟨"a", ⟨2, 10⟩⟩
  let b : Expr := .name .variable ⟨"b", ⟨2, 23⟩⟩
  [.definition ⟨"PICK", ⟨1, 5⟩⟩ [⟨"a", ⟨1, 10⟩⟩, ⟨"b", ⟨1, 12⟩⟩]
    [.ret ⟨2, 3⟩ (some (.ternary
      (.unary .not ⟨2, 15⟩ (.comparison a [⟨.less, ⟨2, 21⟩, b⟩, ⟨.lessEqual, ⟨2, 25⟩, a⟩]))
      a (.unary .negate ⟨2, 35⟩ (.binary b .power ⟨2, 38⟩ a)))),
    .expression (.call ⟨"PICK", ⟨3, 3⟩⟩ [a])]]

theorem parse_complete_pick : Program.fits pick = true ∧ parse pick.write = .ok pick :=
  ⟨rfl, (parse_complete rfl).1⟩

end Offside
