import Offside.Proofs.Grammar.Recovery

/-!
# Where errors of the grammar stand

An error of the grammar stands at a token or at the end of the input, and if it says what was found,
that is what stands there (`Names`). Errors are met on the way through the tokens, each one behind
the token of the one before, and behind an error at the last token there is none (`Meets`). A reader
keeps this up as long as it goes on with tokens that are behind its own (`Traced.Placed`), and every
reader does. It is true although reading gives up in front of a token, and for a lone `not` even
one token behind the error: recovery always passes over the token it is at.
-/

namespace Offside

namespace Grammar

/-- The error stands in front of some of the tokens, and what it says was found is next there. -/
def Names (stop : Position) (ts : List Token) (e : SyntaxError) : Prop :=
  ∃ us, us <:+ ts ∧ e.pos = position stop us ∧ ∀ f ∈ e.cause.found?, f = describe us

theorem Names.mono {stop : Position} {us ts : List Token} {e : SyntaxError}
    (h : Names stop us e) (hus : us <:+ ts) : Names stop ts e := by
  obtain ⟨vs, hvs, hpos, hfound⟩ := h
  exact ⟨vs, hvs.trans hus, hpos, hfound⟩

/-- On the way from the tokens `ts` to what is left of them, the errors are met in their order: each
stands in front of some of the tokens, and the next one is behind the first of these. There is a
next one only if tokens are left. -/
inductive Meets (stop : Position) : List Token → List SyntaxError → List Token → Prop
  | done {ts us} (h : us <:+ ts) : Meets stop ts [] us
  | error {ts vs us e es} (hvs : vs <:+ ts) (hpos : e.pos = position stop vs)
      (hfound : ∀ f ∈ e.cause.found?, f = describe vs) (hlast : vs.tail = [] → es = [])
      (h : Meets stop vs.tail es us) : Meets stop ts (e :: es) us

namespace Meets

variable {stop : Position} {ts us vs : List Token} {es es' : List SyntaxError}

theorem suffix (h : Meets stop ts es us) : us <:+ ts := by
  induction h with
  | done h => exact h
  | error hvs _ _ _ _ ih => exact (ih.trans (List.tail_suffix _)).trans hvs

theorem mono (h : Meets stop us es vs) (hus : us <:+ ts) : Meets stop ts es vs := by
  cases h with
  | done h => exact .done (h.trans hus)
  | error hvs hpos hfound hlast h => exact .error (hvs.trans hus) hpos hfound hlast h

theorem weaken (h : Meets stop ts es us) (hvs : vs <:+ us) : Meets stop ts es vs := by
  induction h with
  | done h => exact .done (hvs.trans h)
  | error hws hpos hfound hlast _ ih => exact .error hws hpos hfound hlast (ih hvs)

/-- One way and then another. If no tokens are left in between, no errors may follow. -/
theorem append (h : Meets stop ts es us) (h' : Meets stop us es' vs) (hend : us = [] → es' = []) :
    Meets stop ts (es ++ es') vs := by
  induction h with
  | done h => exact h'.mono h
  | error hws hpos hfound hlast h ih =>
    refine .error hws hpos hfound (fun htail => ?_) (ih h' hend)
    have hnil := h.suffix
    rw [htail, List.suffix_nil] at hnil
    rw [hlast htail, hend hnil]
    rfl

theorem names (h : Meets stop ts es us) : ∀ e ∈ es, Names stop ts e := by
  induction h with
  | done _ => exact fun _ he => absurd he List.not_mem_nil
  | error hvs hpos hfound _ _ ih =>
    refine List.forall_mem_cons.mpr ⟨⟨_, hvs, hpos, hfound⟩, fun e he => ?_⟩
    exact (ih e he).mono ((List.tail_suffix _).trans hvs)

end Meets

/-- The errors of a reply are met on the way through its tokens. Behind an error that reading gives
up with, at least one more token is passed over. -/
structure Traced.Placed {α : Type} {k : Nat} {ts : List Token} (stop : Position)
    (r : Traced α k ts) : Prop where
  ok : ∀ a, r.reply.result = .ok a → Meets stop ts r.errors r.reply.rest
  error : ∀ e, r.reply.result = .error e → Meets stop ts (r.errors ++ [e]) r.reply.rest.tail

namespace Traced.Placed

variable {α β : Type} {j k : Nat} {stop : Position} {ts : List Token}

theorem of_ok {a : α} {rest : List Token} (hrest : rest <:+ ts)
    (hle : rest.length + k ≤ ts.length) :
    Placed stop (Reply.ok a rest hle : Reply α k ts).quiet :=
  ⟨fun _ _ => .done hrest, fun e he => by cases he⟩

theorem of_fail {e : SyntaxError} {rest vs : List Token} (hvs : vs <:+ ts)
    (hpos : e.pos = position stop vs) (hfound : ∀ f ∈ e.cause.found?, f = describe vs)
    (hrest : rest.tail <:+ vs.tail) (hle : rest.length ≤ ts.length) :
    Placed stop (Reply.fail e rest hle : Reply α k ts).quiet := by
  refine ⟨fun a ha => (by cases ha), fun e' he' => ?_⟩
  cases he'
  exact .error hvs hpos hfound (fun _ => rfl) (.done hrest)

theorem fail_here {cause : SyntaxError.Cause} {rest : List Token} (hrest : rest <:+ ts)
    (hfound : ∀ f ∈ cause.found?, f = describe rest) (hle : rest.length ≤ ts.length) :
    Placed stop (Reply.fail ⟨cause, position stop rest⟩ rest hle : Reply α k ts).quiet :=
  of_fail hrest rfl hfound (List.suffix_refl _) hle

theorem behind {r : Traced α k ts} (h : Placed stop r) (t : Token) : Placed stop (r.behind t) := by
  have hts : ts <:+ t :: ts := List.suffix_cons t ts
  obtain ⟨es, reply⟩ := r
  cases reply with
  | ok a rest hle => exact ⟨fun b _ => (h.ok a rfl).mono hts, fun e he => by cases he⟩
  | fail e rest hle =>
    refine ⟨fun a ha => (by cases ha), fun e' he' => ?_⟩
    cases he'
    exact (h.error e rfl).mono hts

theorem loosen {r : Traced α k ts} (h : Placed stop r) : Placed stop r.loosen := by
  obtain ⟨es, reply⟩ := r
  cases reply <;> exact ⟨h.ok, h.error⟩

theorem map {r : Traced α k ts} (f : α → β) (h : Placed stop r) : Placed stop (r.map f) := by
  obtain ⟨es, reply⟩ := r
  cases reply with
  | ok a rest hle => exact ⟨fun b _ => h.ok a rfl, fun e he => by cases he⟩
  | fail e rest hle =>
    refine ⟨fun a ha => (by cases ha), fun e' he' => ?_⟩
    cases he'
    exact h.error e rfl

/-- One reader and then another. Where the first has noted errors and reads up to the end, the
second must not find any. -/
theorem andThen_noted {r : Traced α k ts}
    {g : (a : α) → (rest : List Token) → rest.length + k ≤ ts.length → Traced β j rest}
    (h : Placed stop r) (hg : ∀ a rest hle, Placed stop (g a rest hle))
    (hend : r.errors = [] ∨ ∀ a hle, (g a [] hle).errors = [] ∧
      ∃ b, (g a [] hle).reply.result = .ok b) : Placed stop (r.andThen g) := by
  obtain ⟨es, reply⟩ := r
  cases reply with
  | fail e rest hle =>
    refine ⟨fun a ha => (by cases ha), fun e' he' => ?_⟩
    cases he'
    exact h.error e rfl
  | ok a rest hle =>
    have hfirst : Meets stop ts es rest := h.ok a rfl
    have hsecond := hg a rest hle
    obtain ⟨hes, hresult, hrests⟩ := Traced.andThen_ok es a rest hle g
    refine ⟨fun b hb => ?_, fun e he => ?_⟩
    · rw [hes, hrests]
      rw [hresult] at hb
      rcases hend with rfl | hend
      · exact (hsecond.ok b hb).mono hfirst.suffix
      · refine hfirst.append (hsecond.ok b hb) ?_
        rintro rfl
        exact (hend a hle).1
    · rw [hes, hrests, List.append_assoc]
      rw [hresult] at he
      rcases hend with rfl | hend
      · exact (hsecond.error e he).mono hfirst.suffix
      · refine hfirst.append (hsecond.error e he) ?_
        rintro rfl
        obtain ⟨-, b, hb⟩ := hend a hle
        cases hb.symm.trans he

theorem andThen {r : Reply α k ts}
    {g : (a : α) → (rest : List Token) → rest.length + k ≤ ts.length → Traced β j rest}
    (h : Placed stop r.quiet) (hg : ∀ a rest hle, Placed stop (g a rest hle)) :
    Placed stop (r.quiet.andThen g) :=
  h.andThen_noted hg (.inl rfl)

end Traced.Placed

/-! ## Reading on one line -/

/-- The error stands in front of some of the tokens `ts`, and what is found after recovery is behind
the token there. -/
def PlacedError (stop : Position) (ts : List Token) (e : SyntaxError) (rest : List Token) : Prop :=
  ∃ vs, vs <:+ ts ∧ e.pos = position stop vs ∧ (∀ f ∈ e.cause.found?, f = describe vs) ∧
    rest.tail <:+ vs.tail

section line

variable {stop : Position} {ts : List Token}

/-- Followed along with itself, a reader leaves the end of its tokens and places its error. -/
theorem placed_companions (stop : Position) (ts : List Token) :
    Companions stop stop (fun us us' => us' = us ∧ us <:+ ts)
      (fun e rest _ _ => PlacedError stop ts e rest) where
  nil h := h.1
  cons h := ⟨_, _, h.1, rfl, rfl⟩
  tail h _ := by
    obtain ⟨heq, hsuffix⟩ := h
    exact ⟨(List.cons_eq_cons.mp heq).2, (List.suffix_cons _ _).trans hsuffix⟩
  error h hfound := ⟨_, h.2, rfl, by simp [hfound], List.suffix_refl _⟩
  behind {t t' us us'} h _ := by
    refine ⟨t :: us, h.2, rfl, ?_, List.tail_suffix us⟩
    simp [SyntaxError.Cause.found?]

theorem Traced.Placed.of_abreast {α : Type} {k : Nat} {r : Reply α k ts}
    (h : r.Abreast (fun us us' => us' = us ∧ us <:+ ts)
      (fun e rest _ _ => PlacedError stop ts e rest) r) : r.quiet.Placed stop := by
  cases r with
  | ok a rest hle => exact .of_ok h.2 hle
  | fail e rest hle =>
    obtain ⟨vs, hvs, hpos, hfound, hrest⟩ := h
    exact .of_fail hvs hpos hfound hrest hle

theorem expect_placed (kind : Kind) (what : SyntaxError.Wanted) :
    (expect stop kind what ts).quiet.Placed stop := by
  refine .of_abreast ((placed_companions stop ts).expect_of ?_ what ⟨rfl, List.suffix_refl ts⟩)
  rintro t t' us us' - ⟨heq, hsuffix⟩
  exact ⟨(List.cons_eq_cons.mp heq).2, (List.suffix_cons t us).trans hsuffix⟩

theorem endLine_placed : (endLine stop ts).quiet.Placed stop := by
  cases ts with
  | nil => exact .of_ok (List.suffix_refl _) _
  | cons t ts =>
    rw [endLine]
    split_ifs
    · exact .of_ok (List.suffix_cons t ts) _
    · exact .of_ok (List.suffix_refl _) _
    · exact .fail_here (List.suffix_refl _) (by simp [SyntaxError.Cause.found?]) _

theorem expression_placed (tier : Tier) : (expression stop tier ts).quiet.Placed stop :=
  .of_abreast ((placed_companions stop ts).expression tier ⟨rfl, List.suffix_refl ts⟩)

theorem arguments_placed (closes : Kind → Bool) : (arguments stop closes ts).quiet.Placed stop :=
  .of_abreast ((placed_companions stop ts).arguments closes ⟨rfl, List.suffix_refl ts⟩)

theorem parameters_placed : (parameters ts).quiet.Placed stop :=
  .of_abreast ((placed_companions stop ts).parameters ⟨rfl, List.suffix_refl ts⟩)

theorem binding_placed : (binding stop ts).quiet.Placed stop := by
  unfold binding
  simp only [Reply.quiet_andThen]
  refine .andThen (expect_placed _ _) fun name rest _ => ?_
  exact .andThen (expression_placed _) fun value rest _ => .map _ endLine_placed

theorem returnValue_placed : (returnValue stop ts).quiet.Placed stop := by
  unfold returnValue
  split_ifs
  · exact .of_ok (List.suffix_refl _) _
  · exact .loosen (.map _ (expression_placed _))

theorem expressionStatement_placed : (expressionStatement stop ts).quiet.Placed stop := by
  unfold expressionStatement
  simp only [Reply.quiet_andThen]
  exact .andThen (expression_placed _) fun e rest _ => .map _ endLine_placed

end line

/-! ## Statements -/

theorem synchronizeAfter_suffix (last : Token) (ts : List Token) :
    synchronizeAfter last ts <:+ ts := by
  fun_induction synchronizeAfter last ts with
  | case1 => exact List.suffix_refl _
  | case2 => exact List.suffix_refl _
  | case3 last t ts h ih => exact ih.trans (List.suffix_cons t ts)

theorem resume_suffix (ts : List Token) : resume ts <:+ ts.tail := by
  cases ts with
  | nil => exact List.suffix_refl _
  | cons t ts =>
    rw [resume]
    split_ifs with ht
    · have ht' : t.kind = .indent := by simpa [startsWith] using ht
      rw [skipOrphan, if_pos ht']
      exact (List.dropWhile_suffix _).trans (leaveBlock_suffix 0 ts)
    · exact (skipOrphan_suffix _).trans (synchronizeAfter_suffix t ts)

theorem errors_statements_nil {stop : Position} (inside : Bool) :
    (statements stop inside []).errors = [] := by
  rw [statements]

/-- The errors of some statements are met on the way through their tokens. -/
def Statements.Placed {ts : List Token} (stop : Position) (r : Statements ts) : Prop :=
  Meets stop ts r.errors r.rest

/-- The readers of statements place their errors, on tokens of a size below `n`. -/
structure StatementsPlaced (stop : Position) (n : Nat) : Prop where
  statement {ts : List Token} (hn : 2 * ts.length < n) : (statement stop ts).Placed stop
  condition {ts : List Token} (hn : 2 * ts.length < n) : (condition stop ts).Placed stop
  elseBranch {ts : List Token} (hn : 2 * ts.length + 1 < n) : (elseBranch stop ts).Placed stop
  blockBelow {what : SyntaxError.Wanted} {ts : List Token} (hn : 2 * ts.length < n) :
    (blockBelow stop what ts).Placed stop
  block {ts : List Token} (hn : 2 * ts.length < n) : (block stop ts).Placed stop
  statements {inside : Bool} {ts : List Token} (hn : 2 * ts.length + 1 < n) :
    (statements stop inside ts).Placed stop

namespace StatementsPlaced

variable {n : Nat} {stop : Position} {ts : List Token}

theorem statement_succ (ih : StatementsPlaced stop n) (hn : 2 * ts.length < n + 1) :
    (Grammar.statement stop ts).Placed stop := by
  cases ts with
  | nil =>
    rw [Grammar.statement]
    exact expressionStatement_placed
  | cons t ts =>
    rw [List.length_cons] at hn
    cases hopen : opensStatement t.kind with
    | false =>
      rw [statement_of_not_opens hopen]
      exact expressionStatement_placed
    | true =>
      rw [Grammar.statement.eq_def stop]
      simp only
      rcases opensStatement_cases hopen with ht | ht | ht | ht | ht | ht | ht | ht | ht <;>
        rw [ht] <;> simp only [Reply.quiet_map]
      · exact .behind (.map _ binding_placed) t
      · exact .behind (.map _ binding_placed) t
      · exact .behind (.map _ returnValue_placed) t
      · refine .behind (.andThen (expect_placed _ _) fun name rest₁ _ => ?_) t
        refine .andThen parameters_placed fun params rest₂ _ => ?_
        exact .map _ (ih.blockBelow (by omega))
      · exact .behind (ih.condition (by omega)) t
      · refine .behind (.andThen (expression_placed _) fun test rest₁ _ => ?_) t
        exact .map _ (ih.blockBelow (by omega))
      · exact .behind (.map _ endLine_placed) t
      · exact .behind (.map _ (arguments_placed _)) t
      · exact .fail_here (List.suffix_refl _) (by simp [SyntaxError.Cause.found?]) _

theorem condition_succ (ih : StatementsPlaced stop n) (hn : 2 * ts.length < n + 1) :
    (Grammar.condition stop ts).Placed stop := by
  rw [Grammar.condition.eq_def stop]
  refine .andThen (expression_placed _) fun test rest₁ _ => ?_
  refine .andThen_noted (ih.blockBelow (by omega)) (fun body rest₂ hle₂ => ?_)
    (.inr fun body hle₂ => ⟨rfl, _, rfl⟩)
  cases rest₂ with
  | nil => exact .of_ok (List.suffix_refl _) _
  | cons t rest₂ =>
    rw [List.length_cons] at hle₂
    simp only
    split_ifs
    · exact .loosen (.behind (.map _ (ih.elseBranch (by omega))) t)
    · exact .loosen (.behind (.map _ (ih.condition (by omega))) t)
    · exact .of_ok (List.suffix_refl _) _

theorem elseBranch_succ (ih : StatementsPlaced stop n) (hn : 2 * ts.length + 1 < n + 1) :
    (Grammar.elseBranch stop ts).Placed stop := by
  cases ts with
  | nil =>
    rw [Grammar.elseBranch]
    exact ih.blockBelow (by omega)
  | cons t ts =>
    rw [Grammar.elseBranch]
    split_ifs
    · rw [List.length_cons] at hn
      exact .behind (.map _ (ih.condition (by omega))) t
    · exact ih.blockBelow (by omega)

theorem blockBelow_succ (ih : StatementsPlaced stop n) {what : SyntaxError.Wanted}
    (hn : 2 * ts.length < n + 1) : (Grammar.blockBelow stop what ts).Placed stop := by
  rw [Grammar.blockBelow]
  exact .andThen (expect_placed _ _) fun _ rest _ => ih.block (by omega)

theorem block_succ (ih : StatementsPlaced stop n) (hn : 2 * ts.length < n + 1) :
    (Grammar.block stop ts).Placed stop := by
  have hlength := length_skipNewlines_le ts
  have hsuffix : skipNewlines ts <:+ ts := List.dropWhile_suffix _
  cases hts : skipNewlines ts with
  | nil =>
    rw [hts] at hsuffix
    obtain ⟨hle, hblock⟩ := block_nil stop hts
    rw [hblock]
    exact .fail_here hsuffix (by simp [SyntaxError.Cause.found?]) _
  | cons t rest =>
    rw [hts] at hsuffix hlength
    rw [List.length_cons] at hlength
    have hrest : rest <:+ ts := (List.suffix_cons t rest).trans hsuffix
    by_cases ht : t.kind = .indent
    · have hbody : (Grammar.statements stop true rest).Placed stop := ih.statements (by omega)
      obtain ⟨hle, hblock⟩ := block_indent stop hts ht
      rw [hblock]
      refine ⟨fun a _ => ?_, fun e he => by cases he⟩
      exact (Meets.mono hbody hrest).weaken (List.tail_suffix _)
    · obtain ⟨hle, hblock⟩ := block_other stop hts ht
      rw [hblock]
      exact .fail_here hsuffix (by simp [SyntaxError.Cause.found?, describe]) _

theorem statements_succ (ih : StatementsPlaced stop n) {inside : Bool}
    (hn : 2 * ts.length + 1 < n + 1) : (Grammar.statements stop inside ts).Placed stop := by
  cases ts with
  | nil =>
    rw [Grammar.statements]
    exact .done (List.suffix_refl _)
  | cons t ts =>
    rw [Grammar.statements.eq_def stop]
    simp only
    split_ifs
    · exact .done (List.suffix_refl _)
    · have hfirst : (Grammar.statement stop (t :: ts)).Placed stop := ih.statement (by omega)
      rw [List.length_cons] at hn
      generalize Grammar.statement stop (t :: ts) = r at hfirst
      obtain ⟨es, reply⟩ := r
      cases reply with
      | ok s rest hle =>
        rw [List.length_cons] at hle
        have hskipped := length_skipNewlines_le rest
        have hmore : (Grammar.statements stop inside (skipNewlines rest)).Placed stop :=
          ih.statements (by omega)
        have hskip : skipNewlines rest <:+ rest := List.dropWhile_suffix _
        refine (hfirst.ok s rfl).append (hmore.mono hskip) ?_
        rintro rfl
        exact errors_statements_nil inside
      | fail e rest hle =>
        rw [List.length_cons] at hle
        have hresumed := length_resume_le rest
        have hmore : (Grammar.statements stop inside (resume rest)).Placed stop :=
          ih.statements (by omega)
        have hend : rest.tail = [] →
            (Grammar.statements stop inside (resume rest)).errors = [] := by
          intro htail
          have hnil := resume_suffix rest
          rw [htail, List.suffix_nil] at hnil
          rw [hnil]
          exact errors_statements_nil inside
        have hmeets := (hfirst.error e rfl).append (hmore.mono (resume_suffix rest)) hend
        rwa [List.append_assoc, List.singleton_append] at hmeets

end StatementsPlaced

theorem statementsPlaced (stop : Position) (n : Nat) : StatementsPlaced stop n := by
  induction n with
  | zero => constructor <;> intros <;> omega
  | succ n ih =>
    exact ⟨ih.statement_succ, ih.condition_succ, ih.elseBranch_succ, ih.blockBelow_succ,
      ih.block_succ, ih.statements_succ⟩

end Grammar

open Grammar

/-- The errors of a token list are met on the way through its tokens that are no comments and before
the end of the input. -/
theorem meets_of_parse {tokens : List Token} {es : List SyntaxError}
    (h : parse tokens = .error es) :
    es ≠ [] ∧ ∃ rest, Meets (endPosition (tokens.filter (·.kind != .comment)))
      ((tokens.filter (·.kind != .comment)).takeWhile Token.isInside) es rest := by
  unfold parse at h
  simp only at h
  generalize tokens.filter (·.kind != .comment) = ts at h
  have hplaced : (statements (endPosition ts) false
      (skipNewlines (ts.takeWhile Token.isInside))).Placed (endPosition ts) :=
    (statementsPlaced _ _).statements (Nat.lt_succ_self _)
  split at h
  · cases h
  · rename_i hne
    cases h
    exact ⟨hne, _, hplaced.mono (List.dropWhile_suffix _)⟩

theorem names_of_parse {tokens : List Token} {es : List SyntaxError}
    (h : parse tokens = .error es) :
    ∀ e ∈ es, Names (endPosition (tokens.filter (·.kind != .comment)))
      ((tokens.filter (·.kind != .comment)).takeWhile Token.isInside) e := by
  obtain ⟨-, rest, hmeets⟩ := meets_of_parse h
  exact hmeets.names

end Offside
