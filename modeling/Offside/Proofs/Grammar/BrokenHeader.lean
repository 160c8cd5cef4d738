import Offside.Proofs.Grammar.Orphans

/-!
# One header without its test

A program is read with a token in place of the test of one header, where no expression begins with
that token. The statement that the header is in fails at the token, and the block below is passed
over. If the header is that of a condition, the branches behind the block are errors too
(`headerErrors`). All other statements are read as before, whatever blocks the header is in
(`spelled_broken`).

`Splits` takes the tokens of a clause apart at any of its headers; this is how the induction over
spellings finds the place.
-/

namespace Offside.Grammar

/-! ## Headers -/

def opensTest : Kind → Bool
  | .keyword .ifStmt | .keyword .elsifStmt | .keyword .whileStmt => true
  | _ => false

/-- The tokens `w` can be taken apart at each header in them, behind the newline `n` that ends the
header: `Q` holds of the tokens before, of the word of the header, and of the tokens behind. -/
def Splits (w : List Token) (Q : List Token → Token → List Token → Prop) : Prop :=
  ∀ us h r, w = us ++ h :: r → opensTest h.kind = true →
    ∃ x n vs, r = x ++ n :: vs ∧ (∀ t ∈ x, t.kind ≠ .newline) ∧ n.kind = .newline ∧ Q us h vs

namespace Splits

variable {w u v : List Token} {Q Q' Q'' : List Token → Token → List Token → Prop}

theorem of_none (hw : ∀ t ∈ w, opensTest t.kind = false) : Splits w Q := by
  rintro us h r rfl hh
  rw [hw h (by simp)] at hh
  cases hh

theorem append (hu : Splits u Q') (hv : Splits v Q'')
    (hQ' : ∀ us t r vs, u = us ++ t :: r → opensTest t.kind = true → Q' us t vs → Q us t (vs ++ v))
    (hQ'' : ∀ us t r vs, v = us ++ t :: r → opensTest t.kind = true → Q'' us t vs →
      Q (u ++ us) t vs) : Splits (u ++ v) Q := by
  intro us t r hw ht
  have hfront : ∀ r', u = us ++ t :: r' → r = r' ++ v → ∃ x n vs, r = x ++ n :: vs ∧
      (∀ t ∈ x, t.kind ≠ .newline) ∧ n.kind = .newline ∧ Q us t vs := by
    rintro r' hu' rfl
    obtain ⟨x, n, vs, rfl, hx, hn, hq⟩ := hu us t r' hu' ht
    exact ⟨x, n, vs ++ v, by simp, hx, hn, hQ' us t _ vs hu' ht hq⟩
  have hback : ∀ us', us = u ++ us' → v = us' ++ t :: r → ∃ x n vs, r = x ++ n :: vs ∧
      (∀ t ∈ x, t.kind ≠ .newline) ∧ n.kind = .newline ∧ Q us t vs := by
    rintro us' rfl hv'
    obtain ⟨x, n, vs, hr, hx, hn, hq⟩ := hv us' t r hv' ht
    exact ⟨x, n, vs, hr, hx, hn, hQ'' us' t r vs hv' ht hq⟩
  rcases List.append_eq_append_iff.mp hw with ⟨us', hus, hv'⟩ | ⟨r', hu', hr⟩
  · exact hback us' hus hv'
  · cases r' with
    | nil => exact hback [] (by simpa using hu'.symm) hr.symm
    | cons t' r' =>
      obtain ⟨rfl, hrest⟩ := List.cons_eq_cons.mp hr
      exact hfront r' hu' hrest

theorem cons {t : Token} (hw : Splits w Q')
    (ht : opensTest t.kind = true → ∃ x n vs, w = x ++ n :: vs ∧ (∀ t ∈ x, t.kind ≠ .newline) ∧
      n.kind = .newline ∧ Q [] t vs)
    (hQ' : ∀ us u r vs, w = us ++ u :: r → opensTest u.kind = true → Q' us u vs →
      Q (t :: us) u vs) : Splits (t :: w) Q := by
  rintro us u r heq hu
  cases us with
  | nil =>
    obtain ⟨rfl, rfl⟩ := List.cons_eq_cons.mp heq
    exact ht hu
  | cons t' us =>
    obtain ⟨rfl, rfl⟩ := List.cons_eq_cons.mp heq
    obtain ⟨x, n, vs, hr, hx, hn, hq⟩ := hw us u r rfl hu
    exact ⟨x, n, vs, hr, hx, hn, hQ' us u r vs rfl hu hq⟩

end Splits

/-! ## Blocks and branches with errors in them -/

section ends

variable {stop : Position} {ts r₁ r₂ rest : List Token} {es es' : List SyntaxError}
  {failure : Option SyntaxError} {t : Token}

theorem Reads.ends {tier : Tier} {e : Expr} (h : Reads (.expr tier e) ts rest) :
    (expression stop tier ts).quiet.Ends [] none rest :=
  (Traced.gives_quiet.mpr (gives_expression.mpr h)).ends

theorem test_ends (ht : opensExpression t.kind = false) :
    (expression stop .conditional (t :: ts)).quiet.Ends [] (some (missing t)) (t :: ts) := by
  rw [expression_of_not_opens ht]
  exact ⟨rfl, rfl, rfl⟩

theorem leads_end_iff {inside : Bool} (hend : StatementsEnd inside rest) :
    Leads stop inside ts es rest ↔
      (statements stop inside ts).errors = es ∧ (statements stop inside ts).rest = rest := by
  have hgives : (statements stop inside rest).Gives [] rest :=
    (gives_statements_end hend).mpr ⟨rfl, rfl⟩
  unfold Leads
  rw [hgives.1, hgives.2.2, List.append_nil]

theorem block_ends {n : List Token} {i d : Token} (hn : Newlines n) (hi : i.kind = .indent)
    (hd : d.kind = .dedent) (h : Leads stop true ts es (d :: rest)) :
    (block stop (n ++ i :: ts)).Ends es none rest := by
  have hskip : skipNewlines (n ++ i :: ts) = i :: ts := by
    rw [skipNewlines_append hn, skipNewlines_of_ahead (by simp [hi])]
  obtain ⟨hes, hrest⟩ := (leads_end_iff (ahead_cons.mpr ⟨rfl, hd⟩)).mp h
  rw [block]
  split
  · rename_i hnil
    rw [hskip] at hnil
    cases hnil
  · rename_i t' r hcons
    rw [hskip] at hcons
    cases hcons
    rw [if_pos hi]
    split
    · rename_i hstatements
      rw [hstatements] at hrest
      cases hrest
    · rename_i hstatements
      rw [hstatements] at hes hrest
      cases hrest
      exact ⟨hes, rfl, rfl⟩

theorem blockBelow_ends {what : SyntaxError.Wanted} {n : List Token} {i d : Token}
    (ht : t.kind = .newline) (hn : Newlines n) (hi : i.kind = .indent) (hd : d.kind = .dedent)
    (h : Leads stop true ts es (d :: rest)) :
    (blockBelow stop what (t :: (n ++ i :: ts))).Ends es none rest := by
  have hexpect : (expect stop .newline what (t :: (n ++ i :: ts))).quiet.Ends [] none
      (n ++ i :: ts) :=
    (Traced.gives_quiet.mpr (gives_expect.mpr ⟨rfl, ht⟩)).ends
  rw [blockBelow]
  exact hexpect.andThen fun _ _ => block_ends hn hi hd h

theorem condition_ends {test : Expr} (htest : Reads (.expr .conditional test) ts r₁)
    (hb : (blockBelow stop .newlineAfterCondition r₁).Ends es none rest)
    (hrest : Ahead EndsCondition rest) : (condition stop ts).Ends es none rest := by
  rw [condition]
  refine htest.ends.andThen fun _ _ => ?_
  rw [← List.append_nil es]
  refine hb.andThen fun _ _ => ?_
  cases rest with
  | nil => exact ⟨rfl, rfl, rfl⟩
  | cons t rest =>
    obtain ⟨helse, helsif⟩ := ahead_cons.mp hrest
    simp only [if_neg helse, if_neg helsif]
    exact ⟨rfl, rfl, rfl⟩

theorem condition_ends_else {test : Expr} (htest : Reads (.expr .conditional test) ts r₁)
    (hb : (blockBelow stop .newlineAfterCondition r₁).Ends es none (t :: r₂))
    (ht : t.kind = .keyword .elseStmt) (ho : (elseBranch stop r₂).Ends es' failure rest) :
    (condition stop ts).Ends (es ++ es') failure rest := by
  rw [condition]
  refine htest.ends.andThen fun _ _ => hb.andThen fun _ _ => ?_
  simp only [if_pos ht]
  exact Traced.ends_loosen (Traced.ends_behind (Traced.ends_map ho))

theorem condition_ends_elsif {test : Expr} (htest : Reads (.expr .conditional test) ts r₁)
    (hb : (blockBelow stop .newlineAfterCondition r₁).Ends es none (t :: r₂))
    (ht : t.kind = .keyword .elsifStmt) (ho : (condition stop r₂).Ends es' failure rest) :
    (condition stop ts).Ends (es ++ es') failure rest := by
  have helse : t.kind ≠ .keyword .elseStmt := by simp [ht]
  rw [condition]
  refine htest.ends.andThen fun _ _ => hb.andThen fun _ _ => ?_
  simp only [if_neg helse, if_pos ht]
  exact Traced.ends_loosen (Traced.ends_behind (Traced.ends_map ho))

theorem condition_unopened (ht : opensExpression t.kind = false) :
    (condition stop (t :: ts)).Ends [] (some (missing t)) (t :: ts) := by
  rw [condition]
  exact (test_ends ht).andThen_failure

theorem elseBranch_ends_if (ht : t.kind = .keyword .ifStmt)
    (h : (condition stop ts).Ends es failure rest) :
    (elseBranch stop (t :: ts)).Ends es failure rest := by
  rw [elseBranch, if_pos ht]
  exact Traced.ends_behind (Traced.ends_map h)

theorem elseBranch_ends_block (hts : Ahead (· ≠ .keyword .ifStmt) ts)
    (h : (blockBelow stop .newlineAfterElse ts).Ends es failure rest) :
    (elseBranch stop ts).Ends es failure rest := by
  cases ts with
  | nil =>
    rw [elseBranch]
    exact h
  | cons t ts =>
    rw [elseBranch, if_neg (ahead_cons.mp hts)]
    exact h

theorem statement_ends_if (ht : t.kind = .keyword .ifStmt)
    (h : (condition stop ts).Ends es failure rest) :
    (statement stop (t :: ts)).Ends es failure rest := by
  rw [statement, ht]
  exact Traced.ends_behind h

theorem statement_ends_while {test : Expr} (ht : t.kind = .keyword .whileStmt)
    (htest : Reads (.expr .conditional test) ts r₁)
    (hb : (blockBelow stop .newlineAfterCondition r₁).Ends es failure rest) :
    (statement stop (t :: ts)).Ends es failure rest := by
  rw [statement, ht]
  exact Traced.ends_behind (htest.ends.andThen fun _ _ => Traced.ends_map hb)

theorem while_unopened {p : Token} (ht : t.kind = .keyword .whileStmt)
    (hp : opensExpression p.kind = false) :
    (statement stop (t :: p :: ts)).Ends [] (some (missing p)) (p :: ts) := by
  rw [statement, ht]
  exact Traced.ends_behind (test_ends hp).andThen_failure

theorem statement_ends_definition {n : Token} {params : List Token}
    (ht : t.kind = .keyword .defStmt) (hn : n.kind = .command)
    (hps : ∀ p ∈ params, p.kind = .identifier) (hts : Ahead (· ≠ .identifier) ts)
    (hb : (blockBelow stop .newlineAfterParameters ts).Ends es failure rest) :
    (statement stop (t :: n :: (params ++ ts))).Ends es failure rest := by
  have hname : (expect stop .command .commandName (n :: (params ++ ts))).quiet.Ends [] none
      (params ++ ts) :=
    (Traced.gives_quiet.mpr (gives_expect.mpr ⟨rfl, hn⟩)).ends
  have hparams : (parameters (params ++ ts)).quiet.Ends [] none ts :=
    (Traced.gives_quiet.mpr (gives_parameters.mpr ⟨params, rfl, rfl, hps, hts⟩)).ends
  rw [statement, ht]
  exact Traced.ends_behind
    (hname.andThen fun _ _ => hparams.andThen fun _ _ => Traced.ends_map hb)

end ends

/-! ## The errors of a broken header -/

/-- The branches that are lost with the header that the word `h` begins. -/
def lostWords (h : Token) (ts : List Token) : List Token :=
  if h.kind = .keyword .whileStmt then [] else branchWords 0 ts

/-- The errors where the token `p` is in place of the test behind `h`, and `ts` follows. -/
def headerErrors (h p : Token) (ts : List Token) : List SyntaxError :=
  missing p :: (lostWords h ts).map missing

/-- A reply to tokens with a broken header: reading has gone on inside, or it fails at the token `p`
and goes on behind what is lost. -/
def Spoils {α : Type} {k : Nat} {ts : List Token} (stop : Position) (h p m : Token)
    (vs rest : List Token) (r : Traced α k ts) : Prop :=
  r.Ends (headerErrors h p (vs ++ rest)) none rest ∨
    r.Ends [] (some (missing p)) (p :: m :: (vs ++ rest)) ∧
      ∀ inside, Leads stop inside (resume (p :: m :: (vs ++ rest)))
        ((lostWords h (vs ++ rest)).map missing) (skipNewlines rest)

section spoils

variable {α β : Type} {j k : Nat} {ts ts' : List Token} {stop : Position} {h p m : Token}
  {vs rest : List Token}

theorem Spoils.lift {r : Traced α k ts} {r' : Traced β j ts'} (hr : Spoils stop h p m vs rest r)
    (hlift : ∀ es failure rest, r.Ends es failure rest → r'.Ends es failure rest) :
    Spoils stop h p m vs rest r' := by
  rcases hr with hr | ⟨hr, hlost⟩
  · exact .inl (hlift _ _ _ hr)
  · exact .inr ⟨hlift _ _ _ hr, hlost⟩

theorem Spoils.leads {t : Token} (ht : t.kind ≠ .dedent) {inside : Bool}
    (hr : Spoils stop h p m vs rest (statement stop (t :: ts))) :
    Leads stop inside (t :: ts) (headerErrors h p (vs ++ rest)) (skipNewlines rest) := by
  rcases hr with hr | ⟨hr, hlost⟩
  · exact Leads.of_ok ht hr
  · exact (Leads.of_failure ht hr).trans (hlost inside)

end spoils

/-! ## Clauses with a broken header -/

section hole

variable {us r : List Token} {h : Token}

theorem ahead_hole {P : Kind → Prop} (ha : Ahead P (us ++ h :: r)) (r' : List Token) :
    Ahead P (us ++ h :: r') := by
  cases us with
  | nil => exact ahead_cons.mpr (ahead_cons.mp ha)
  | cons u us => exact ahead_cons.mpr (ahead_cons.mp ha)

theorem follows_hole {s : Stmt} (hs : Follows s (us ++ h :: r)) (r' : List Token) :
    Follows s (us ++ h :: r') := by
  unfold Follows at hs ⊢
  cases s with
  | condition | loop | definition => trivial
  | ret pos value =>
    cases value with
    | none => exact ahead_hole (P := (endsArguments · = true)) hs r'
    | some e => exact ahead_hole (P := (joins? · = none)) hs r'
  | init | set | expression | body | pass => exact ahead_hole (P := (endsArguments · = true)) hs r'

theorem reads_hole {test : Expr} {body : List Stmt} {closed : Bool} {u : List Token}
    (hf : test.fits = true) (hu : (Phrase.expr test).Spelled u)
    (hv : (Clause.block body).Spelled closed (us ++ h :: r)) (r' : List Token) :
    Reads (.expr .conditional test) (u ++ (us ++ h :: r')) (us ++ h :: r') := by
  obtain ⟨n, v, heq, hn⟩ := spelled_block_opens hv
  have hline : Ahead (endsArguments · = true) (us ++ h :: r) := by
    rw [heq]
    exact ahead_cons.mpr (by rw [hn]; rfl)
  exact reads_of_endsArguments hf hu (ahead_hole hline r')

theorem skipNewlines_hole {ps : List Stmt} {closed : Bool}
    (hv : (Clause.statements ps).Spelled closed (us ++ h :: r)) (r' : List Token) :
    skipNewlines (us ++ h :: r') = us ++ h :: r' := by
  have hend : StatementsEnd false [] := ahead_nil _
  have hline : Ahead (· ≠ .newline) ((us ++ h :: r) ++ []) :=
    ahead_statements hv hend (fun _ _ _ hk => hk.ne_newline) (by simp)
  rw [List.append_nil] at hline
  exact skipNewlines_of_ahead (ahead_hole hline r')

end hole

/-- What becomes of a clause where the token `p` is in place of a test and the newline `m` ends its
line. -/
def Broken (stop : Position) (p m : Token) : Clause → List Token → Prop
  | .statement s, w => s.fits = true → Splits w fun us h vs => ∀ inside rest,
      Follows s rest → Ahead EndsCondition rest →
      Leads stop inside (us ++ h :: p :: m :: (vs ++ rest)) (headerErrors h p (vs ++ rest))
        (skipNewlines rest)
  | .condition s, w => s.fits = true → Splits w fun us h vs => ∀ rest, Ahead EndsCondition rest →
      Spoils stop h p m vs rest (condition stop (us ++ h :: p :: m :: (vs ++ rest)))
  | .block body, w => fitBody body = true → Splits w fun us h vs => ∀ what rest,
      (blockBelow stop what (us ++ h :: p :: m :: (vs ++ rest))).Ends
        (headerErrors h p (vs ++ rest)) none rest
  | .statements ps, w => fitBody ps = true → Splits w fun us h vs => ∀ inside rest,
      StatementsEnd inside rest →
      Leads stop inside (us ++ h :: p :: m :: (vs ++ rest)) (headerErrors h p (vs ++ rest)) rest

section broken

variable {stop : Position} {p m t : Token} {u v w : List Token}

/-- The test of the condition itself is broken. -/
theorem condition_spoils (stop : Position) {s : Stmt} (hw : (Clause.condition s).Spelled true w)
    (hf : s.fits = true) (hcompact : Compact w) (hp : opensExpression p.kind = false)
    (hpk : p.kind ≠ .newline ∧ p.kind ≠ .indent) (hm : m.kind = .newline) :
    ∃ x n vs, w = x ++ n :: vs ∧ (∀ t ∈ x, t.kind ≠ .newline) ∧ n.kind = .newline ∧
      ∀ h rest, h.kind ≠ .keyword .whileStmt → Ahead EndsCondition rest →
        Spoils stop h p m vs rest (condition stop (p :: m :: (vs ++ rest))) := by
  obtain ⟨test, x, n, vs, rfl, hx, hn, hleads⟩ := leads_branches stop hw rfl hf hcompact
  refine ⟨x, n, vs, rfl, fun t ht => (passed_of_spelled hx t ht).1, hn, fun h rest hh hrest => ?_⟩
  refine .inr ⟨condition_unopened hp, fun inside => ?_⟩
  have hresume : resume (p :: m :: (vs ++ rest)) = skipOrphan (vs ++ rest) :=
    resume_line (y := []) hpk (by simp) hm _
  rw [hresume, lostWords, if_neg hh]
  exact hleads inside rest hrest

theorem not_opensTest_of_inPhrase {k : Kind} (h : k.inPhrase = true) : opensTest k = false := by
  unfold opensTest
  split
  all_goals first | rfl | cases h

theorem phrase_not_opensTest {ph : Phrase} (h : ph.Spelled w) :
    ∀ t ∈ w, opensTest t.kind = false :=
  fun t ht => not_opensTest_of_inPhrase (h.inPhrase t ht)

theorem cons_not_opensTest {k : Kind} (ht : t.kind = k) (hk : opensTest k = false)
    (hw : ∀ t ∈ w, opensTest t.kind = false) : ∀ u ∈ t :: w, opensTest u.kind = false :=
  List.forall_mem_cons.mpr ⟨by rw [ht, hk], hw⟩

theorem Splits.of_phrase {ph : Phrase} {Q : List Token → Token → List Token → Prop}
    (h : ph.Spelled w) : Splits w Q :=
  .of_none (phrase_not_opensTest h)

theorem Splits.of_newlines {Q : List Token → Token → List Token → Prop} (h : Newlines w) :
    Splits w Q :=
  .of_none fun t ht => by rw [h t ht]; rfl

theorem definition_broken {n : Token} {params : List Token} {body : List Stmt} {closed : Bool}
    (ht : t.kind = .keyword .defStmt) (hn : n.kind = .command)
    (hps : ∀ p ∈ params, p.kind = .identifier) (hb : (Clause.block body).Spelled closed w)
    (ih : Broken stop p m (.block body) w) :
    Broken stop p m (.statement (.definition (nameOf n) (params.map nameOf) body))
      (t :: n :: params ++ w) := by
  intro hf
  have hnone : Splits (t :: n :: params) fun _ _ _ => False :=
    .of_none (cons_not_opensTest ht rfl (cons_not_opensTest hn rfl fun q hq => by
      rw [hps q hq]
      rfl))
  refine hnone.append (ih hf) (fun _ _ _ _ _ _ hfalse => hfalse.elim) ?_
  intro us h r vs hw _ hends inside rest _ _
  have hnot : Ahead (· ≠ .identifier) (us ++ h :: r) := by
    obtain ⟨n', w', heq, hn'⟩ := spelled_block_opens hb
    rw [← hw, heq]
    simp [hn']
  have hstatement := statement_ends_definition ht hn hps (ahead_hole hnot _) (hends _ rest)
  have happend : t :: n :: params ++ us ++ h :: p :: m :: (vs ++ rest) =
      t :: n :: (params ++ (us ++ h :: p :: m :: (vs ++ rest))) := by simp
  rw [happend]
  exact Leads.of_ok (by simp [ht]) hstatement

theorem loop_broken {test : Expr} {body : List Stmt} (ht : t.kind = .keyword .whileStmt)
    (hu : (Phrase.expr test).Spelled u) (hb : (Clause.block body).Spelled true v)
    (hcompact : Compact v) (hp : opensExpression p.kind = false)
    (hpk : p.kind ≠ .newline ∧ p.kind ≠ .indent) (hm : m.kind = .newline)
    (ih : Broken stop p m (.block body) v) :
    Broken stop p m (.statement (.loop test body)) (t :: u ++ v) := by
  intro hf
  simp only [Stmt.fits, Bool.and_eq_true] at hf
  have hrest : Splits (u ++ v) fun us h vs => ∀ inside rest,
      Leads stop inside (t :: (us ++ h :: p :: m :: (vs ++ rest))) (headerErrors h p (vs ++ rest))
        (skipNewlines rest) := by
    refine (Splits.of_phrase (Q := fun _ _ _ => False) hu).append (ih hf.2)
      (fun _ _ _ _ _ _ hfalse => hfalse.elim) ?_
    intro us h r vs hv _ hends inside rest
    rw [List.append_assoc]
    exact Leads.of_ok (by simp [ht])
      (statement_ends_while ht (reads_hole hf.1 hu (hv ▸ hb) _) (hends _ rest))
  refine hrest.cons (fun _ => ?_) fun us h r vs _ _ hleads inside rest _ _ => hleads inside rest
  -- the loop itself has lost its test
  obtain ⟨n, vs, rfl, hn, hbehind⟩ := block_behind hb hcompact
  refine ⟨u, n, vs, rfl, fun t ht => (passed_of_spelled hu t ht).1, hn, fun inside rest _ _ => ?_⟩
  have hresume : resume (p :: m :: (vs ++ rest)) = skipNewlines rest := by
    rw [← (hbehind rest).1]
    exact resume_line (y := []) hpk (by simp) hm _
  rw [headerErrors, lostWords, if_pos ht, ← hresume]
  exact Leads.of_failure (by simp [ht]) (while_unopened ht hp)

theorem if_broken {s : Stmt} (ht : t.kind = .keyword .ifStmt)
    (hw : (Clause.condition s).Spelled true w) (hcompact : Compact w)
    (hp : opensExpression p.kind = false) (hpk : p.kind ≠ .newline ∧ p.kind ≠ .indent)
    (hm : m.kind = .newline) (ih : Broken stop p m (.condition s) w) :
    Broken stop p m (.statement s) (t :: w) := by
  intro hf
  refine (ih hf).cons (fun _ => ?_) fun us h r vs _ _ hspoils inside rest _ hrest => ?_
  · obtain ⟨x, n, vs, hx, hnot, hn, hspoils⟩ :=
      condition_spoils stop hw hf hcompact hp hpk hm
    refine ⟨x, n, vs, hx, hnot, hn, fun inside rest _ hrest => ?_⟩
    exact ((hspoils t rest (by simp [ht]) hrest).lift fun _ _ _ => statement_ends_if ht).leads
      (by simp [ht])
  · exact ((hspoils rest hrest).lift fun _ _ _ => statement_ends_if ht).leads (by simp [ht])

section condition

variable {test : Expr} {body : List Stmt}

theorem noElse_broken (hu : (Phrase.expr test).Spelled u)
    (hb : (Clause.block body).Spelled true v) (ih : Broken stop p m (.block body) v) :
    Broken stop p m (.condition (.condition test body none)) (u ++ v) := by
  intro hf
  simp only [Stmt.fits, Bool.and_eq_true] at hf
  refine (Splits.of_phrase (Q := fun _ _ _ => False) hu).append (ih hf.2)
    (fun _ _ _ _ _ _ hfalse => hfalse.elim) ?_
  intro us h r vs hv _ hends rest hrest
  rw [List.append_assoc]
  exact .inl (condition_ends (reads_hole hf.1 hu (hv ▸ hb) _) (hends _ rest) hrest)

variable (hf : test.fits = true ∧ fitBody body = true) (hu : (Phrase.expr test).Spelled u)
  (hb : (Clause.block body).Spelled true v)

include hf hu hb

/-- A header is broken in the block of a condition that has the branch `w`, or in this branch. -/
theorem branch_splits (ih : Broken stop p m (.block body) v)
    (hbranch : ∀ rest, Ahead EndsCondition rest → ∀ ts r₁ es,
      Reads (.expr .conditional test) ts r₁ →
      (blockBelow stop .newlineAfterCondition r₁).Ends es none (w ++ rest) →
      (condition stop ts).Ends es none rest)
    (hw : Splits w fun us h vs => ∀ rest, Ahead EndsCondition rest →
      Spoils stop h p m vs rest
        (condition stop (u ++ (v ++ (us ++ h :: p :: m :: (vs ++ rest)))))) :
    Splits (u ++ v ++ w) fun us h vs => ∀ rest, Ahead EndsCondition rest →
      Spoils stop h p m vs rest (condition stop (us ++ h :: p :: m :: (vs ++ rest))) := by
  have hthen : Splits (u ++ v) fun us h vs => ∀ rest, Ahead EndsCondition rest →
      Spoils stop h p m (vs ++ w) rest
        (condition stop (us ++ h :: p :: m :: ((vs ++ w) ++ rest))) := by
    refine (Splits.of_phrase (Q := fun _ _ _ => False) hu).append (ih hf.2)
      (fun _ _ _ _ _ _ hfalse => hfalse.elim) ?_
    intro us h r vs hv _ hends rest hrest
    have happend : vs ++ w ++ rest = vs ++ (w ++ rest) := List.append_assoc ..
    rw [List.append_assoc, Spoils, happend]
    exact .inl (hbranch rest hrest _ _ _ (reads_hole hf.1 hu (hv ▸ hb) _) (hends _ (w ++ rest)))
  refine hthen.append hw (fun us h r vs _ _ hspoils => hspoils) ?_
  intro us h r vs _ _ hspoils rest hrest
  rw [List.append_assoc, List.append_assoc]
  exact hspoils rest hrest

variable {ts rest : List Token} {es : List SyntaxError} {failure : Option SyntaxError}

theorem thenBlock_else_ends (ht : t.kind = .keyword .elseStmt)
    (ho : (elseBranch stop ts).Ends es failure rest) :
    (condition stop (u ++ (v ++ t :: ts))).Ends es failure rest :=
  condition_ends_else (reads_header hf.1 hu hb)
    (spelled_readBack hb hf.2 _ (t :: ts) (by simp)).ends ht ho

theorem thenBlock_elsif_ends (ht : t.kind = .keyword .elsifStmt)
    (ho : (condition stop ts).Ends es failure rest) :
    (condition stop (u ++ (v ++ t :: ts))).Ends es failure rest :=
  condition_ends_elsif (reads_header hf.1 hu hb)
    (spelled_readBack hb hf.2 _ (t :: ts) (by simp)).ends ht ho

end condition

theorem withElse_broken {test : Expr} {body other : List Stmt} (hu : (Phrase.expr test).Spelled u)
    (hb : (Clause.block body).Spelled true v) (ht : t.kind = .keyword .elseStmt)
    (ho : (Clause.block other).Spelled true w) (ihb : Broken stop p m (.block body) v)
    (iho : Broken stop p m (.block other) w) :
    Broken stop p m (.condition (.condition test body (some other))) (u ++ v ++ t :: w) := by
  intro hf
  simp only [Stmt.fits, Bool.and_eq_true] at hf
  have hahead : ∀ rest, Ahead (· ≠ .keyword .ifStmt) (w ++ rest) := by
    obtain ⟨n, w', rfl, hn⟩ := spelled_block_opens ho
    simp [hn]
  have helse : Splits (t :: w) fun us h vs => ∀ rest, Ahead EndsCondition rest →
      Spoils stop h p m vs rest
        (condition stop (u ++ (v ++ (us ++ h :: p :: m :: (vs ++ rest))))) := by
    refine (iho hf.2).cons (fun htest => by simp [ht, opensTest] at htest) ?_
    intro us h r vs hw _ hends rest _
    have hhole := hahead []
    rw [List.append_nil, hw] at hhole
    exact .inl (thenBlock_else_ends hf.1 hu hb ht
      (elseBranch_ends_block (ahead_hole hhole _) (hends _ rest)))
  refine branch_splits hf.1 hu hb ihb (fun rest hrest ts r₁ es hreads hends => ?_) helse
  have hother : (elseBranch stop (w ++ rest)).Ends [] none rest :=
    elseBranch_ends_block (hahead rest) (spelled_readBack ho hf.2 _ rest (by simp)).ends
  have hcondition := condition_ends_else hreads hends ht hother
  rwa [List.append_nil] at hcondition

theorem elseIf_broken {t' : Token} {test : Expr} {body : List Stmt} {s : Stmt}
    (hu : (Phrase.expr test).Spelled u) (hb : (Clause.block body).Spelled true v)
    (ht : t.kind = .keyword .elseStmt) (ht' : t'.kind = .keyword .ifStmt)
    (hs : (Clause.condition s).Spelled true w) (hcompact : Compact w)
    (hp : opensExpression p.kind = false) (hpk : p.kind ≠ .newline ∧ p.kind ≠ .indent)
    (hm : m.kind = .newline) (ihb : Broken stop p m (.block body) v)
    (ihs : Broken stop p m (.condition s) w) :
    Broken stop p m (.condition (.condition test body (some [s]))) (u ++ v ++ t :: t' :: w) := by
  intro hf
  simp only [Stmt.fits, fitBody, Bool.and_true, Bool.and_eq_true] at hf
  have hlift : ∀ {us vs rest : List Token} {h : Token},
      Spoils stop h p m vs rest (condition stop us) →
      Spoils stop h p m vs rest (condition stop (u ++ (v ++ t :: t' :: us))) := fun hspoils =>
    hspoils.lift fun _ _ _ hends =>
      thenBlock_else_ends hf.1 hu hb ht (elseBranch_ends_if ht' hends)
  have helse : Splits (t' :: w) fun us h vs => ∀ rest, Ahead EndsCondition rest →
      Spoils stop h p m vs rest
        (condition stop (u ++ (v ++ t :: (us ++ h :: p :: m :: (vs ++ rest))))) := by
    refine (ihs hf.2).cons (fun _ => ?_) fun us h r vs _ _ hspoils rest hrest =>
      hlift (hspoils rest hrest)
    obtain ⟨x, n, vs, hx, hnot, hn, hspoils⟩ :=
      condition_spoils stop hs hf.2 hcompact hp hpk hm
    exact ⟨x, n, vs, hx, hnot, hn, fun rest hrest => hlift (hspoils t' rest (by simp [ht']) hrest)⟩
  have hword : Splits (t :: t' :: w) fun us h vs => ∀ rest, Ahead EndsCondition rest →
      Spoils stop h p m vs rest
        (condition stop (u ++ (v ++ (us ++ h :: p :: m :: (vs ++ rest))))) :=
    helse.cons (fun htest => by simp [ht, opensTest] at htest) fun _ _ _ _ _ _ hspoils => hspoils
  refine branch_splits hf.1 hu hb ihb (fun rest hrest ts r₁ es hreads hends => ?_) hword
  have hother : (elseBranch stop (t' :: (w ++ rest))).Ends [] none rest :=
    elseBranch_ends_if ht' (spelled_readBack hs hf.2 rest (by simp) hrest).ends
  have hcondition := condition_ends_else hreads hends ht hother
  rwa [List.append_nil] at hcondition

theorem elsif_broken {test : Expr} {body : List Stmt} {s : Stmt}
    (hu : (Phrase.expr test).Spelled u) (hb : (Clause.block body).Spelled true v)
    (ht : t.kind = .keyword .elsifStmt) (hs : (Clause.condition s).Spelled true w)
    (hcompact : Compact w) (hp : opensExpression p.kind = false)
    (hpk : p.kind ≠ .newline ∧ p.kind ≠ .indent) (hm : m.kind = .newline)
    (ihb : Broken stop p m (.block body) v) (ihs : Broken stop p m (.condition s) w) :
    Broken stop p m (.condition (.condition test body (some [s]))) (u ++ v ++ t :: w) := by
  intro hf
  simp only [Stmt.fits, fitBody, Bool.and_true, Bool.and_eq_true] at hf
  have hlift : ∀ {us vs rest : List Token} {h : Token},
      Spoils stop h p m vs rest (condition stop us) →
      Spoils stop h p m vs rest (condition stop (u ++ (v ++ t :: us))) := fun hspoils =>
    hspoils.lift fun _ _ _ hends => thenBlock_elsif_ends hf.1 hu hb ht hends
  have hword : Splits (t :: w) fun us h vs => ∀ rest, Ahead EndsCondition rest →
      Spoils stop h p m vs rest
        (condition stop (u ++ (v ++ (us ++ h :: p :: m :: (vs ++ rest))))) := by
    refine (ihs hf.2).cons (fun _ => ?_) fun us h r vs _ _ hspoils rest hrest =>
      hlift (hspoils rest hrest)
    obtain ⟨x, n, vs, hx, hnot, hn, hspoils⟩ :=
      condition_spoils stop hs hf.2 hcompact hp hpk hm
    exact ⟨x, n, vs, hx, hnot, hn, fun rest hrest => hlift (hspoils t rest (by simp [ht]) hrest)⟩
  refine branch_splits hf.1 hu hb ihb (fun rest hrest ts r₁ es hreads hends => ?_) hword
  have hcondition := condition_ends_elsif hreads hends ht
    (spelled_readBack hs hf.2 rest (by simp) hrest).ends
  rwa [List.append_nil] at hcondition

theorem block_broken {n : List Token} {i d : Token} {body : List Stmt} (ht : t.kind = .newline)
    (hn : Newlines n) (hi : i.kind = .indent) (hd : d.kind = .dedent)
    (ih : Broken stop p m (.statements body) w) :
    Broken stop p m (.block body) (t :: n ++ i :: w ++ [d]) := by
  intro hf
  have hfront : Splits (t :: n ++ [i]) fun _ _ _ => False := by
    refine .of_none fun q hq => ?_
    simp only [List.cons_append, List.mem_cons, List.mem_append, List.not_mem_nil, or_false] at hq
    rcases hq with rfl | hq | rfl
    · rw [ht]; rfl
    · rw [hn q hq]; rfl
    · rw [hi]; rfl
  have hback : Splits [d] fun _ _ _ => False :=
    .of_none fun q hq => by rw [List.mem_singleton.mp hq, hd]; rfl
  have hbody : Splits (w ++ [d]) fun us h vs => ∀ what rest,
      (blockBelow stop what (t :: (n ++ i :: (us ++ h :: p :: m :: (vs ++ rest))))).Ends
        (headerErrors h p (vs ++ rest)) none rest := by
    refine (ih hf).append hback ?_ fun _ _ _ _ _ _ hfalse => hfalse.elim
    intro us h r vs _ _ hleads what rest
    have happend : vs ++ [d] ++ rest = vs ++ d :: rest := by simp
    rw [happend]
    exact blockBelow_ends ht hn hi hd (hleads true (d :: rest) (ahead_cons.mpr ⟨rfl, hd⟩))
  have hsplit : t :: n ++ i :: w ++ [d] = (t :: n ++ [i]) ++ (w ++ [d]) := by simp
  rw [hsplit]
  refine hfront.append hbody (fun _ _ _ _ _ _ hfalse => hfalse.elim) ?_
  intro us h r vs _ _ hends what rest
  have happend : t :: n ++ [i] ++ us ++ h :: p :: m :: (vs ++ rest) =
      t :: (n ++ i :: (us ++ h :: p :: m :: (vs ++ rest))) := by simp
  rw [happend]
  exact hends what rest

theorem cons_broken {s : Stmt} {ps : List Stmt} {n : List Token}
    (hs : (Clause.statement s).Spelled true u) (hn : Newlines n)
    (hr : (Clause.statements ps).Spelled true v) (hends : s.EndsBefore n ps)
    (ihs : Broken stop p m (.statement s) u) (ihr : Broken stop p m (.statements ps) v) :
    Broken stop p m (.statements (s :: ps)) (u ++ n ++ v) := by
  intro hf
  simp only [fitBody, Bool.and_eq_true] at hf
  have hcondition : ∀ {inside rest}, StatementsEnd inside rest →
      Ahead EndsCondition (n ++ (v ++ rest)) := fun hend =>
    ahead_newlines hn (by simp [EndsCondition]) fun _ =>
      ahead_statements hr hend (fun _ _ _ hk => hk.2.1) (by simp [EndsCondition])
  have hfront : Splits (u ++ n) fun us h vs => ∀ inside rest, StatementsEnd inside rest →
      Leads stop inside (us ++ h :: p :: m :: ((vs ++ v) ++ rest))
        (headerErrors h p ((vs ++ v) ++ rest)) rest := by
    refine (ihs hf.1).append (Splits.of_newlines (Q := fun _ _ _ => False) hn) ?_
      fun _ _ _ _ _ _ hfalse => hfalse.elim
    intro us h r vs _ _ hleads inside rest hend
    have hfirst := hleads inside (n ++ (v ++ rest)) (follows_of_endsBefore hn hr hend hends)
      (hcondition hend)
    rw [skipNewlines_append hn, skipNewlines_statements hr hend] at hfirst
    have hquiet : (statements stop inside (v ++ rest)).Gives ps rest :=
      spelled_readBack hr hf.2 inside rest (by simp) hend
    have hothers := (leads_end_iff hend).mpr ⟨hquiet.1, hquiet.2.2⟩
    have happend : vs ++ n ++ v ++ rest = vs ++ (n ++ (v ++ rest)) := by simp
    rw [happend, ← List.append_nil (headerErrors h p _)]
    exact hfirst.trans hothers
  refine hfront.append (ihr hf.2) (fun _ _ _ _ _ _ hleads => hleads) ?_
  -- the statement in front is read as before
  rintro us h r vs rfl hopens hleads inside rest hend
  have hhole : n ++ (us ++ h :: r ++ rest) = (n ++ us) ++ h :: (r ++ rest) := by simp
  have hfollows := follows_of_endsBefore hn hr hend hends
  have hbranch := hcondition hend
  rw [hhole] at hfollows hbranch
  obtain ⟨mid, hgives, hskip⟩ : ∃ mid,
      (statement stop (u ++ ((n ++ us) ++ h :: p :: m :: (vs ++ rest)))).Gives s mid ∧
        skipNewlines mid = skipNewlines ((n ++ us) ++ h :: p :: m :: (vs ++ rest)) :=
    spelled_readBack hs hf.1 _ (by simp) (follows_hole hfollows _) (ahead_hole hbranch _)
  rw [List.append_assoc, skipNewlines_append hn, skipNewlines_hole hr] at hskip
  obtain ⟨t, u', rfl, ht⟩ := spelled_statement_opens hs
  have hfirst : Leads stop inside (t :: (u' ++ ((n ++ us) ++ h :: p :: m :: (vs ++ rest)))) []
      (skipNewlines mid) := Leads.of_ok ht.ne_dedent hgives.ends
  have happend : t :: u' ++ n ++ us ++ h :: p :: m :: (vs ++ rest) =
      t :: (u' ++ ((n ++ us) ++ h :: p :: m :: (vs ++ rest))) := by simp
  rw [happend]
  rw [hskip] at hfirst
  exact hfirst.trans (hleads inside rest hend)

end broken

/-- **A broken header.** Whatever clause a header is in, the errors are those of the header. -/
theorem spelled_broken {stop : Position} {p m : Token} {c : Clause} {closed : Bool} {w : List Token}
    (h : c.Spelled closed w) (hclosed : closed = true) (hw : Compact w)
    (hp : opensExpression p.kind = false) (hpk : p.kind ≠ .newline ∧ p.kind ≠ .indent)
    (hm : m.kind = .newline) : Broken stop p m c w := by
  induction h with
  | init ht hn he | set ht hn he =>
    have hplain := cons_not_opensTest ht rfl (cons_not_opensTest hn rfl (phrase_not_opensTest he))
    exact fun _ => .of_none hplain
  | ret ht | pass ht => exact fun _ => .of_none (cons_not_opensTest ht rfl (by simp))
  | retValue ht he =>
    exact fun _ => .of_none (cons_not_opensTest ht rfl (phrase_not_opensTest he))
  | call hn hs => exact fun _ => .of_none (cons_not_opensTest hn rfl (phrase_not_opensTest hs))
  | expression he => exact fun _ => .of_phrase he
  | definition ht hn hps hb ih => exact definition_broken ht hn hps hb (ih hclosed hw.right)
  | loop ht he hb ih =>
    subst hclosed
    exact loop_broken ht he hb hw.right hp hpk hm (ih rfl hw.right)
  | condition ht hs ih =>
    subst hclosed
    exact if_broken ht hs hw.tail hp hpk hm (ih rfl hw.tail)
  | noElse he hb ih =>
    subst hclosed
    exact noElse_broken he hb (ih rfl hw.right)
  | withElse he hb ht ho ihb iho =>
    subst hclosed
    exact withElse_broken he hb ht ho (ihb rfl hw.left.right) (iho rfl hw.right.tail)
  | elseIf he hb ht ht' hs ihb ihs =>
    subst hclosed
    have hw' : Compact _ := hw.right.tail.tail
    exact elseIf_broken he hb ht ht' hs hw' hp hpk hm (ihb rfl hw.left.right) (ihs rfl hw')
  | elsif he hb ht hs ihb ihs =>
    subst hclosed
    have hw' : Compact _ := hw.right.tail
    exact elsif_broken he hb ht hs hw' hp hpk hm (ihb rfl hw.left.right) (ihs rfl hw')
  | closedBlock hnl hn hi hb hd ih => exact block_broken hnl hn hi hd (ih rfl hw.left.right.tail)
  | openBlock => cases hclosed
  | nil => exact fun _ => .of_none (by simp)
  | cons hs hn hr hend hopen ihs ihr =>
    obtain ⟨rfl, rfl⟩ := Bool.and_eq_true_iff.mp hclosed
    exact cons_broken hs hn hr hend (ihs rfl hw.left.left) (ihr rfl hw.right)

end Offside.Grammar
