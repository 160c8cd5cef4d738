import Offside.Proofs.Grammar.BrokenHeader
import Offside.Proofs.Grammar.ErrorPlaces
import Offside.Proofs.Grammar.SpoiledHeaders

/-!
# The body below a spoiled header

When the header of a statement cannot be read, the block below it is passed over unread. So what is
in that block does not matter: the errors are that of the header and then those of what follows the
block.

It remains to see how reading comes to the header. Whole statements in front of it are read as
always (`leads_closed`). If they leave blocks open, the header is inside these blocks, and what
follows its own block is read inside them too; it may even go on with a branch of a condition that
is open there. The induction over spellings (`spelled_carried`) shows that all this depends only on
what follows the block.
-/

namespace Offside

namespace Grammar

/-! ## Whole statements in front of a header -/

/-- The last of the tokens ends a line or a block. -/
def Ended (w : List Token) : Prop := ∀ t ∈ w.getLast?, t.kind = .newline ∨ t.kind = .dedent

theorem Ended.right {u v : List Token} (h : Ended (u ++ v)) : Ended v := by
  intro t ht
  refine h t ?_
  rw [List.getLast?_append, ht]
  rfl

theorem not_ended_of_isCode {w : List Token} (hw : ∀ t ∈ w, t.kind.isCode = true) (hne : w ≠ []) :
    ¬Ended w := by
  intro hend
  have hlast := hend _ (List.getLast?_eq_some_getLast hne)
  have hcode := hw _ (List.getLast_mem hne)
  rcases hlast with hk | hk <;> rw [hk] at hcode <;> cases hcode

theorem ahead_append {P : Kind → Prop} {w X : List Token} (hw : Ahead P w) (hX : Ahead P X) :
    Ahead P (w ++ X) := by
  cases w with
  | nil => exact hX
  | cons t w => exact ahead_cons.mpr (ahead_cons.mp hw)

theorem follows_append {s : Stmt} {w X : List Token} (hw : Follows s w)
    (hX : w = [] → Follows s X) : Follows s (w ++ X) := by
  cases w with
  | nil => exact hX rfl
  | cons t w =>
    have hhole : Follows s ([] ++ t :: w) := hw
    exact follows_hole hhole (w ++ X)

section whole

variable {stop : Position} {inside : Bool} {t : Token} {ts u v w n : List Token} {s : Stmt}
  {p : List Stmt} {closed : Bool}

theorem follows_of_ended (h : (Clause.statement s).Spelled closed u) (hu : Ended u)
    (rest : List Token) : Follows s rest := by
  rcases h.isCode_or with hcode | hends
  · obtain ⟨t, u', rfl, -⟩ := h.opens
    exact absurd hu (not_ended_of_isCode hcode (by simp))
  · -- a statement without a block could not be followed by one that begins with a sign
    have hsign := hends [] [.expression (.unary .negate .start (.literal .none))]
    cases s with
    | condition | loop | definition => trivial
    | ret pos value =>
      cases value with
      | none => simp [Stmt.EndsBefore] at hsign
      | some e =>
        simp [Stmt.EndsBefore, Stmt.startsWithSign, Expr.startsWithSign, Expr.leading] at hsign
    | _ => simp [Stmt.EndsBefore] at hsign

theorem endsCondition_of_opensHeader {k : Kind} (h : opensHeader k = true) : EndsCondition k := by
  rcases opensHeader_cases h with rfl | rfl | rfl <;> simp [EndsCondition]

theorem skipNewlines_before_header (h : (Clause.statements p).Spelled closed v)
    (ht : opensHeader t.kind = true) : skipNewlines (v ++ t :: ts) = v ++ t :: ts := by
  have hclose : StatementsEnd false [] := ahead_nil _
  have hheader : t.kind ≠ .newline := by
    intro hk
    rw [hk] at ht
    cases ht
  refine skipNewlines_of_ahead (ahead_append ?_ (ahead_cons.mpr hheader))
  rw [← List.append_nil v]
  exact ahead_statements h hclose (fun _ _ _ hk => hk.ne_newline) (by simp)

theorem leads_whole (hs : (Clause.statement s).Spelled true u) (hf : s.fits = true)
    (hn : Newlines n) (hr : (Clause.statements p).Spelled closed v) (hends : s.EndsBefore n p)
    (hend : Ended (u ++ n ++ v)) (ht : opensHeader t.kind = true) :
    Leads stop inside (u ++ n ++ v ++ t :: ts) [] (v ++ t :: ts) := by
  have hclose : StatementsEnd false [] := ahead_nil _
  have hfollows : Follows s ((n ++ v) ++ t :: ts) := by
    have hbefore := follows_of_endsBefore hn hr hclose hends
    rw [List.append_nil] at hbefore
    refine follows_append hbefore fun hnil => follows_of_ended hs ?_ _
    rwa [List.append_assoc, hnil, List.append_nil] at hend
  have hcondition : Ahead EndsCondition ((n ++ v) ++ t :: ts) := by
    refine ahead_append ?_ (ahead_cons.mpr (endsCondition_of_opensHeader ht))
    refine ahead_newlines hn (by simp [EndsCondition]) fun _ => ?_
    rw [← List.append_nil v]
    exact ahead_statements hr hclose (fun _ _ _ hk => hk.2.1) (by simp [EndsCondition])
  obtain ⟨mid, hgives, hskip⟩ : ∃ mid,
      (statement stop (u ++ ((n ++ v) ++ t :: ts))).Gives s mid ∧
        skipNewlines mid = skipNewlines ((n ++ v) ++ t :: ts) :=
    spelled_readBack hs hf _ (by simp) hfollows hcondition
  rw [List.append_assoc, skipNewlines_append hn, skipNewlines_before_header hr ht] at hskip
  obtain ⟨q, u', rfl, hq⟩ := spelled_statement_opens hs
  have happend : q :: u' ++ n ++ v ++ t :: ts = q :: (u' ++ ((n ++ v) ++ t :: ts)) := by simp
  rw [happend, ← hskip]
  exact Leads.of_ok hq.ne_dedent hgives.ends

theorem leads_closed (h : (Clause.statements p).Spelled true w) (hf : fitBody p = true)
    (hend : Ended w) (ht : opensHeader t.kind = true) :
    Leads stop inside (w ++ t :: ts) [] (t :: ts) := by
  induction p generalizing w with
  | nil =>
    rw [h.of_nil]
    exact Leads.refl
  | cons s p ih =>
    obtain ⟨u, n, v, rfl, hs, hn, hr, hends⟩ := h.of_cons
    simp only [fitBody, Bool.and_eq_true] at hf
    exact (leads_whole hs hf.1 hn hr hends hend ht).trans (ih hr hf.2 hend.right)

end whole

/-! ## What is found behind the block -/

/-- The errors stand at tokens of `Y` or at its end, and `us` is left of these tokens. -/
def Arises (stop : Position) (Y : List Token) (es : List SyntaxError) (us : List Token) : Prop :=
  us <:+ Y ∧ ∀ e ∈ es, Names stop Y e

/-- Where statements are read on from, behind one that ended this way. -/
def goesOn : Option SyntaxError → List Token → List Token
  | none, rest => skipNewlines rest
  | some _, rest => resume rest

namespace Arises

variable {stop : Position} {Y us vs : List Token} {es es' : List SyntaxError}

theorem append (h : Arises stop Y es us) (h' : Arises stop us es' vs) :
    Arises stop Y (es ++ es') vs := by
  refine ⟨h'.1.trans h.1, fun e he => ?_⟩
  rcases List.mem_append.mp he with he | he
  · exact h.2 e he
  · exact (h'.2 e he).mono h.1

theorem mono (h : Arises stop us es vs) (hus : us <:+ Y) : Arises stop Y es vs :=
  ⟨h.1.trans hus, fun e he => (h.2 e he).mono hus⟩

theorem goesOn (h : Arises stop Y es us) :
    Arises stop Y (es ++ (none : Option SyntaxError).toList) (goesOn none us) := by
  rw [Option.toList_none, List.append_nil]
  exact ⟨(List.dropWhile_suffix _).trans h.1, h.2⟩

theorem of_meets (h : Meets stop Y es us) : Arises stop Y es us := ⟨h.suffix, h.names⟩

theorem statements (stop : Position) (inside : Bool) (Y : List Token) :
    Arises stop Y (statements stop inside Y).errors (statements stop inside Y).rest :=
  of_meets ((statementsPlaced stop _).statements (Nat.lt_succ_self _))

end Arises

/-- Every reply ends in some way, with errors from its own tokens. -/
theorem Traced.Placed.exists_ends {α : Type} {k : Nat} {stop : Position} {ts : List Token}
    {r : Traced α k ts} (h : r.Placed stop) :
    ∃ es failure us, r.Ends es failure us ∧
      Arises stop ts (es ++ failure.toList) (goesOn failure us) := by
  obtain ⟨es, reply⟩ := r
  cases reply with
  | ok a rest hle =>
    exact ⟨es, none, rest, ⟨rfl, rfl, rfl⟩, (Arises.of_meets (h.ok a rfl)).goesOn⟩
  | fail e rest hle =>
    exact ⟨es, some e, rest, ⟨rfl, rfl, rfl⟩, .of_meets ((h.error e rfl).weaken (resume_suffix _))⟩

theorem Leads.of_ends {stop : Position} {inside : Bool} {t : Token} {ts us : List Token}
    {es : List SyntaxError} {failure : Option SyntaxError} (ht : t.kind ≠ .dedent)
    (h : (statement stop (t :: ts)).Ends es failure us) :
    Leads stop inside (t :: ts) (es ++ failure.toList) (goesOn failure us) := by
  cases failure with
  | none =>
    rw [Option.toList_none, List.append_nil]
    exact Leads.of_ok ht h
  | some e => exact Leads.of_failure ht h

/-- Whatever the header `X` is that reading enters with an error and leaves at `Y`, the clause in
front of it ends in the same way: with the error of the header and then with the same errors, which
are from `Y`. -/
def Carried (stop : Position) (Y : List Token) : Clause → List Token → Prop
  | .statement s, w => s.fits = true → ∃ es failure us,
      Arises stop Y (es ++ failure.toList) (goesOn failure us) ∧
      ∀ e X, Enters stop e X Y → (statement stop (w ++ X)).Ends (e :: es) failure us
  | .condition s, w => s.fits = true → ∃ es failure us,
      Arises stop Y (es ++ failure.toList) (goesOn failure us) ∧
      ∀ e X, Enters stop e X Y → (condition stop (w ++ X)).Ends (e :: es) failure us
  | .block body, w => fitBody body = true → ∃ es us, Arises stop Y es us ∧
      ∀ what e X, Enters stop e X Y → (blockBelow stop what (w ++ X)).Ends (e :: es) none us
  | .statements p, w => fitBody p = true → ∀ inside, ∃ es us, Arises stop Y es us ∧
      ∀ e X, Enters stop e X Y → (statements stop inside (w ++ X)).errors = e :: es ∧
        (statements stop inside (w ++ X)).rest = us

section carried

variable {stop : Position} {Y : List Token} {t : Token} {u v w n : List Token} {s : Stmt}
  {p body : List Stmt} {test : Expr}

theorem closed_carried (h : (Clause.statements p).Spelled true w) (hend : Ended w) :
    Carried stop Y (.statements p) w := by
  intro hf inside
  refine ⟨_, _, .statements stop inside Y, fun e X hX => ?_⟩
  obtain ⟨t, ts, rfl, ht⟩ := hX.opens
  exact (leads_closed h hf hend ht).trans (hX.leads inside)

theorem definition_carried {m : Token} {params : List Token} (ht : t.kind = .keyword .defStmt)
    (hm : m.kind = .command) (hps : ∀ q ∈ params, q.kind = .identifier)
    (hb : (Clause.block body).Spelled false w) (ih : Carried stop Y (.block body) w) :
    Carried stop Y (.statement (.definition (nameOf m) (params.map nameOf) body))
      (t :: m :: params ++ w) := by
  intro hf
  obtain ⟨es, us, harises, hends⟩ := ih hf
  refine ⟨es, none, us, harises.goesOn, fun e X hX => ?_⟩
  have hnot : Ahead (· ≠ .identifier) (w ++ X) := by
    obtain ⟨n, w', rfl, hn⟩ := spelled_block_opens hb
    simp [hn]
  have happend : t :: m :: params ++ w ++ X = t :: m :: (params ++ (w ++ X)) := by simp
  rw [happend]
  exact statement_ends_definition ht hm hps hnot (hends _ e X hX)

theorem loop_carried (ht : t.kind = .keyword .whileStmt) (hu : (Phrase.expr test).Spelled u)
    (hb : (Clause.block body).Spelled false v) (ih : Carried stop Y (.block body) v) :
    Carried stop Y (.statement (.loop test body)) (t :: u ++ v) := by
  intro hf
  simp only [Stmt.fits, Bool.and_eq_true] at hf
  obtain ⟨es, us, harises, hends⟩ := ih hf.2
  refine ⟨es, none, us, harises.goesOn, fun e X hX => ?_⟩
  rw [List.append_assoc, List.cons_append]
  exact statement_ends_while ht (reads_header hf.1 hu hb) (hends _ e X hX)

theorem if_carried (ht : t.kind = .keyword .ifStmt) (ih : Carried stop Y (.condition s) w) :
    Carried stop Y (.statement s) (t :: w) := by
  intro hf
  obtain ⟨es, failure, us, harises, hends⟩ := ih hf
  exact ⟨es, failure, us, harises, fun e X hX => statement_ends_if ht (hends e X hX)⟩

theorem noElse_carried (hu : (Phrase.expr test).Spelled u)
    (hb : (Clause.block body).Spelled false v) (ih : Carried stop Y (.block body) v) :
    Carried stop Y (.condition (.condition test body none)) (u ++ v) := by
  intro hf
  simp only [Stmt.fits, Bool.and_eq_true] at hf
  obtain ⟨es, us, harises, hends⟩ := ih hf.2
  have hreads : ∀ X, Reads (.expr .conditional test) (u ++ v ++ X) (v ++ X) := fun X => by
    rw [List.append_assoc]
    exact reads_header hf.1 hu hb
  by_cases hus : Ahead EndsCondition us
  · exact ⟨es, none, us, harises.goesOn, fun e X hX =>
      condition_ends (hreads X) (hends _ e X hX) hus⟩
  cases us with
  | nil => exact absurd (ahead_nil _) hus
  | cons q us =>
    have hlift : ∀ {es' : List SyntaxError} {failure : Option SyntaxError} {rest : List Token},
        Arises stop us (es' ++ failure.toList) (goesOn failure rest) →
        Arises stop Y (es ++ es' ++ failure.toList) (goesOn failure rest) := fun h => by
      rw [List.append_assoc]
      exact harises.append (h.mono (List.suffix_cons q us))
    by_cases helse : q.kind = .keyword .elseStmt
    · have hplaced : (elseBranch stop us).Placed stop :=
        (statementsPlaced stop _).elseBranch (Nat.lt_succ_self _)
      obtain ⟨es', failure, rest, hother, harises'⟩ := hplaced.exists_ends
      exact ⟨es ++ es', failure, rest, hlift harises', fun e X hX =>
        condition_ends_else (hreads X) (hends _ e X hX) helse hother⟩
    · have helsif : q.kind = .keyword .elsifStmt := by
        by_contra helsif
        exact hus (ahead_cons.mpr ⟨helse, helsif⟩)
      have hplaced : (condition stop us).Placed stop :=
        (statementsPlaced stop _).condition (Nat.lt_succ_self _)
      obtain ⟨es', failure, rest, hother, harises'⟩ := hplaced.exists_ends
      exact ⟨es ++ es', failure, rest, hlift harises', fun e X hX =>
        condition_ends_elsif (hreads X) (hends _ e X hX) helsif hother⟩

theorem withElse_carried {other : List Stmt} (hu : (Phrase.expr test).Spelled u)
    (hb : (Clause.block body).Spelled true v) (ht : t.kind = .keyword .elseStmt)
    (ho : (Clause.block other).Spelled false w) (ih : Carried stop Y (.block other) w) :
    Carried stop Y (.condition (.condition test body (some other))) (u ++ v ++ t :: w) := by
  intro hf
  simp only [Stmt.fits, Bool.and_eq_true] at hf
  obtain ⟨es, us, harises, hends⟩ := ih hf.2
  refine ⟨es, none, us, harises.goesOn, fun e X hX => ?_⟩
  have hnot : Ahead (· ≠ .keyword .ifStmt) (w ++ X) := by
    obtain ⟨n, w', rfl, hn⟩ := spelled_block_opens ho
    simp [hn]
  rw [List.append_assoc, List.append_assoc]
  exact thenBlock_else_ends hf.1 hu hb ht (elseBranch_ends_block hnot (hends _ e X hX))

theorem elseIf_carried {t' : Token} (hu : (Phrase.expr test).Spelled u)
    (hb : (Clause.block body).Spelled true v) (ht : t.kind = .keyword .elseStmt)
    (ht' : t'.kind = .keyword .ifStmt) (ih : Carried stop Y (.condition s) w) :
    Carried stop Y (.condition (.condition test body (some [s]))) (u ++ v ++ t :: t' :: w) := by
  intro hf
  simp only [Stmt.fits, fitBody, Bool.and_true, Bool.and_eq_true] at hf
  obtain ⟨es, failure, us, harises, hends⟩ := ih hf.2
  refine ⟨es, failure, us, harises, fun e X hX => ?_⟩
  rw [List.append_assoc, List.append_assoc]
  exact thenBlock_else_ends hf.1 hu hb ht (elseBranch_ends_if ht' (hends e X hX))

theorem elsif_carried (hu : (Phrase.expr test).Spelled u)
    (hb : (Clause.block body).Spelled true v) (ht : t.kind = .keyword .elsifStmt)
    (ih : Carried stop Y (.condition s) w) :
    Carried stop Y (.condition (.condition test body (some [s]))) (u ++ v ++ t :: w) := by
  intro hf
  simp only [Stmt.fits, fitBody, Bool.and_true, Bool.and_eq_true] at hf
  obtain ⟨es, failure, us, harises, hends⟩ := ih hf.2
  refine ⟨es, failure, us, harises, fun e X hX => ?_⟩
  rw [List.append_assoc, List.append_assoc]
  exact thenBlock_elsif_ends hf.1 hu hb ht (hends e X hX)

theorem openBlock_carried {i : Token} (ht : t.kind = .newline) (hn : Newlines n)
    (hi : i.kind = .indent) (ih : Carried stop Y (.statements body) w) :
    Carried stop Y (.block body) (t :: n ++ i :: w) := by
  intro hf
  obtain ⟨es, us, harises, hends⟩ := ih hf true
  refine ⟨es, us.tail, ⟨(List.tail_suffix us).trans harises.1, harises.2⟩, fun what e X hX => ?_⟩
  obtain ⟨herrors, hrest⟩ := hends e X hX
  have happend : t :: n ++ i :: w ++ X = t :: (n ++ i :: (w ++ X)) := by simp
  have hskip : skipNewlines (n ++ i :: (w ++ X)) = i :: (w ++ X) := by
    rw [skipNewlines_append hn, skipNewlines_of_ahead (by simp [hi])]
  have hline : (expect stop .newline what (t :: (n ++ i :: (w ++ X)))).quiet.Ends [] none
      (n ++ i :: (w ++ X)) :=
    (Traced.gives_quiet.mpr (gives_expect.mpr ⟨rfl, ht⟩)).ends
  obtain ⟨hle, hblock⟩ := block_indent stop hskip hi
  rw [happend, blockBelow]
  refine hline.andThen fun _ _ => ?_
  rw [hblock]
  exact ⟨herrors, rfl, by rw [hrest]⟩

theorem last_carried (hs : (Clause.statement s).Spelled false u)
    (ih : Carried stop Y (.statement s) u) : Carried stop Y (.statements [s]) u := by
  intro hf inside
  simp only [fitBody, Bool.and_true] at hf
  obtain ⟨es, failure, us, harises, hends⟩ := ih hf
  refine ⟨_, _, harises.append (.statements stop inside (goesOn failure us)), fun e X hX => ?_⟩
  obtain ⟨q, u', rfl, hq⟩ := spelled_statement_opens hs
  exact Leads.of_ends hq.ne_dedent (hends e X hX)

theorem cons_carried {closed : Bool} (hs : (Clause.statement s).Spelled true u) (hn : Newlines n)
    (hr : (Clause.statements p).Spelled closed v) (hends : s.EndsBefore n p)
    (hend : Ended (u ++ n ++ v)) (ih : Carried stop Y (.statements p) v) :
    Carried stop Y (.statements (s :: p)) (u ++ n ++ v) := by
  intro hf inside
  simp only [fitBody, Bool.and_eq_true] at hf
  obtain ⟨es, us, harises, hrest⟩ := ih hf.2 inside
  refine ⟨es, us, harises, fun e X hX => ?_⟩
  obtain ⟨t, ts, rfl, ht⟩ := hX.opens
  have hfirst : Leads stop inside (u ++ n ++ v ++ t :: ts) [] (v ++ t :: ts) :=
    leads_whole hs hf.1 hn hr hends hend ht
  rw [hfirst.1, hfirst.2, List.nil_append]
  exact hrest e (t :: ts) hX

end carried

/-- **Statements in front of a spoiled header.** A clause that ends in an open block is carried on
with what follows the header's own block. -/
theorem spelled_carried {stop : Position} {Y : List Token} {c : Clause} {closed : Bool}
    {w : List Token} (h : c.Spelled closed w) (hclosed : closed = false) (hend : Ended w) :
    Carried stop Y c w := by
  induction h with
  | init | set | ret | retValue | pass | call | expression | closedBlock | nil => cases hclosed
  | definition ht hm hps hb ih =>
    subst hclosed
    exact definition_carried ht hm hps hb (ih rfl hend.right)
  | loop ht hu hb ih =>
    subst hclosed
    exact loop_carried ht hu hb (ih rfl hend.right)
  | @condition t s closed w ht hs ih =>
    exact if_carried ht (ih hclosed (Ended.right (u := [t]) hend))
  | noElse hu hb ih =>
    subst hclosed
    exact noElse_carried hu hb (ih rfl hend.right)
  | @withElse t test body other closed u v w hu hb ht ho ihb iho =>
    subst hclosed
    exact withElse_carried hu hb ht ho (iho rfl (Ended.right (u := [t]) hend.right))
  | @elseIf t t' test body s closed u v w hu hb ht ht' hs ihb ihs =>
    exact elseIf_carried hu hb ht ht' (ihs hclosed (Ended.right (u := [t, t']) hend.right))
  | @elsif t test body s closed u v w hu hb ht hs ihb ihs =>
    exact elsif_carried hu hb ht (ihs hclosed (Ended.right (u := [t]) hend.right))
  | @openBlock n t i body closed w ht hn hi hb ih =>
    have hbody : Ended w := Ended.right (u := [i]) hend.right
    cases closed with
    | true => exact openBlock_carried ht hn hi (closed_carried hb hbody)
    | false => exact openBlock_carried ht hn hi (ih rfl hbody)
  | @cons s p n closed closed' u v hs hn hr hends hopen ihs ihr =>
    cases closed with
    | true => exact cons_carried hs hn hr hends hend (ihr hclosed hend.right)
    | false =>
      obtain ⟨rfl, rfl⟩ := hopen rfl
      rw [hr.of_nil, List.append_nil, List.append_nil] at hend ⊢
      exact last_carried hs (ihs rfl hend)

theorem exists_carried {closed : Bool} {p : List Stmt} {w : List Token}
    (h : (Clause.statements p).Spelled closed w) (hf : fitBody p = true) (hend : Ended w)
    (stop : Position) (Y : List Token) :
    ∃ es : List SyntaxError, (∀ e ∈ es, Names stop Y e) ∧
      (closed = true → es = (statements stop false Y).errors) ∧
      ∀ e X, Enters stop e X Y → (statements stop false (w ++ X)).errors = e :: es := by
  cases closed with
  | false =>
    obtain ⟨es, us, harises, hends⟩ := spelled_carried h rfl hend hf false
    exact ⟨es, harises.2, fun hclosed => (by cases hclosed), fun e X hX => (hends e X hX).1⟩
  | true =>
    refine ⟨_, (Arises.statements stop false Y).2, fun _ => rfl, fun e X hX => ?_⟩
    obtain ⟨t, ts, rfl, ht⟩ := hX.opens
    exact ((leads_closed h hf hend ht).trans (hX.leads false)).1

theorem Nested.filter_comment {w : List Token} (h : Nested w) :
    Nested (w.filter (·.kind != .comment)) := by
  induction h with
  | nil => exact .nil
  | @token t ts hi hd _ ih =>
    by_cases ht : t.kind = .comment
    · rwa [List.filter_cons_of_neg (by simp [ht])]
    · rw [List.filter_cons_of_pos (by simp [ht])]
      exact .token hi hd ih
  | block hi _ hd _ ihu ihv =>
    rw [List.filter_append, List.filter_cons_of_pos (by simp [hi]),
      List.filter_cons_of_pos (by simp [hd])]
    exact .block hi ihu hd ihv

theorem SpoiledHeader.inside {H : List Token} {n : Token} {e : SyntaxError}
    (h : SpoiledHeader (H.filter (·.kind != .comment)) n e) : ∀ t ∈ H, t.kind ≠ .endOfInput := by
  intro t ht hk
  have hcode := h.isCode t (List.mem_filter.mpr ⟨ht, by simp [hk]⟩)
  rw [hk] at hcode
  cases hcode

end Grammar

open Grammar

/-! ## Token lists -/

theorem endPosition_append {u v : List Token} (hu : ∀ t ∈ u, t.kind ≠ .endOfInput) (hv : v ≠ []) :
    endPosition (u ++ v) = endPosition v := by
  have hnone : u.find? (·.kind == .endOfInput) = none := by simpa using hu
  unfold endPosition
  rw [List.find?_append, hnone, Option.none_or, List.getLast?_append_of_ne_nil u hv]

/-- The errors that are reported for a token list; none if it is a program. -/
def reported (ts : List Token) : List SyntaxError :=
  match parse ts with
  | .ok _ => []
  | .error es => es

theorem reported_eq (ts : List Token) :
    reported ts = (statements (endPosition (ts.filter (·.kind != .comment))) false
      (skipNewlines (content ts))).errors := by
  unfold reported parse
  simp only
  rw [takeWhile_filter_comment]
  generalize (statements _ false (skipNewlines (content ts))).errors = es
  cases es <;> rfl

theorem parse_eq_error {ts : List Token} {e : SyntaxError} {es : List SyntaxError}
    (h : reported ts = e :: es) : parse ts = .error (e :: es) := by
  unfold reported at h
  generalize parse ts = r at h
  cases r with
  | ok p => cases h
  | error es' => exact congrArg Except.error h

/-- Where something stands in front, the errors are the same, as long as it is not read. -/
theorem reported_behind {d : Token} (hd : d.kind = .dedent) (R : List Token) :
    (statements (endPosition ((d :: R).filter (·.kind != .comment))) false
      (skipNewlines (content R))).errors = reported R := by
  rw [reported_eq]
  by_cases hR : R.filter (·.kind != .comment) = []
  · have hcontent : content R = [] := by
      rw [← takeWhile_filter_comment, hR]
      rfl
    rw [hcontent]
    exact (errors_statements_nil false).trans (errors_statements_nil false).symm
  · have hfront : ∀ t ∈ [d], t.kind ≠ .endOfInput := by simp [hd]
    rw [List.filter_cons_of_pos (by simp [hd]), ← List.singleton_append,
      endPosition_append hfront hR]

section spoiled

variable {P H B R : List Token} {n i d : Token} {e : SyntaxError}

variable (hP : ∀ t ∈ P, t.kind ≠ .endOfInput)
  (hH : SpoiledHeader (H.filter (·.kind != .comment)) n e) (hi : i.kind = .indent)
  (hB : ∀ t ∈ B, t.kind ≠ .endOfInput) (hd : d.kind = .dedent)

include hP hH hi hB hd

theorem content_spoiled :
    content (P ++ H ++ n :: i :: (B ++ d :: R)) =
      content P ++ (H.filter (·.kind != .comment) ++
        n :: i :: (B.filter (·.kind != .comment) ++ d :: content R)) := by
  have hfront : ∀ t ∈ P ++ H ++ n :: i :: (B ++ [d]), t.kind ≠ .endOfInput := by
    simp only [List.forall_mem_append, List.forall_mem_cons]
    exact ⟨⟨hP, hH.inside⟩, by simp [hH.newline], by simp [hi], hB, by simp [hd]⟩
  have hall : P ++ H ++ n :: i :: (B ++ d :: R) = (P ++ H ++ n :: i :: (B ++ [d])) ++ R := by simp
  have hbefore : content P = P.filter (·.kind != .comment) := by
    have hcontent := content_append_inside (v := []) hP
    rwa [List.append_nil, show content [] = [] from rfl, List.append_nil] at hcontent
  rw [hall, content_append_inside hfront, hbefore]
  simp [List.filter_append, hH.newline, hi, hd]

theorem endPosition_spoiled :
    endPosition ((P ++ H ++ n :: i :: (B ++ d :: R)).filter (·.kind != .comment)) =
      endPosition ((d :: R).filter (·.kind != .comment)) := by
  have hfront : ∀ t ∈ (P ++ H ++ n :: i :: B).filter (·.kind != .comment),
      t.kind ≠ .endOfInput := by
    refine fun t ht => ?_
    have hall : ∀ t ∈ P ++ H ++ n :: i :: B, t.kind ≠ .endOfInput := by
      simp only [List.forall_mem_append, List.forall_mem_cons]
      exact ⟨⟨hP, hH.inside⟩, by simp [hH.newline], by simp [hi], hB⟩
    exact hall t (List.mem_of_mem_filter ht)
  have hall : P ++ H ++ n :: i :: (B ++ d :: R) = (P ++ H ++ n :: i :: B) ++ d :: R := by simp
  rw [hall, List.filter_append, endPosition_append hfront]
  rw [List.filter_cons_of_pos (by simp [hd])]
  simp

end spoiled

/-- **The body does not matter.** Let `P` be whole statements, and `H` the line of a header that
cannot be read, with the block `B` below it and `R` behind the block. The errors are that of the
header and then errors `es` that stand in `R` or at its end. They are the same for every `B` in
which blocks are nested, and for every such header; if the blocks of `P` are closed, they are those
of `R` alone. -/
theorem parse_body_irrelevant {P R : List Token} {p : Program} {d : Token}
    (hP : ∀ t ∈ P, t.kind ≠ .endOfInput) (hparse : parse P = .ok p) (hend : Ended (content P))
    (hd : d.kind = .dedent) :
    ∃ es : List SyntaxError,
      (∀ e ∈ es, Names (endPosition ((d :: R).filter (·.kind != .comment))) (content R) e) ∧
      (Balance true (content P) → es = reported R) ∧
      ∀ H n i B e, SpoiledHeader (H.filter (·.kind != .comment)) n e → i.kind = .indent →
        (∀ t ∈ B, t.kind ≠ .endOfInput) → Nested B →
        parse (P ++ H ++ n :: i :: (B ++ d :: R)) = .error (e :: es) := by
  obtain ⟨hf, ns, w, closed, heq, hns, hw⟩ := spelled_of_parse hparse
  rw [heq] at hend ⊢
  obtain ⟨es, hnames, hsame, hcarried⟩ := exists_carried hw hf hend.right
    (endPosition ((d :: R).filter (·.kind != .comment))) (skipNewlines (content R))
  refine ⟨es, fun e he => (hnames e he).mono (List.dropWhile_suffix _), fun hbalance => ?_, ?_⟩
  · rw [hsame (hw.closed_of_balance hns hbalance), reported_behind hd]
  · intro H n i B e hH hi hB hnested
    have henters := hH.enters hi hnested.filter_comment hd
      (endPosition ((d :: R).filter (·.kind != .comment))) (content R)
    have hfirst := hcarried e _ henters
    obtain ⟨t, ts, hopens, ht⟩ := henters.opens
    refine parse_eq_error ?_
    rw [reported_eq, content_spoiled hP hH hi hB hd, endPosition_spoiled hP hH hi hB hd, heq,
      List.append_assoc, skipNewlines_append hns, ← hfirst, hopens,
      skipNewlines_before_header hw ht]

def passLine : List Token :=
  [⟨.keyword .passStmt, "PASS", none, ⟨1, 1⟩⟩, ⟨.newline, "\n", none, ⟨1, 5⟩⟩]

def parenHeader : List Token :=
  [⟨.keyword .ifStmt, "IF", none, ⟨2, 1⟩⟩, ⟨.symbol .rightParen, ")", none, ⟨2, 4⟩⟩]

def plainBody : List Token :=
  [⟨.command, "A", some (.text "A"), ⟨3, 3⟩⟩, ⟨.newline, "\n", none, ⟨3, 4⟩⟩]

/-- The line `ELSE`, which belongs to no condition. -/
def elseLine (p : Position) : List Token :=
  [⟨.keyword .elseStmt, "ELSE", none, p⟩, ⟨.newline, "\n", none, ⟨p.line, p.column + 4⟩⟩]

/-- A body of lines that are all errors, with a block inside. -/
def wildBody : List Token :=
  [⟨.symbol .rightParen, ")", none, ⟨3, 3⟩⟩, ⟨.newline, "\n", none, ⟨3, 4⟩⟩] ++
    (⟨.indent, "    ", none, ⟨4, 1⟩⟩ :: elseLine ⟨4, 5⟩ ++ [⟨.dedent, "", none, ⟨5, 1⟩⟩])

def afterBody : List Token := elseLine ⟨5, 1⟩ ++ [⟨.endOfInput, "", none, ⟨6, 1⟩⟩]

def withBody (B : List Token) : List Token :=
  passLine ++ parenHeader ++ ⟨.newline, "\n", none, ⟨2, 5⟩⟩ :: ⟨.indent, "  ", none, ⟨3, 1⟩⟩ ::
    (B ++ ⟨.dedent, "", none, ⟨5, 1⟩⟩ :: afterBody)

theorem parse_body_irrelevant_wild :
    parse (withBody plainBody) = .error
        [⟨.expectedExpression "')'", ⟨2, 4⟩⟩, ⟨.expectedExpression "'ELSE'", ⟨5, 1⟩⟩] ∧
      parse (withBody wildBody) = .error
        [⟨.expectedExpression "')'", ⟨2, 4⟩⟩, ⟨.expectedExpression "'ELSE'", ⟨5, 1⟩⟩] := by
  have hparse : parse passLine = .ok [.pass] := by with_unfolding_all rfl
  have hended : ∀ t ∈ (content passLine).getLast?, t.kind = .newline ∨ t.kind = .dedent := by decide
  have hbalance : countKind .dedent (content passLine) = countKind .indent (content passLine) := rfl
  have hheader : SpoiledHeader (parenHeader.filter (·.kind != .comment))
      ⟨.newline, "\n", none, ⟨2, 5⟩⟩ ⟨.expectedExpression "')'", ⟨2, 4⟩⟩ :=
    ⟨⟨_, _, rfl, rfl⟩, by decide, rfl, _, by simp, statement_ends_if rfl (condition_unopened rfl),
      by decide⟩
  have hplain : Nested plainBody := .of_flat (by decide)
  have hwild : Nested wildBody :=
    .append (.of_flat (by decide)) (.block rfl (.of_flat (by decide)) rfl .nil)
  obtain ⟨es, -, hsame, hall⟩ := parse_body_irrelevant (P := passLine) (R := afterBody)
    (d := ⟨.dedent, "", none, ⟨5, 1⟩⟩) (by decide) hparse hended rfl
  have hreported : es = [⟨.expectedExpression "'ELSE'", ⟨5, 1⟩⟩] :=
    (hsame hbalance).trans (by with_unfolding_all rfl)
  rw [← hreported]
  exact ⟨hall _ _ _ _ _ hheader rfl (by decide) hplain,
    hall _ _ _ _ _ hheader rfl (by decide) hwild⟩

end Offside
