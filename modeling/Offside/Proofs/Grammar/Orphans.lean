import Offside.Proofs.Grammar.Recovery

/-!
# What a lost header leaves behind

When the test of a condition or a loop cannot be read, reading goes on behind the block below it
(`resume`). The branches behind that block have lost the condition they belong to: `ELSIF` and
`ELSE` begin no statement, so each of them is an error of its own, up to the first `ELSE`
(`leads_branches`). The block below is passed over as well; only a condition behind `ELSE` is read
again. These words are the `branchWords` of the condition.

`Leads` says of the reader of statements which errors it finds before it comes to a place.
-/

namespace Offside.Grammar

/-! ## Blocks are passed over -/

/-- Tokens in which every block that begins ends, and none ends that has not begun. -/
inductive Nested : List Token → Prop
  | nil : Nested []
  | token {t ts} (hi : t.kind ≠ .indent) (hd : t.kind ≠ .dedent) (h : Nested ts) : Nested (t :: ts)
  | block {i d u v} (hi : i.kind = .indent) (hu : Nested u) (hd : d.kind = .dedent)
      (hv : Nested v) : Nested (i :: u ++ d :: v)

theorem flat_of_isCode {w : List Token} (h : ∀ t ∈ w, t.kind.isCode = true) :
    ∀ t ∈ w, t.kind ≠ .indent ∧ t.kind ≠ .dedent := by
  refine fun t ht => ⟨fun hk => ?_, fun hk => ?_⟩
  all_goals
    have hcode := h t ht
    rw [hk] at hcode
    cases hcode

namespace Nested

variable {u v w : List Token}

theorem append (hu : Nested u) (hv : Nested v) : Nested (u ++ v) := by
  induction hu with
  | nil => exact hv
  | token hi hd _ ih => exact .token hi hd ih
  | @block i d u w hi hu hd _ _ ih =>
    rw [List.append_assoc, List.cons_append]
    exact .block hi hu hd ih

theorem of_flat (h : ∀ t ∈ w, t.kind ≠ .indent ∧ t.kind ≠ .dedent) : Nested w := by
  induction w with
  | nil => exact .nil
  | cons t w ih =>
    rw [List.forall_mem_cons] at h
    exact .token h.1.1 h.1.2 (ih h.2)

theorem of_isCode (h : ∀ t ∈ w, t.kind.isCode = true) : Nested w := of_flat (flat_of_isCode h)

theorem of_newlines (h : Newlines w) : Nested w := by
  refine of_flat fun t ht => ?_
  rw [h t ht]
  decide

theorem code {t : Token} {k : Kind} (ht : t.kind = k) (hk : k.isCode = true) (hw : Nested w) :
    Nested (t :: w) := by
  have ht : Nested [t] := of_isCode (by simpa using isCode_of_kind ht hk)
  exact ht.append hw

end Nested

theorem spelled_nested {c : Clause} {closed : Bool} {w : List Token}
    (h : c.Spelled closed w) (hclosed : closed = true) : Nested w := by
  induction h with
  | init ht hn he | set ht hn he =>
    exact .code ht rfl (.code hn rfl (.of_isCode he.isCode))
  | ret ht | pass ht => exact .code ht rfl .nil
  | retValue ht he => exact .code ht rfl (.of_isCode he.isCode)
  | call hn hs => exact .code hn rfl (.of_isCode hs.isCode)
  | expression he => exact .of_isCode he.isCode
  | definition ht hn hps hb ih =>
    have hparams := Nested.of_isCode fun p hp => isCode_of_kind (hps p hp) rfl
    exact .code ht rfl (.code hn rfl (hparams.append (ih hclosed)))
  | loop ht he hb ih => exact .code ht rfl ((Nested.of_isCode he.isCode).append (ih hclosed))
  | condition ht hs ih => exact .code ht rfl (ih hclosed)
  | noElse he hb ih => exact (Nested.of_isCode he.isCode).append (ih hclosed)
  | withElse he hb ht ho ihb iho =>
    exact ((Nested.of_isCode he.isCode).append (ihb rfl)).append (.code ht rfl (iho hclosed))
  | elseIf he hb ht ht' hs ihb ihs =>
    exact ((Nested.of_isCode he.isCode).append (ihb rfl)).append
      (.code ht rfl (.code ht' rfl (ihs hclosed)))
  | elsif he hb ht hs ihb ihs =>
    exact ((Nested.of_isCode he.isCode).append (ihb rfl)).append (.code ht rfl (ihs hclosed))
  | closedBlock hnl hn hi hb hd ih =>
    have hheader := Nested.of_newlines (List.forall_mem_cons.mpr ⟨hnl, hn⟩)
    rw [List.append_assoc]
    exact hheader.append (.block hi (ih rfl) hd .nil)
  | openBlock => cases hclosed
  | nil => exact .nil
  | cons hs hn hr hend hopen ihs ihr =>
    obtain ⟨hs', hr'⟩ := Bool.and_eq_true_iff.mp hclosed
    exact ((ihs hs').append (.of_newlines hn)).append (ihr hr')

section block

variable {i d : Token} {w rest : List Token}

theorem leaveBlock_nested (hw : Nested w) (inner : Nat) (rest : List Token) :
    leaveBlock inner (w ++ rest) = leaveBlock inner rest := by
  induction hw generalizing inner rest with
  | nil => rfl
  | token hi hd _ ih =>
    rw [List.cons_append, leaveBlock_other hi hd, ih]
  | @block i d u v hi _ hd _ ihu ihv =>
    rw [List.append_assoc, List.cons_append, leaveBlock_indent hi, ihu, List.cons_append,
      leaveBlock, if_neg (by simp [hd]), if_pos hd, ihv]

theorem skipOrphan_block (hi : i.kind = .indent) (hw : Nested w) (hd : d.kind = .dedent) :
    skipOrphan (i :: (w ++ d :: rest)) = skipNewlines rest := by
  rw [skipOrphan, if_pos hi, leaveBlock_nested hw, leaveBlock, if_neg (by simp [hd]), if_pos hd]

theorem synchronizeAfter_line {q n : Token} {y : List Token} (hq : q.kind ≠ .newline)
    (hy : ∀ t ∈ y, t.kind ≠ .newline ∧ resumesAt t.kind = false) (hn : n.kind = .newline)
    (rest : List Token) : synchronizeAfter q (y ++ n :: rest) = rest := by
  induction y generalizing q with
  | nil =>
    rw [List.nil_append, synchronizeAfter, if_neg (by simp [hq, hn, resumesAt]),
      synchronizeAfter_newline hn]
  | cons t y ih =>
    obtain ⟨ht, hy⟩ := List.forall_mem_cons.mp hy
    rw [List.cons_append, synchronizeAfter, if_neg (by simp [hq, ht.2]), ih ht.1 hy]

/-- Reading goes on at the next line, or behind the block that begins there. -/
theorem resume_line {q n : Token} {y : List Token} (hq : q.kind ≠ .newline ∧ q.kind ≠ .indent)
    (hy : ∀ t ∈ y, t.kind ≠ .newline ∧ resumesAt t.kind = false) (hn : n.kind = .newline)
    (rest : List Token) : resume (q :: (y ++ n :: rest)) = skipOrphan rest := by
  have hi : startsWith .indent (q :: (y ++ n :: rest)) = false := by simp [startsWith, hq.2]
  rw [resume, hi, if_neg Bool.false_ne_true, synchronize, synchronizeAfter_line hq.1 hy hn]

end block

/-! ## Texts without empty lines -/

/-- No newline is directly behind another one: every line but perhaps the first has code. -/
def Compact (ts : List Token) : Prop := ts.IsChain fun t u => t.kind = .newline → u.kind ≠ .newline

theorem Compact.left {u v : List Token} (h : Compact (u ++ v)) : Compact u := h.left_of_append

theorem Compact.right {u v : List Token} (h : Compact (u ++ v)) : Compact v := h.right_of_append

theorem block_cases {body : List Stmt} {v : List Token} (h : (Clause.block body).Spelled true v)
    (hv : Compact v) :
    ∃ t i w d, v = t :: i :: (w ++ [d]) ∧ t.kind = .newline ∧ i.kind = .indent ∧
      d.kind = .dedent ∧ (Clause.statements body).Spelled true w := by
  generalize hclosed : true = closed at h
  cases h with
  | @closedBlock n t i d _ w hnl hn hi hb hd =>
    cases n with
    | nil => exact ⟨t, i, w, d, rfl, hnl, hi, hd, hb⟩
    | cons t' n =>
      refine absurd (hn t' List.mem_cons_self) ?_
      exact (List.isChain_cons_cons.mp hv).1 hnl
  | openBlock => cases hclosed

/-! ## Branches -/

mutual

/-- The words that the branches of a condition begin with, up to the first `ELSE`. The tokens are
those behind the word of the condition, where `depth` blocks have begun since. -/
def branchWords (depth : Nat) : List Token → List Token
  | [] => []
  | t :: ts =>
    if t.kind = .indent then branchWords (depth + 1) ts
    else if t.kind = .dedent then
      if depth = 1 then branchWordsAt ts else branchWords (depth - 1) ts
    else branchWords depth ts

/-- The words that branches begin with, directly behind the block before them. -/
def branchWordsAt : List Token → List Token
  | [] => []
  | t :: ts =>
    if t.kind = .keyword .elsifStmt then t :: branchWords 0 ts
    else if t.kind = .keyword .elseStmt then [t]
    else []

end

section words

variable {t d : Token} {w ts : List Token} {depth : Nat}

theorem branchWords_other (hi : t.kind ≠ .indent) (hd : t.kind ≠ .dedent) :
    branchWords depth (t :: ts) = branchWords depth ts := by
  rw [branchWords, if_neg hi, if_neg hd]

theorem branchWords_indent (hi : t.kind = .indent) :
    branchWords depth (t :: ts) = branchWords (depth + 1) ts := by
  rw [branchWords, if_pos hi]

theorem branchWords_dedent (hd : t.kind = .dedent) :
    branchWords (depth + 2) (t :: ts) = branchWords (depth + 1) ts := by
  rw [branchWords, if_neg (by simp [hd]), if_pos hd, if_neg (by omega)]
  rfl

theorem branchWords_flat (hw : ∀ t ∈ w, t.kind ≠ .indent ∧ t.kind ≠ .dedent) :
    branchWords depth (w ++ ts) = branchWords depth ts := by
  induction w with
  | nil => rfl
  | cons t w ih =>
    obtain ⟨ht, hw⟩ := List.forall_mem_cons.mp hw
    rw [List.cons_append, branchWords_other ht.1 ht.2, ih hw]

theorem branchWords_nested (hw : Nested w) (depth : Nat) (ts : List Token) :
    branchWords (depth + 1) (w ++ ts) = branchWords (depth + 1) ts := by
  induction hw generalizing depth ts with
  | nil => rfl
  | token hi hd _ ih => rw [List.cons_append, branchWords_other hi hd, ih]
  | block hi _ hd _ ihu ihv =>
    rw [List.append_assoc, List.cons_append, branchWords_indent hi, ihu, List.cons_append,
      branchWords_dedent hd, ihv]

theorem branchWords_block {i : Token} (hi : i.kind = .indent) (hw : Nested w)
    (hd : d.kind = .dedent) : branchWords 0 (i :: (w ++ d :: ts)) = branchWordsAt ts := by
  rw [branchWords_indent hi, branchWords_nested hw, branchWords, if_neg (by simp [hd]), if_pos hd,
    if_pos rfl]

theorem branchWordsAt_of_endsCondition (h : Ahead EndsCondition ts) : branchWordsAt ts = [] := by
  cases ts with
  | nil => rfl
  | cons t ts =>
    obtain ⟨helse, helsif⟩ := ahead_cons.mp h
    rw [branchWordsAt, if_neg helsif, if_neg helse]

theorem branchWordsAt_else (ht : t.kind = .keyword .elseStmt) : branchWordsAt (t :: ts) = [t] := by
  rw [branchWordsAt, if_neg (by simp [ht]), if_pos ht]

theorem branchWordsAt_elsif (ht : t.kind = .keyword .elsifStmt) :
    branchWordsAt (t :: ts) = t :: branchWords 0 ts := by
  rw [branchWordsAt, if_pos ht]

end words

/-! ## How reading ends -/

/-- The reply leaves `rest`, with a result or with a failure. -/
def Reply.Ends {α : Type} {k : Nat} {ts : List Token} (r : Reply α k ts)
    (failure : Option SyntaxError) (rest : List Token) : Prop :=
  match r with
  | .ok _ rest' _ => failure = none ∧ rest' = rest
  | .fail e rest' _ => failure = some e ∧ rest' = rest

namespace Traced

variable {α β : Type} {k : Nat} {ts rest : List Token} {es : List SyntaxError}
  {failure : Option SyntaxError}

/-- The errors `es` were noted on the way to the end of the reply. -/
def Ends (r : Traced α k ts) (es : List SyntaxError) (failure : Option SyntaxError)
    (rest : List Token) : Prop :=
  r.errors = es ∧ r.reply.Ends failure rest

theorem Gives.ends {r : Traced α k ts} {a : α} (h : r.Gives a rest) : r.Ends [] none rest := by
  obtain ⟨hes, hle, hreply⟩ := h
  refine ⟨hes, ?_⟩
  rw [hreply]
  exact ⟨rfl, rfl⟩

theorem ends_map {f : α → β} {r : Traced α k ts} (h : r.Ends es failure rest) :
    (r.map f).Ends es failure rest := by
  obtain ⟨es', reply⟩ := r
  cases reply <;> exact h

theorem ends_behind {t : Token} {r : Traced α k ts} (h : r.Ends es failure rest) :
    (r.behind t).Ends es failure rest := by
  obtain ⟨es', reply⟩ := r
  cases reply <;> exact h

theorem ends_loosen {r : Traced α k ts} (h : r.Ends es failure rest) :
    r.loosen.Ends es failure rest := by
  obtain ⟨es', reply⟩ := r
  cases reply <;> exact h

variable {j : Nat} {r : Traced α k ts}
  {f : (a : α) → (rest : List Token) → rest.length + k ≤ ts.length → Traced β j rest}

theorem Ends.andThen {mid : List Token} {es' : List SyntaxError} (h : r.Ends es none mid)
    (hf : ∀ a hle, (f a mid hle).Ends es' failure rest) :
    (r.andThen f).Ends (es ++ es') failure rest := by
  obtain ⟨es₁, reply⟩ := r
  obtain ⟨rfl, hreply⟩ := h
  cases reply with
  | fail e mid' hle => cases hreply.1
  | ok a mid' hle =>
    obtain ⟨-, rfl⟩ := hreply
    have hnext := hf a hle
    unfold Traced.andThen
    simp only
    generalize f a mid' hle = s at hnext
    obtain ⟨es₂, reply'⟩ := s
    obtain ⟨rfl, hreply'⟩ := hnext
    cases reply' <;> exact ⟨rfl, hreply'⟩

theorem Ends.andThen_failure {e : SyntaxError} (h : r.Ends es (some e) rest) :
    (r.andThen f).Ends es (some e) rest := by
  obtain ⟨es₁, reply⟩ := r
  cases reply with
  | fail e' mid hle => exact h
  | ok a mid hle => cases h.2.1

end Traced

/-! ## Errors between statements -/

/-- Where statements are read from `ts` on, the errors `es` are found before reading comes to `ts'`.
-/
def Leads (stop : Position) (inside : Bool) (ts : List Token) (es : List SyntaxError)
    (ts' : List Token) : Prop :=
  (statements stop inside ts).errors = es ++ (statements stop inside ts').errors ∧
    (statements stop inside ts).rest = (statements stop inside ts').rest

namespace Leads

variable {stop : Position} {inside : Bool} {t : Token} {ts ts' ts'' mid : List Token}
  {es es' : List SyntaxError}

theorem refl : Leads stop inside ts [] ts := ⟨rfl, rfl⟩

theorem trans (h : Leads stop inside ts es ts') (h' : Leads stop inside ts' es' ts'') :
    Leads stop inside ts (es ++ es') ts'' :=
  ⟨by rw [h.1, h'.1, List.append_assoc], h.2.trans h'.2⟩

theorem of_ok (ht : t.kind ≠ .dedent) (h : (statement stop (t :: ts)).Ends es none mid) :
    Leads stop inside (t :: ts) es (skipNewlines mid) := by
  have hend : ¬(inside && t.kind == .dedent) = true := by simp [ht]
  unfold Leads
  rw [statements.eq_def stop inside (t :: ts)]
  simp only [if_neg hend]
  cases hs : statement stop (t :: ts) with
  | mk es₁ reply =>
    rw [hs] at h
    obtain ⟨rfl, hreply⟩ := h
    cases reply with
    | fail e rest hle => cases hreply.1
    | ok s rest hle =>
      obtain ⟨-, rfl⟩ := hreply
      exact ⟨rfl, rfl⟩

theorem of_failure {e : SyntaxError} (ht : t.kind ≠ .dedent)
    (h : (statement stop (t :: ts)).Ends es (some e) mid) :
    Leads stop inside (t :: ts) (es ++ [e]) (resume mid) := by
  have hend : ¬(inside && t.kind == .dedent) = true := by simp [ht]
  unfold Leads
  rw [statements.eq_def stop inside (t :: ts)]
  simp only [if_neg hend]
  cases hs : statement stop (t :: ts) with
  | mk es₁ reply =>
    rw [hs] at h
    obtain ⟨rfl, hreply⟩ := h
    cases reply with
    | ok s rest hle => cases hreply.1
    | fail e' rest hle =>
      obtain ⟨he, rfl⟩ := hreply
      cases he
      exact ⟨by simp, rfl⟩

end Leads

/-! ## Lost branches -/

/-- No expression begins with this token. -/
def missing (t : Token) : SyntaxError := ⟨.expectedExpression t.describe, t.pos⟩

theorem passed_of_spelled {ph : Phrase} {w : List Token} (h : ph.Spelled w) :
    ∀ t ∈ w, t.kind ≠ .newline ∧ resumesAt t.kind = false := by
  intro t ht
  have hphrase := h.inPhrase t ht
  generalize t.kind = k at hphrase
  refine ⟨?_, ?_⟩
  · rintro rfl
    cases hphrase
  · unfold resumesAt
    split
    all_goals first | rfl | cases hphrase

section lost

variable {stop : Position} {inside : Bool} {rest : List Token}

theorem leads_branch {t : Token} {ts ts' : List Token}
    (ht : t.kind = .keyword .elseStmt ∨ t.kind = .keyword .elsifStmt)
    (hresume : resume (t :: ts) = ts') :
    Leads stop inside (skipNewlines (t :: ts)) [missing t] ts' := by
  have hskip : skipNewlines (t :: ts) = t :: ts :=
    skipNewlines_of_ahead (by rcases ht with ht | ht <;> simp [ht])
  have hends : (statement stop (t :: ts)).Ends [] (some (missing t)) (t :: ts) := by
    rw [statement_unopened (by rcases ht with ht | ht <;> rw [ht] <;> rfl)
      (by rcases ht with ht | ht <;> rw [ht] <;> rfl)]
    exact ⟨rfl, rfl, rfl⟩
  rw [hskip, ← hresume]
  exact Leads.of_failure (by rcases ht with ht | ht <;> simp [ht]) hends

/-- The block below a lost header is passed over, and behind it there may be branches. -/
theorem block_behind {body : List Stmt} {v : List Token} (h : (Clause.block body).Spelled true v)
    (hv : Compact v) :
    ∃ n vs, v = n :: vs ∧ n.kind = .newline ∧ ∀ ts,
      skipOrphan (vs ++ ts) = skipNewlines ts ∧ branchWords 0 (vs ++ ts) = branchWordsAt ts := by
  obtain ⟨n, i, u, d, rfl, hn, hi, hd, hu⟩ := block_cases h hv
  have hnested := spelled_nested hu rfl
  refine ⟨n, i :: (u ++ [d]), rfl, hn, fun ts => ?_⟩
  have happend : i :: (u ++ [d]) ++ ts = i :: (u ++ d :: ts) := by simp
  rw [happend]
  exact ⟨skipOrphan_block hi hnested hd, branchWords_block hi hnested hd⟩

theorem resume_word {t u : Token} (ht : t.kind ≠ .newline ∧ t.kind ≠ .indent)
    (hu : resumesAt u.kind = true) (ts : List Token) : resume (t :: u :: ts) = u :: ts := by
  have hi : startsWith .indent (t :: u :: ts) = false := by simp [startsWith, ht.2]
  have hindent : u.kind ≠ .indent := by
    intro hk
    rw [hk] at hu
    cases hu
  rw [resume, hi, if_neg Bool.false_ne_true, synchronize, synchronizeAfter, if_pos (.inr hu),
    skipOrphan, if_neg hindent]

/-- Behind the block of a lost condition, each of its branches is an error, up to the first `ELSE`.
Then reading goes on behind the condition. -/
theorem leads_branches (stop : Position) {s : Stmt} {closed : Bool} {w : List Token}
    (h : (Clause.condition s).Spelled closed w) (hclosed : closed = true) (hf : s.fits = true)
    (hw : Compact w) :
    ∃ test x n vs, w = x ++ n :: vs ∧ (Phrase.expr test).Spelled x ∧ n.kind = .newline ∧
      ∀ inside rest, Ahead EndsCondition rest →
        Leads stop inside (skipOrphan (vs ++ rest)) ((branchWords 0 (vs ++ rest)).map missing)
          (skipNewlines rest) := by
  generalize hc : Clause.condition s = c at h
  induction h generalizing s with
  | @noElse test body closed x v he hb =>
    subst hclosed
    obtain ⟨n, vs, rfl, hn, hbehind⟩ := block_behind hb hw.right
    refine ⟨test, x, n, vs, rfl, he, hn, fun inside rest hrest => ?_⟩
    rw [(hbehind rest).1, (hbehind rest).2, branchWordsAt_of_endsCondition hrest]
    exact Leads.refl
  | @withElse t test body other closed x v w he hb ht ho =>
    subst hclosed
    obtain ⟨n, vs, rfl, hn, hbehind⟩ := block_behind hb hw.left.right
    obtain ⟨n', vs', rfl, hn', hbehind'⟩ := block_behind ho hw.right.tail
    refine ⟨test, x, n, vs ++ t :: n' :: vs', by simp, he, hn, fun inside rest hrest => ?_⟩
    have hresume : resume (t :: n' :: (vs' ++ rest)) = skipNewlines rest := by
      rw [← (hbehind' rest).1]
      exact resume_line (y := []) (by simp [ht]) (by simp) hn' _
    rw [List.append_assoc, (hbehind _).1, (hbehind _).2, List.cons_append, List.cons_append,
      branchWordsAt_else ht]
    exact leads_branch (.inl ht) hresume
  | @elseIf t t' test body s' closed x v w he hb ht ht' hs _ ihs =>
    subst hclosed
    cases hc
    obtain ⟨n, vs, rfl, hn, hbehind⟩ := block_behind hb hw.left.right
    refine ⟨test, x, n, vs ++ t :: t' :: w, by simp, he, hn, fun inside rest hrest => ?_⟩
    have hresume : resume (t :: t' :: (w ++ rest)) = t' :: (w ++ rest) :=
      resume_word (by simp [ht]) (by rw [ht']; rfl) _
    -- behind `ELSE` there is a whole condition
    have hfits : s'.fits = true := by
      simp only [Stmt.fits, fitBody, Bool.and_true, Bool.and_eq_true] at hf
      exact hf.2
    have hread : (statement stop (t' :: (w ++ rest))).Gives s' rest :=
      (gives_if ht').mpr (spelled_readBack hs hfits rest (by simp) hrest)
    have hnext : Leads stop inside (t' :: (w ++ rest)) [] (skipNewlines rest) :=
      Leads.of_ok (by simp [ht']) hread.ends
    rw [List.append_assoc, (hbehind _).1, (hbehind _).2, List.cons_append, List.cons_append,
      branchWordsAt_else ht]
    exact (leads_branch (.inl ht) hresume).trans hnext
  | @elsif t test body s' closed x v w he hb ht hs _ ihs =>
    subst hclosed
    cases hc
    obtain ⟨n, vs, rfl, hn, hbehind⟩ := block_behind hb hw.left.right
    have hfits : s'.fits = true := by
      simp only [Stmt.fits, fitBody, Bool.and_true, Bool.and_eq_true] at hf
      exact hf.2
    obtain ⟨test', x', n', vs', rfl, he', hn', ih⟩ := ihs rfl hfits hw.right.tail rfl
    refine ⟨test, x, n, vs ++ t :: (x' ++ n' :: vs'), by simp, he, hn, fun inside rest hrest => ?_⟩
    have hresume : resume (t :: (x' ++ n' :: (vs' ++ rest))) = skipOrphan (vs' ++ rest) :=
      resume_line (by simp [ht]) (passed_of_spelled he') hn' _
    have hwords : branchWords 0 (x' ++ n' :: (vs' ++ rest)) = branchWords 0 (vs' ++ rest) := by
      rw [branchWords_flat (flat_of_isCode he'.isCode),
        branchWords_other (by simp [hn']) (by simp [hn'])]
    have happend : vs ++ t :: (x' ++ n' :: vs') ++ rest =
        vs ++ t :: (x' ++ n' :: (vs' ++ rest)) := by simp
    rw [happend, (hbehind _).1, (hbehind _).2, branchWordsAt_elsif ht, hwords]
    exact (leads_branch (.inr ht) hresume).trans (ih inside rest hrest)
  | _ => cases hc

end lost

end Offside.Grammar
