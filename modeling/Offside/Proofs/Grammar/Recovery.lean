import Offside.Proofs.Grammar.Robustness
import Offside.Proofs.Grammar.Stretching
import Offside.Proofs.Run.Concatenation

/-!
# Recovery with an empty line put in

After an error, reading goes on directly behind the newline of the line that is spoiled
(`synchronize`). An empty line there is not passed over: it is read as a statement, and that is an
error of its own. Everywhere else a newline is followed by others as well as by none. So the readers
of statements come to the same end with an empty line put in, with at most one error more
(`statementsTrack`).
-/

namespace Offside.Grammar

/-! ## Recovery -/

section recovery

variable {k : Nat} {past : Bool} {t : Token} {all ts ts' : List Token}

theorem skipNewlines_stretch (ts : List Token) :
    skipNewlines (stretch k ts) = stretch k (skipNewlines ts) := by
  induction ts with
  | nil => rfl
  | cons t ts ih =>
    by_cases ht : t.kind = .newline
    · have hskip : skipNewlines (t :: ts) = skipNewlines ts :=
        List.dropWhile_cons_of_pos (by simp [ht])
      have hskip' : skipNewlines (stretch k (t :: ts)) = skipNewlines (stretch k ts) := by
        have ht' : (t.move (.below k)).kind = .newline := ht
        unfold skipNewlines
        rw [stretch, List.dropWhile_cons_of_pos (by simp [ht'])]
        split_ifs
        · exact List.dropWhile_cons_of_pos rfl
        · rfl
      rw [hskip, hskip', ih]
    · have ht' : (t.move (.below k)).kind ≠ .newline := ht
      unfold skipNewlines
      rw [stretch_cons ht, List.dropWhile_cons_of_neg (by simpa using ht'),
        List.dropWhile_cons_of_neg (by simpa using ht), stretch_cons ht]

theorem leaveBlock_indent (ht : t.kind = .indent) (inner : Nat) (ts : List Token) :
    leaveBlock inner (t :: ts) = leaveBlock (inner + 1) ts := by
  rw [leaveBlock.eq_def]
  simp only [if_pos ht]

theorem leaveBlock_other (hi : t.kind ≠ .indent) (hd : t.kind ≠ .dedent) (inner : Nat)
    (ts : List Token) : leaveBlock inner (t :: ts) = leaveBlock inner ts := by
  rw [leaveBlock.eq_def]
  simp only [if_neg hi, if_neg hd]

theorem leaveBlock_stretch (inner : Nat) (ts : List Token) :
    leaveBlock inner (stretch k ts) = stretch k (leaveBlock inner ts) := by
  induction ts generalizing inner with
  | nil => rfl
  | cons t ts ih =>
    by_cases hi : t.kind = .indent
    · have hi' : (t.move (.below k)).kind = .indent := hi
      rw [stretch_cons (by simp [hi]), leaveBlock_indent hi', leaveBlock_indent hi, ih]
    · have hi' : (t.move (.below k)).kind ≠ .indent := hi
      by_cases hd : t.kind = .dedent
      · have hd' : (t.move (.below k)).kind = .dedent := hd
        rw [stretch_cons (by simp [hd])]
        cases inner with
        | zero => rw [leaveBlock, if_neg hi', if_pos hd', leaveBlock, if_neg hi, if_pos hd]
        | succ n => rw [leaveBlock, if_neg hi', if_pos hd', leaveBlock, if_neg hi, if_pos hd, ih]
      · have hd' : (t.move (.below k)).kind ≠ .dedent := hd
        rw [stretch, leaveBlock_other hi' hd', leaveBlock_other hi hd, ← ih]
        split_ifs
        · exact leaveBlock_other (by simp [emptyLine]) (by simp [emptyLine]) _ _
        · rfl

theorem skipOrphan_stretch (ts : List Token) :
    skipOrphan (stretch k ts) = stretch k (skipOrphan ts) := by
  cases ts with
  | nil => rfl
  | cons t ts =>
    by_cases ht : t.kind = .indent
    · have ht' : (t.move (.below k)).kind = .indent := ht
      rw [stretch_cons (by simp [ht]), skipOrphan, if_pos ht', skipOrphan, if_pos ht,
        leaveBlock_stretch, skipNewlines_stretch]
    · have ht' : (t.move (.below k)).kind ≠ .indent := ht
      rw [skipOrphan, if_neg ht, stretch, skipOrphan, if_neg ht']

theorem leaveBlock_suffix (inner : Nat) (ts : List Token) : leaveBlock inner ts <:+ ts := by
  fun_induction leaveBlock inner ts with
  | case1 => exact List.suffix_refl _
  | case3 => exact List.suffix_cons _ _
  | case2 _ _ _ _ ih => exact ih.trans (List.suffix_cons _ _)
  | case4 _ _ _ _ _ ih => exact ih.trans (List.suffix_cons _ _)
  | case5 _ _ _ _ _ ih => exact ih.trans (List.suffix_cons _ _)

theorem skipOrphan_suffix (ts : List Token) : skipOrphan ts <:+ ts := by
  cases ts with
  | nil => exact List.suffix_refl _
  | cons t ts =>
    rw [skipOrphan]
    split_ifs
    · exact ((List.dropWhile_suffix _).trans (leaveBlock_suffix 0 ts)).trans (List.suffix_cons _ _)
    · exact List.suffix_refl _

theorem Stretched.of_suffix {us : List Token} (h : Stretched all k past ts ts') (hus : us <:+ ts) :
    Stretched all k past us (stretch k us) := by
  have hsuffix := hus.trans h.suffix
  obtain ⟨vs, rfl⟩ := hus
  obtain ⟨l, hl, hpast⟩ := h.lined
  exact ⟨hsuffix,
    ⟨_, (Lined.append.mp hl).2, fun hp => (hpast hp).trans (Nat.le_add_right _ _)⟩, rfl⟩

theorem Stretched.skipNewlines (h : Stretched all k past ts ts') :
    Stretched all k past (Grammar.skipNewlines ts) (Grammar.skipNewlines ts') := by
  rw [h.eq, skipNewlines_stretch]
  exact h.of_suffix (List.dropWhile_suffix _)

theorem Behind.skipNewlines (h : Behind all k past ts ts') :
    Stretched all k past (Grammar.skipNewlines ts) (Grammar.skipNewlines ts') := by
  obtain h | ⟨-, us', rfl, h⟩ := h
  · exact h.skipNewlines
  · exact h.skipNewlines.weaken

theorem Stretched.skipOrphan (h : Stretched all k past ts ts') :
    Stretched all k past (Grammar.skipOrphan ts) (Grammar.skipOrphan ts') := by
  rw [h.eq, skipOrphan_stretch]
  exact h.of_suffix (skipOrphan_suffix ts)

theorem synchronizeAfter_newline (ht : t.kind = .newline) (ts : List Token) :
    synchronizeAfter t ts = ts := by
  cases ts with
  | nil => rfl
  | cons u ts => rw [synchronizeAfter, if_pos (.inl ht)]

theorem resumesInLine_newline (ht : t.kind = .newline) (ts : List Token) :
    resumesInLine (t :: ts) = false := by
  simp [resumesInLine, ht]

theorem resumesInLine_cons {u : Token} (ht : t.kind ≠ .newline) (ts : List Token) :
    resumesInLine (t :: u :: ts) = (resumesAt u.kind || resumesInLine (u :: ts)) := by
  by_cases hu : u.kind = .newline
  · simp [resumesInLine, ht, hu, resumesAt]
  · simp [resumesInLine, ht, hu]

theorem synchronizeAfter_newline_tracks
    (h : Stretched all k past (t :: ts) (t.move (.below k) :: ts')) (ht : t.kind = .newline) :
    Stretched all k past (synchronizeAfter t ts) (synchronizeAfter (t.move (.below k)) ts') ∧
        (t.pos.line + 1 = k → resumesInLine (t :: ts) = true ∨ ∀ u ∈ t :: ts, u.kind ≠ .newline) ∨
      past = false ∧ t.pos.line + 1 = k ∧ resumesInLine (t :: ts) = false ∧
        AtEmptyLine all k (synchronizeAfter t ts) (synchronizeAfter (t.move (.below k)) ts') := by
  have ht' : (t.move (.below k)).kind = .newline := ht
  rw [synchronizeAfter_newline ht, synchronizeAfter_newline ht']
  cases hends : endsBefore k t with
  | false =>
    refine .inl ⟨h.tail_of_not hends, fun hk => ?_⟩
    simp [endsBefore, ht, hk] at hends
  | true =>
    obtain ⟨hpast, hk, hempty⟩ := h.atEmptyLine hends
    exact .inr ⟨hpast, hk, resumesInLine_newline ht ts, hempty⟩

/-- Recovery stops behind the same token. That may be the newline before the empty line, and then
`t` is on that line. It is, if the line is ended and nothing on it takes up a statement. -/
theorem synchronizeAfter_tracks
    (h : Stretched all k past (t :: ts) (t.move (.below k) :: ts')) :
    Stretched all k past (synchronizeAfter t ts) (synchronizeAfter (t.move (.below k)) ts') ∧
        (t.pos.line + 1 = k → resumesInLine (t :: ts) = true ∨ ∀ u ∈ t :: ts, u.kind ≠ .newline) ∨
      past = false ∧ t.pos.line + 1 = k ∧ resumesInLine (t :: ts) = false ∧
        AtEmptyLine all k (synchronizeAfter t ts) (synchronizeAfter (t.move (.below k)) ts') := by
  induction ts generalizing t ts' with
  | nil =>
    by_cases ht : t.kind = .newline
    · exact synchronizeAfter_newline_tracks h ht
    · obtain rfl := (h.tail ht).eq_nil
      exact .inl ⟨h.tail ht, fun _ => .inr (by simpa using ht)⟩
  | cons u ts ih =>
    by_cases ht : t.kind = .newline
    · exact synchronizeAfter_newline_tracks h ht
    · have ht' : (t.move (.below k)).kind ≠ .newline := ht
      have htail := h.tail ht
      obtain ⟨us', rfl, -⟩ := htail.head
      rw [synchronizeAfter, synchronizeAfter, resumesInLine_cons ht]
      -- both stop at a word that takes up a statement, wherever it has moved to
      by_cases hu : resumesAt u.kind = true
      · have hu' : resumesAt (u.move (.below k)).kind = true := hu
        rw [if_pos (.inr hu), if_pos (.inr hu'), hu]
        exact .inl ⟨htail, fun _ => .inl rfl⟩
      · have hu' : ¬resumesAt (u.move (.below k)).kind = true := hu
        rw [if_neg (not_or.mpr ⟨ht, hu⟩), if_neg (not_or.mpr ⟨ht', hu'⟩),
          ← h.line ht u rfl, Bool.eq_false_iff.mpr hu, Bool.false_or]
        refine (ih htail).imp_left fun ⟨hrest, hends⟩ => ⟨hrest, fun hk => ?_⟩
        exact (hends hk).imp_right fun hnone => List.forall_mem_cons.mpr ⟨ht, hnone⟩

theorem resume_newline (ht : t.kind = .newline) (ts : List Token) :
    resume (t :: ts) = skipOrphan ts := by
  have hi : startsWith .indent (t :: ts) = false := by simp [startsWith, ht]
  rw [resume, hi, if_neg Bool.false_ne_true, synchronize, synchronizeAfter_newline ht]

/-- Reading goes on at the same place, or else at the empty line, if the line before is lost. -/
theorem resume_tracks {l : Nat} (h : Stretched all k past ts ts')
    (hline : ∀ u ∈ ts.head?, u.pos.line = l) :
    Stretched all k past (resume ts) (resume ts') ∧
        (l + 1 = k → losesLine ts = true → ∀ u ∈ ts, u.kind ≠ .newline) ∨
      past = false ∧ l + 1 = k ∧ losesLine ts = true ∧
        ∃ us', resume ts' = emptyLine k :: us' ∧
          Stretched all k true (resume ts) (skipOrphan us') := by
  cases ts with
  | nil =>
    obtain rfl := h.eq_nil
    exact .inl ⟨h, by simp⟩
  | cons t ts =>
    obtain ⟨us', rfl, -⟩ := h.head
    by_cases ht : t.kind = .indent
    · have hi : startsWith .indent (t :: ts) = true := by simp [startsWith, ht]
      have hi' : startsWith .indent (t.move (.below k) :: us') = true := hi
      rw [resume, resume, if_pos hi, if_pos hi']
      exact .inl ⟨h.skipOrphan, fun _ hloses => by simp [losesLine, hi] at hloses⟩
    · have hi : startsWith .indent (t :: ts) = false := by simp [startsWith, ht]
      have hi' : startsWith .indent (t.move (.below k) :: us') = false := hi
      have hloses : losesLine (t :: ts) = !resumesInLine (t :: ts) := by simp [losesLine, hi]
      rw [resume, resume, hi, hi', if_neg Bool.false_ne_true, if_neg Bool.false_ne_true,
        synchronize, synchronize, hloses, ← hline t rfl]
      -- a line that is lost to its end leaves the empty line in front
      rcases synchronizeAfter_tracks h with ⟨hrest, hends⟩ | ⟨hpast, hk, hnone, vs', heq, hvs⟩
      · refine .inl ⟨hrest.skipOrphan, fun hk hnone => (hends hk).resolve_left fun hsome => ?_⟩
        rw [hsome] at hnone
        cases hnone
      · rw [heq, hnone]
        exact .inr ⟨hpast, hk, rfl, vs', rfl, hvs.skipOrphan⟩

end recovery

/-! ## What begins no expression -/

def opensExpression : Kind → Bool
  | .number | .text | .identifier | .command | .keyword .trueLit | .keyword .falseLit
  | .keyword .noneLit | .keyword .notOp | .symbol .leftParen | .symbol .plus | .symbol .minus
  | .symbol .tilde => true
  | _ => false

section unopened

variable {stop : Position} {t : Token}

theorem leaf?_of_not_opens (ht : opensExpression t.kind = false) : leaf? t = none := by
  unfold leaf?
  split <;> simp_all [opensExpression]

theorem signOperator?_of_not_opens {k : Kind} (hk : opensExpression k = false) :
    signOperator? k = none := by
  unfold signOperator?
  split <;> simp_all [opensExpression]

theorem expression_of_not_opens (ht : opensExpression t.kind = false) (tier : Tier)
    (ts : List Token) :
    expression stop tier (t :: ts) =
      .fail ⟨.expectedExpression t.describe, t.pos⟩ (t :: ts) (Nat.le_refl _) := by
  have hne : ∀ k, opensExpression k = true → t.kind ≠ k := by
    rintro k hk rfl
    rw [ht] at hk
    cases hk
  induction hrank : tier.rank using Nat.strong_induction_on generalizing tier with
  | _ n ih =>
    have hlower : ∀ tier' : Tier, tier'.rank < tier.rank → expression stop tier' (t :: ts) =
        .fail ⟨.expectedExpression t.describe, t.pos⟩ (t :: ts) (Nat.le_refl _) :=
      fun tier' hlt => ih tier'.rank (hrank ▸ hlt) tier' rfl
    cases tier with
    | conditional =>
      rw [expression, hlower (.level .disjunction) (by decide)]
      rfl
    | level l =>
      rw [expression, hlower l.operands (Level.rank_operands_lt l)]
      rfl
    | inversion => rw [expression, if_neg (hne _ rfl), hlower .comparison (by decide)]
    | comparison =>
      rw [expression, hlower (.level .bitOr) (by decide)]
      rfl
    | signed =>
      rw [expression, signOperator?_of_not_opens ht, hlower .power (by decide)]
    | power =>
      rw [expression, hlower .atom (by decide)]
      rfl
    | atom =>
      rw [expression.eq_def]
      simp only [leaf?_of_not_opens ht]
      rw [if_neg (hne _ rfl)]

theorem statement_unopened (hs : opensStatement t.kind = false)
    (he : opensExpression t.kind = false) (ts : List Token) :
    statement stop (t :: ts) =
      ⟨[], .fail ⟨.expectedExpression t.describe, t.pos⟩ (t :: ts) (Nat.le_refl _)⟩ := by
  rw [statement_of_not_opens hs, expressionStatement, expression_of_not_opens he]
  rfl

theorem statements_emptyLine {k : Nat} {ts us : List Token} (h : ts = emptyLine k :: us)
    (stop : Position) (inside : Bool) :
    (statements stop inside ts).errors =
        emptyLineError k :: (statements stop inside (skipOrphan us)).errors ∧
      (statements stop inside ts).rest = (statements stop inside (skipOrphan us)).rest := by
  have hend : ¬(inside && (emptyLine k).kind == .dedent) = true := by simp [emptyLine]
  have hkind : (emptyLine k).kind = .newline := rfl
  rw [h, statements.eq_def stop inside (emptyLine k :: us)]
  simp only [if_neg hend, statement_unopened (t := emptyLine k) rfl rfl, List.nil_append]
  rw [resume_newline hkind]
  exact ⟨rfl, rfl⟩

end unopened

/-! ## Lines -/

namespace Traced.Tracks

variable {α : Type} {i j k : Nat} {stop : Position} {past : Bool} {all ts ts' : List Token}

theorem weaken {r : Traced α i ts} {r' : Traced α j ts'}
    (h : Tracks all k (Stretched all k) past r r') :
    Tracks all k (Behind all k) past r r' := by
  obtain ⟨es, reply⟩ := r
  obtain ⟨es', reply'⟩ := r'
  obtain ⟨past', hes, hreply⟩ := h
  cases reply with
  | fail e rest hle =>
    cases reply' with
    | fail e' rest' hle' => exact ⟨past', hes, hreply⟩
    | ok => cases hreply
  | ok a rest hle =>
    cases reply' with
    | fail => cases hreply
    | ok a' rest' hle' => exact ⟨past', hes, .inl hreply⟩

theorem endLine (h : Stretched all k past ts ts') :
    Tracks all k (Behind all k) past (Grammar.endLine stop ts).quiet
      (Grammar.endLine (stop.below k) ts').quiet := by
  cases ts with
  | nil =>
    obtain rfl := h.eq_nil
    exact ok (.inl h) _ _
  | cons t ts =>
    obtain ⟨us', rfl, hkind⟩ := h.head
    rw [Grammar.endLine, Grammar.endLine]
    by_cases hn : t.kind = .newline
    · rw [hkind, if_pos hn, if_pos hn]
      exact ok h.behind _ _
    · rw [hkind, if_neg hn, if_neg hn]
      by_cases hd : t.kind = .dedent
      · rw [if_pos hd, if_pos hd]
        exact ok (.inl h) _ _
      · rw [if_neg hd, if_neg hd]
        exact fail_cons h (.found h.suffix rfl) _ _

theorem parameters (hstop : k ≤ stop.line) (h : Stretched all k past ts ts') :
    Tracks all k (Stretched all k) past (Grammar.parameters ts).quiet
      (Grammar.parameters ts').quiet :=
  of_abreast ((stretched_companions hstop).parameters h)

theorem binding (hstop : k ≤ stop.line) (h : Stretched all k past ts ts') :
    Tracks all k (Behind all k) past (Grammar.binding stop ts).quiet
      (Grammar.binding (stop.below k) ts').quiet := by
  unfold Grammar.binding
  simp only [Reply.quiet_andThen]
  refine andThen (expect hstop (by decide) _ h) fun past name name' rest rest' _ _ h => ?_
  refine andThen (expression_tracks hstop _ h) fun past value value' rest rest' _ _ h => ?_
  exact map _ _ (endLine h)

theorem returnValue (hstop : k ≤ stop.line) (h : Stretched all k past ts ts') :
    Tracks all k (Stretched all k) past (Grammar.returnValue stop ts).quiet
      (Grammar.returnValue (stop.below k) ts').quiet := by
  have hend : atLineEnd ts' = atLineEnd ts := by
    cases ts with
    | nil =>
      obtain rfl := h.eq_nil
      rfl
    | cons t ts =>
      obtain ⟨us', rfl, -⟩ := h.head
      rfl
  unfold Grammar.returnValue
  rw [hend]
  by_cases ht : atLineEnd ts = true
  · rw [if_pos ht, if_pos ht]
    exact ok h _ _
  · rw [if_neg ht, if_neg ht, Reply.quiet_loosen, Reply.quiet_loosen, loosen_iff]
    exact map _ _ (expression_tracks hstop _ h)

theorem expressionStatement (hstop : k ≤ stop.line) (h : Stretched all k past ts ts') :
    Tracks all k (Behind all k) past (Grammar.expressionStatement stop ts).quiet
      (Grammar.expressionStatement (stop.below k) ts').quiet := by
  unfold Grammar.expressionStatement
  simp only [Reply.quiet_andThen]
  refine andThen (expression_tracks hstop _ h) fun past e e' rest rest' _ _ h => ?_
  exact map _ _ (endLine h)

end Traced.Tracks

/-! ## Statements -/

section block

variable (stop : Position) {t : Token} {ts rest : List Token}

theorem block_nil (h : skipNewlines ts = []) :
    ∃ hle, block stop ts = ⟨[], .fail ⟨.expected .block (describe []), stop⟩ [] hle⟩ := by
  rw [block.eq_def]
  simp only
  split
  · exact ⟨Nat.zero_le _, rfl⟩
  · simp_all

theorem block_other (h : skipNewlines ts = t :: rest) (ht : t.kind ≠ .indent) :
    ∃ hle, block stop ts = ⟨[], .fail ⟨.expected .block t.describe, t.pos⟩ (t :: rest) hle⟩ := by
  rw [block.eq_def]
  simp only
  split
  · simp_all
  · rename_i u us hus
    obtain ⟨rfl, rfl⟩ := List.cons.inj (h.symm.trans hus)
    rw [if_neg ht]
    exact ⟨h ▸ length_skipNewlines_le ts, rfl⟩

theorem block_indent (h : skipNewlines ts = t :: rest) (ht : t.kind = .indent) :
    ∃ hle, block stop ts = ⟨(statements stop true rest).errors,
      .ok (statements stop true rest).program (statements stop true rest).rest.tail hle⟩ := by
  have hlength : rest.length + 1 ≤ ts.length := by
    rw [← List.length_cons (a := t), ← h]
    exact length_skipNewlines_le ts
  rw [block.eq_def]
  simp only
  split
  · simp_all
  · rename_i u us hus
    obtain ⟨rfl, rfl⟩ := List.cons.inj (h.symm.trans hus)
    rw [if_pos ht]
    generalize statements stop true rest = r
    obtain ⟨es, body, left, hle⟩ := r
    cases left with
    | nil => exact ⟨le_trans (Nat.succ_le_succ (Nat.zero_le _)) hlength, rfl⟩
    | cons v left => exact ⟨(Nat.le_succ_of_le hle).trans hlength, rfl⟩

end block

theorem Stretched.tail_end {k : Nat} {past inside : Bool} {all ts ts' : List Token}
    (h : Stretched all k past ts ts') (hend : StatementsEnd inside ts) :
    Stretched all k past ts.tail ts'.tail := by
  cases ts with
  | nil =>
    obtain rfl := h.eq_nil
    exact h
  | cons t ts =>
    obtain ⟨us', rfl, -⟩ := h.head
    exact h.tail (by simp [(ahead_cons.mp hend).2])

/-- The statements read before and after the empty line has been put in. -/
def Statements.Tracks {ts ts' : List Token} (all : List Token) (k : Nat) (past : Bool)
    (r : Statements ts) (r' : Statements ts') : Prop :=
  ∃ past', Gains all k past past' r.errors r'.errors ∧ Stretched all k past' r.rest r'.rest

/-- The readers of statements track each other on tokens of a size below `n`. -/
structure StatementsTrack (all : List Token) (k : Nat) (stop : Position) (n : Nat) : Prop where
  statement {past : Bool} {ts ts' : List Token} (hn : 2 * ts.length < n)
    (h : Stretched all k past ts ts') :
    (statement stop ts).Tracks all k (Behind all k) past (statement (stop.below k) ts')
  condition {past : Bool} {ts ts' : List Token} (hn : 2 * ts.length < n)
    (h : Stretched all k past ts ts') :
    (condition stop ts).Tracks all k (Stretched all k) past (condition (stop.below k) ts')
  elseBranch {past : Bool} {ts ts' : List Token} (hn : 2 * ts.length + 1 < n)
    (h : Stretched all k past ts ts') :
    (elseBranch stop ts).Tracks all k (Stretched all k) past (elseBranch (stop.below k) ts')
  blockBelow {what : SyntaxError.Wanted} {past : Bool} {ts ts' : List Token}
    (hn : 2 * ts.length < n) (h : Stretched all k past ts ts') :
    (blockBelow stop what ts).Tracks all k (Stretched all k) past
      (blockBelow (stop.below k) what ts')
  block {past : Bool} {ts ts' : List Token} (hn : 2 * ts.length < n)
    (h : Behind all k past ts ts') :
    (block stop ts).Tracks all k (Stretched all k) past (block (stop.below k) ts')
  statements {inside : Bool} {past : Bool} {ts ts' : List Token} (hn : 2 * ts.length + 1 < n)
    (h : Stretched all k past ts ts') :
    (statements stop inside ts).Tracks all k past (statements (stop.below k) inside ts')

namespace StatementsTrack

variable {k n : Nat} {stop : Position} {past : Bool} {all ts ts' : List Token}

theorem statement_succ (hstop : k ≤ stop.line) (ih : StatementsTrack all k stop n)
    (hn : 2 * ts.length < n + 1) (h : Stretched all k past ts ts') :
    (Grammar.statement stop ts).Tracks all k (Behind all k) past
      (Grammar.statement (stop.below k) ts') := by
  cases ts with
  | nil =>
    obtain rfl := h.eq_nil
    rw [Grammar.statement, Grammar.statement]
    exact .expressionStatement hstop h
  | cons t ts =>
    obtain ⟨us', rfl, hkind⟩ := h.head
    rw [List.length_cons] at hn
    cases hopen : opensStatement t.kind with
    | false =>
      rw [statement_of_not_opens hopen, statement_of_not_opens (hkind ▸ hopen)]
      exact .expressionStatement hstop h
    | true =>
      have htail : t.kind ≠ .newline → Stretched all k past ts us' := h.tail
      rw [Grammar.statement.eq_def stop, Grammar.statement.eq_def (stop.below k)]
      simp only [hkind]
      rcases opensStatement_cases hopen with ht | ht | ht | ht | ht | ht | ht | ht | ht <;>
        rw [ht] at htail ⊢ <;> simp only [Traced.Tracks.behind_iff, Reply.quiet_map]
      · exact .map _ _ (.binding hstop (htail (by decide)))
      · exact .map _ _ (.binding hstop (htail (by decide)))
      · exact .map _ _ (.weaken (.returnValue hstop (htail (by decide))))
      · refine .andThen (.expect hstop (by decide) _ (htail (by decide)))
          fun past name name' rest₁ rest₁' hle₁ _ h₁ => ?_
        refine .andThen (.parameters hstop h₁) fun past params params' rest₂ rest₂' hle₂ _ h₂ => ?_
        exact .map _ _ (.weaken (ih.blockBelow (by omega) h₂))
      · exact .weaken (ih.condition (by omega) (htail (by decide)))
      · refine .andThen (expression_tracks hstop _ (htail (by decide)))
          fun past test test' rest₁ rest₁' hle₁ _ h₁ => ?_
        exact .map _ _ (.weaken (ih.blockBelow (by omega) h₁))
      · exact .map _ _ (.endLine (htail (by decide)))
      · exact .map _ _ (.weaken (arguments_track hstop _ (htail (by decide))))
      · exact .fail_cons h (.indent h.suffix ht) _ _

theorem condition_succ (hstop : k ≤ stop.line) (ih : StatementsTrack all k stop n)
    (hn : 2 * ts.length < n + 1) (h : Stretched all k past ts ts') :
    (Grammar.condition stop ts).Tracks all k (Stretched all k) past
      (Grammar.condition (stop.below k) ts') := by
  rw [Grammar.condition.eq_def stop, Grammar.condition.eq_def (stop.below k)]
  refine .andThen (expression_tracks hstop _ h) fun past test test' rest₁ rest₁' hle₁ _ h₁ => ?_
  refine .andThen (ih.blockBelow (by omega) h₁) fun past body body' rest₂ rest₂' hle₂ _ h₂ => ?_
  cases rest₂ with
  | nil =>
    obtain rfl := h₂.eq_nil
    exact .ok h₂ _ _
  | cons t rest₂ =>
    obtain ⟨us', rfl, hkind⟩ := h₂.head
    rw [List.length_cons] at hle₂
    by_cases helse : t.kind = .keyword .elseStmt
    · simp only [hkind, if_pos helse, Traced.Tracks.loosen_iff, Traced.Tracks.behind_iff]
      exact .map _ _ (ih.elseBranch (by omega) (h₂.tail (by simp [helse])))
    · by_cases helsif : t.kind = .keyword .elsifStmt
      · simp only [hkind, if_neg helse, if_pos helsif,
          Traced.Tracks.loosen_iff, Traced.Tracks.behind_iff]
        exact .map _ _ (ih.condition (by omega) (h₂.tail (by simp [helsif])))
      · simp only [hkind, if_neg helse, if_neg helsif]
        exact .ok h₂ _ _

theorem elseBranch_succ (ih : StatementsTrack all k stop n) (hn : 2 * ts.length + 1 < n + 1)
    (h : Stretched all k past ts ts') :
    (Grammar.elseBranch stop ts).Tracks all k (Stretched all k) past
      (Grammar.elseBranch (stop.below k) ts') := by
  cases ts with
  | nil =>
    obtain rfl := h.eq_nil
    rw [Grammar.elseBranch, Grammar.elseBranch]
    exact ih.blockBelow (by omega) h
  | cons t ts =>
    obtain ⟨us', rfl, hkind⟩ := h.head
    rw [Grammar.elseBranch, Grammar.elseBranch]
    by_cases ht : t.kind = .keyword .ifStmt
    · rw [List.length_cons] at hn
      rw [hkind, if_pos ht, if_pos ht, Traced.Tracks.behind_iff]
      exact .map _ _ (ih.condition (by omega) (h.tail (by simp [ht])))
    · rw [hkind, if_neg ht, if_neg ht]
      exact ih.blockBelow (by omega) h

theorem blockBelow_succ (hstop : k ≤ stop.line) (ih : StatementsTrack all k stop n)
    {what : SyntaxError.Wanted} (hn : 2 * ts.length < n + 1) (h : Stretched all k past ts ts') :
    (Grammar.blockBelow stop what ts).Tracks all k (Stretched all k) past
      (Grammar.blockBelow (stop.below k) what ts') := by
  rw [Grammar.blockBelow, Grammar.blockBelow]
  exact .andThen (.expectNewline hstop _ h) fun past _ _ rest rest' _ _ h => ih.block (by omega) h

/-- The newlines in front of a block are passed over, and so is the empty line. -/
theorem block_succ (hstop : k ≤ stop.line) (ih : StatementsTrack all k stop n)
    (hn : 2 * ts.length < n + 1) (h : Behind all k past ts ts') :
    (Grammar.block stop ts).Tracks all k (Stretched all k) past
      (Grammar.block (stop.below k) ts') := by
  have hlength := length_skipNewlines_le ts
  have hskip := h.skipNewlines
  cases hts : skipNewlines ts with
  | nil =>
    rw [hts] at hskip
    have hts' := hskip.eq_nil
    rw [hts'] at hskip
    obtain ⟨hle, hblock⟩ := block_nil stop hts
    obtain ⟨hle', hblock'⟩ := block_nil (stop.below k) hts'
    rw [hblock, hblock']
    exact .fail_nil hstop hskip _ _ _
  | cons t rest =>
    rw [hts] at hskip hlength
    rw [List.length_cons] at hlength
    obtain ⟨us', hts', hkind⟩ := hskip.head
    rw [hts'] at hskip
    by_cases ht : t.kind = .indent
    · obtain ⟨past', hes, hrest⟩ : Statements.Tracks all k past
          (Grammar.statements stop true rest) (Grammar.statements (stop.below k) true us') :=
        ih.statements (by omega) (hskip.tail (by simp [ht]))
      obtain ⟨hle, hblock⟩ := block_indent stop hts ht
      obtain ⟨hle', hblock'⟩ := block_indent (stop.below k) hts' (hkind.trans ht)
      rw [hblock, hblock']
      exact ⟨past', hes, hrest.tail_end (statements_end stop true rest)⟩
    · obtain ⟨hle, hblock⟩ := block_other stop hts ht
      obtain ⟨hle', hblock'⟩ := block_other (stop.below k) hts' (hkind ▸ ht)
      rw [hblock, hblock']
      exact .fail_cons hskip (.found hskip.suffix rfl) _ _

/-- Behind an error the statements go on, and the empty line may be the next one. -/
theorem statements_resume (ih : StatementsTrack all k stop n) {inside : Bool} {e e' : SyntaxError}
    {rest rest' : List Token} (hn : 2 * (resume rest).length + 1 < n)
    (h : Moved all k past e rest e' rest') :
    ∃ past', Gains all k past past' (e :: (Grammar.statements stop inside (resume rest)).errors)
        (e' :: (Grammar.statements (stop.below k) inside (resume rest')).errors) ∧
      Stretched all k past' (Grammar.statements stop inside (resume rest)).rest
        (Grammar.statements (stop.below k) inside (resume rest')).rest := by
  obtain ⟨rfl, hrest, hpast, hline, hleaves⟩ := h
  rcases resume_tracks hrest hline with ⟨hresume, hkept⟩ | ⟨rfl, hk, hlost, vs', hempty, hresume⟩
  · obtain ⟨past', hmore, hleft⟩ : Statements.Tracks all k past
        (Grammar.statements stop inside (resume rest))
        (Grammar.statements (stop.below k) inside (resume rest')) :=
      ih.statements hn hresume
    refine ⟨past', .same hpast (fun hk => ?_) hmore, hleft⟩
    exact ⟨rest, hleaves (by omega), hkept hk⟩
  · obtain ⟨past', hmore, hleft⟩ : Statements.Tracks all k true
        (Grammar.statements stop inside (resume rest))
        (Grammar.statements (stop.below k) inside (skipOrphan vs')) :=
      ih.statements hn hresume
    obtain ⟨herrors, hrests⟩ := statements_emptyLine hempty (stop.below k) inside
    rw [herrors, hrests]
    exact ⟨past', .more hk ⟨rest, hleaves (by omega), hlost⟩ hmore, hleft⟩

theorem statements_succ (ih : StatementsTrack all k stop n) {inside : Bool}
    (hn : 2 * ts.length + 1 < n + 1) (h : Stretched all k past ts ts') :
    (Grammar.statements stop inside ts).Tracks all k past
      (Grammar.statements (stop.below k) inside ts') := by
  cases ts with
  | nil =>
    obtain rfl := h.eq_nil
    rw [Grammar.statements, Grammar.statements]
    exact ⟨past, .nil, h⟩
  | cons t ts =>
    obtain ⟨us', rfl, hkind⟩ := h.head
    rw [Grammar.statements.eq_def stop, Grammar.statements.eq_def (stop.below k)]
    by_cases hend : (inside && t.kind == .dedent) = true
    · simp only [hkind, if_pos hend]
      exact ⟨past, .nil, h⟩
    · simp only [hkind, if_neg hend]
      have hstmts : (Grammar.statement stop (t :: ts)).Tracks all k (Behind all k) past
          (Grammar.statement (stop.below k) (t.move (.below k) :: us')) :=
        ih.statement (by omega) h
      rw [List.length_cons] at hn
      generalize Grammar.statement stop (t :: ts) = r at hstmts
      generalize Grammar.statement (stop.below k) (t.move (.below k) :: us') = r' at hstmts
      obtain ⟨es, reply⟩ := r
      obtain ⟨es', reply'⟩ := r'
      obtain ⟨past₁, hes, hreply⟩ := hstmts
      cases reply with
      | ok s rest hle =>
        rw [List.length_cons] at hle
        have hskipped := length_skipNewlines_le rest
        cases reply' with
        | fail => cases hreply
        | ok s' rest' hle' =>
          have hrest : Behind all k past₁ rest rest' := hreply
          obtain ⟨past₂, hmore, hleft⟩ : Statements.Tracks all k past₁
              (Grammar.statements stop inside (skipNewlines rest))
              (Grammar.statements (stop.below k) inside (skipNewlines rest')) :=
            ih.statements (by omega) hrest.skipNewlines
          exact ⟨past₂, hes.append hmore, hleft⟩
      | fail e rest hle =>
        rw [List.length_cons] at hle
        have hresumed := length_resume_le rest
        cases reply' with
        | ok => cases hreply
        | fail e' rest' hle' =>
          obtain ⟨past₂, hmore, hleft⟩ := ih.statements_resume (by omega) hreply
          exact ⟨past₂, hes.append hmore, hleft⟩

end StatementsTrack

/-- Statements are read the same way with the empty line put in. -/
theorem statementsTrack {all : List Token} {k : Nat} {stop : Position} (hstop : k ≤ stop.line)
    (n : Nat) : StatementsTrack all k stop n := by
  induction n with
  | zero => constructor <;> intros <;> omega
  | succ n ih =>
    exact ⟨ih.statement_succ hstop, ih.condition_succ hstop, ih.elseBranch_succ,
      ih.blockBelow_succ hstop, ih.block_succ hstop, ih.statements_succ⟩

/-! ## Tokens of a text -/

theorem parse_eq_error {us : List Token} {e : Token} {es : List SyntaxError}
    (hus : ∀ t ∈ us, t.kind ≠ .endOfInput) (he : e.kind = .endOfInput) :
    parse (us ++ [e]) = .error es ↔ es ≠ [] ∧
      (statements e.pos false (skipNewlines (us.filter (·.kind != .comment)))).errors = es := by
  have hfilter : (us ++ [e]).filter (·.kind != .comment) =
      us.filter (·.kind != .comment) ++ [e] := by
    rw [List.filter_append, List.filter_cons_of_pos (by simp [he])]
    rfl
  have hinside : ∀ t ∈ us.filter (·.kind != .comment), t.kind ≠ .endOfInput := fun t ht =>
    hus t (List.mem_of_mem_filter ht)
  unfold parse
  simp only
  rw [hfilter, takeWhile_first_end hinside he, endPosition_first_end hinside he]
  cases (statements e.pos false (skipNewlines (us.filter (·.kind != .comment)))).errors with
  | nil => simp
  | cons f fs =>
    simp only [Except.error.injEq]
    exact ⟨fun h => ⟨h ▸ List.cons_ne_nil f fs, h⟩, And.right⟩

end Offside.Grammar

namespace Offside

open Grammar Source

theorem parseSource_eq_syntactic {s : String} {es : List SyntaxError} :
    parseSource s = .error (.syntactic es) ↔
      Faultless (scan s.toList) ∧ parse (tokensOf (scan s.toList)) = .error es := by
  unfold parseSource tokenize Faultless tokensOf
  simp only
  cases (scan s.toList).filterMap fault? with
  | nil =>
    cases hparse : parse ((scan s.toList).filterMap token?) with
    | ok p => simp [hparse]
    | error es' => simp [hparse]
  | cons fault faults => simp

end Offside
