import Offside.Grammar.Statement

/-!
# Expressions read side by side

A reader of expressions looks at the kinds of the tokens in front of it and never reads past a
newline. So it comes to the same end on any two lists of tokens that agree in the kinds of their
tokens, as long as it stays on one line: `Companions` says what is asked of a relation between token
lists, and of one between errors, for the replies to them to be related (`Reply.Abreast`).

The walk over all readers of expressions is made once, for every such relation. Instances say that
an error stands at a token, that an empty line put in makes no difference, and that nothing behind
the end of a line does.
-/

namespace Offside

/-- What an error says was found. -/
def SyntaxError.Cause.found? : SyntaxError.Cause → Option String
  | expected _ found => some found
  | expectedExpression found => some found
  | unexpectedIndent => none
  | notWithoutIn => none

namespace Grammar

/-- Token lists that are read side by side, and the errors found in them. An error is related
together with the tokens it leaves. -/
structure Companions (stop stop' : Position) (R : List Token → List Token → Prop)
    (E : SyntaxError → List Token → SyntaxError → List Token → Prop) : Prop where
  nil {ts' : List Token} (h : R [] ts') : ts' = []
  cons {t : Token} {ts ts' : List Token} (h : R (t :: ts) ts') :
    ∃ t' us', ts' = t' :: us' ∧ t'.kind = t.kind ∧ t'.describe = t.describe
  /-- Behind a token that ends no line. -/
  tail {t t' : Token} {ts ts' : List Token} (h : R (t :: ts) (t' :: ts'))
    (ht : t.kind ≠ .newline) : R ts ts'
  /-- An error at the next token, or at the end. -/
  error {cause : SyntaxError.Cause} {ts ts' : List Token} (h : R ts ts')
    (hfound : cause.found? = some (describe ts)) :
    E ⟨cause, position stop ts⟩ ts ⟨cause, position stop' ts'⟩ ts'
  /-- The one error that is found behind its token. -/
  behind {t t' : Token} {ts ts' : List Token} (h : R (t :: ts) (t' :: ts'))
    (ht : t.kind = .keyword .notOp) : E ⟨.notWithoutIn, t.pos⟩ ts ⟨.notWithoutIn, t'.pos⟩ ts'

/-- Both replies are results or both are errors, and they leave related tokens. -/
def Reply.Abreast {α β : Type} {i j : Nat} {ts ts' : List Token}
    (R : List Token → List Token → Prop)
    (E : SyntaxError → List Token → SyntaxError → List Token → Prop) :
    Reply α i ts → Reply β j ts' → Prop
  | .ok _ rest _, .ok _ rest' _ => R rest rest'
  | .fail e rest _, .fail e' rest' _ => E e rest e' rest'
  | _, _ => False

namespace Reply.Abreast

variable {α α' β β' : Type} {i i' j j' : Nat} {ts ts' : List Token}
  {R R' : List Token → List Token → Prop}
  {E : SyntaxError → List Token → SyntaxError → List Token → Prop}

theorem behind {t t' : Token} {r : Reply α i ts} {r' : Reply β j ts'} (h : Abreast R E r r') :
    Abreast R E (r.behind t) (r'.behind t') := by
  cases r <;> cases r' <;> exact h

theorem loosen {r : Reply α i ts} {r' : Reply β j ts'} (h : Abreast R E r r') :
    Abreast R E r.loosen r'.loosen := by
  cases r <;> cases r' <;> exact h

theorem map {f : α → α'} {g : β → β'} {r : Reply α i ts} {r' : Reply β j ts'}
    (h : Abreast R E r r') : Abreast R E (r.map f) (r'.map g) := by
  cases r <;> cases r' <;> exact h

theorem andThen {r : Reply α i ts} {r' : Reply β j ts'}
    {g : (a : α) → (rest : List Token) → rest.length + i ≤ ts.length → Reply α' i' rest}
    {g' : (b : β) → (rest : List Token) → rest.length + j ≤ ts'.length → Reply β' j' rest}
    (h : Abreast R E r r')
    (hg : ∀ a b rest rest' hle hle', R rest rest' →
      Abreast R' E (g a rest hle) (g' b rest' hle')) :
    Abreast R' E (r.andThen g) (r'.andThen g') := by
  cases r with
  | fail e rest hle =>
    cases r' with
    | fail e' rest' hle' => exact h
    | ok => cases h
  | ok a rest hle =>
    cases r' with
    | fail => cases h
    | ok b rest' hle' =>
      have hnext := hg a b rest rest' hle hle' h
      unfold Reply.andThen
      simp only
      generalize g a rest hle = s at hnext
      generalize g' b rest' hle' = s' at hnext
      cases s <;> cases s' <;> exact hnext

end Reply.Abreast

theorem leaf?_of_kind {t t' : Token} (h : t'.kind = t.kind) :
    leaf? t = none ∧ leaf? t' = none ∨
      t.kind ≠ .newline ∧ ∃ e e', leaf? t = some e ∧ leaf? t' = some e' := by
  unfold leaf?
  rw [h]
  split <;> simp_all

namespace Companions

variable {stop stop' : Position} {R : List Token → List Token → Prop}
  {E : SyntaxError → List Token → SyntaxError → List Token → Prop} {ts ts' : List Token}

/-- Reading one token, where it is known what is left behind it. -/
theorem expect_of {R' : List Token → List Token → Prop} (c : Companions stop stop' R E)
    {kind : Kind} (hR : ∀ t t' us us', t.kind = kind → R (t :: us) (t' :: us') → R' us us')
    (what : SyntaxError.Wanted) (h : R ts ts') :
    (Grammar.expect stop kind what ts).Abreast R' E (Grammar.expect stop' kind what ts') := by
  cases ts with
  | nil =>
    obtain rfl := c.nil h
    exact c.error h (by simp [SyntaxError.Cause.found?])
  | cons t ts =>
    obtain ⟨t', us', rfl, hkind, hdescribe⟩ := c.cons h
    rw [Grammar.expect, Grammar.expect, hkind, hdescribe]
    by_cases ht : t.kind = kind
    · rw [if_pos ht, if_pos ht]
      exact hR t t' ts us' ht h
    · rw [if_neg ht, if_neg ht]
      exact c.error h (by simp [SyntaxError.Cause.found?, describe])

theorem expect (c : Companions stop stop' R E) {kind : Kind} (hkind : kind ≠ .newline)
    (what : SyntaxError.Wanted) (h : R ts ts') :
    (Grammar.expect stop kind what ts).Abreast R E (Grammar.expect stop' kind what ts') :=
  c.expect_of (fun _ _ _ _ ht h => c.tail h (ht ▸ hkind)) what h

theorem comparisonOperator (c : Companions stop stop' R E) (h : R ts ts') :
    comparisonOperator ts = none ∧ comparisonOperator ts' = none ∨
      ∃ r r', comparisonOperator ts = some r ∧ comparisonOperator ts' = some r' ∧
        r.Abreast R E r' := by
  cases ts with
  | nil =>
    obtain rfl := c.nil h
    exact .inl ⟨rfl, rfl⟩
  | cons t ts =>
    obtain ⟨t', us', rfl, hkind, -⟩ := c.cons h
    unfold Grammar.comparisonOperator
    cases hop : comparison? t.kind with
    | some op =>
      have ht : t.kind ≠ .newline := by
        intro ht
        rw [ht] at hop
        cases hop
      simp only [hkind, hop]
      exact .inr ⟨_, _, rfl, rfl, c.tail h ht⟩
    | none =>
      simp only [hkind, hop]
      by_cases his : t.kind = .keyword .isOp
      · have htail := c.tail h (by simp [his])
        rw [if_pos his, if_pos his]
        cases ts with
        | nil =>
          obtain rfl := c.nil htail
          exact .inr ⟨_, _, rfl, rfl, htail⟩
        | cons u ts =>
          obtain ⟨u', vs', rfl, hkind', -⟩ := c.cons htail
          simp only [hkind']
          by_cases hu : u.kind = .keyword .notOp
          · exact .inr ⟨_, _, if_pos hu, if_pos hu, c.tail htail (by simp [hu])⟩
          · exact .inr ⟨_, _, if_neg hu, if_neg hu, htail⟩
      · rw [if_neg his, if_neg his]
        by_cases hnot : t.kind = .keyword .notOp
        · have htail := c.tail h (by simp [hnot])
          rw [if_pos hnot, if_pos hnot]
          cases ts with
          | nil =>
            obtain rfl := c.nil htail
            exact .inr ⟨_, _, rfl, rfl, c.behind h hnot⟩
          | cons u ts =>
            obtain ⟨u', vs', rfl, hkind', -⟩ := c.cons htail
            simp only [hkind']
            by_cases hu : u.kind = .keyword .inOp
            · exact .inr ⟨_, _, if_pos hu, if_pos hu, c.tail htail (by simp [hu])⟩
            · exact .inr ⟨_, _, if_neg hu, if_neg hu, c.behind h hnot⟩
        · rw [if_neg hnot, if_neg hnot]
          exact .inl ⟨rfl, rfl⟩

theorem parameters (c : Companions stop stop' R E) (h : R ts ts') :
    (parameters ts).Abreast R E (parameters ts') := by
  induction ts generalizing ts' with
  | nil =>
    obtain rfl := c.nil h
    exact h
  | cons t ts ih =>
    obtain ⟨t', us', rfl, hkind, -⟩ := c.cons h
    rw [Grammar.parameters, Grammar.parameters, hkind]
    by_cases ht : t.kind = .identifier
    · rw [if_pos ht, if_pos ht]
      exact .loosen (.behind (.map (ih (c.tail h (by simp [ht])))))
    · rw [if_neg ht, if_neg ht]
      exact h

end Companions

/-! ## The walk -/

/-- The readers of expressions stay side by side, on tokens of a size below `n`. -/
structure ExpressionsAbreast (stop stop' : Position) (R : List Token → List Token → Prop)
    (E : SyntaxError → List Token → SyntaxError → List Token → Prop) (n : Nat) : Prop where
  expression {tier : Tier} {ts ts' : List Token} (hn : 16 * ts.length + tier.rank < n)
    (h : R ts ts') : (expression stop tier ts).Abreast R E (expression stop' tier ts')
  operations {l : Level} {left left' : Expr} {ts ts' : List Token} (hn : 16 * ts.length + 15 < n)
    (h : R ts ts') : (operations stop l left ts).Abreast R E (operations stop' l left' ts')
  comparisons {ts ts' : List Token} (hn : 16 * ts.length + 15 < n) (h : R ts ts') :
    (comparisons stop ts).Abreast R E (comparisons stop' ts')
  arguments {closes : Kind → Bool} {ts ts' : List Token} (hn : 16 * ts.length + 15 < n)
    (h : R ts ts') : (arguments stop closes ts).Abreast R E (arguments stop' closes ts')

namespace ExpressionsAbreast

variable {n : Nat} {stop stop' : Position} {R : List Token → List Token → Prop}
  {E : SyntaxError → List Token → SyntaxError → List Token → Prop} {ts ts' : List Token}

theorem conditional (c : Companions stop stop' R E) (ih : ExpressionsAbreast stop stop' R E n)
    (hn : 16 * ts.length + 13 < n + 1) (h : R ts ts') :
    (Grammar.expression stop .conditional ts).Abreast R E
      (Grammar.expression stop' .conditional ts') := by
  unfold Grammar.expression
  refine .andThen (ih.expression (by simp only [Tier.rank]; omega) h)
    fun left left' rest rest' hle _ h => ?_
  cases rest with
  | nil =>
    obtain rfl := c.nil h
    exact h
  | cons t rest =>
    rw [List.length_cons] at hle
    obtain ⟨t', us', rfl, hkind, -⟩ := c.cons h
    simp only [hkind]
    by_cases ht : t.kind = .keyword .ifOp
    · rw [if_pos ht, if_pos ht]
      refine .loosen (.behind ?_)
      refine .andThen (ih.expression (by simp only [Tier.rank]; omega) (c.tail h (by simp [ht])))
        fun condition condition' rest₂ rest₂' hle₂ _ h₂ => ?_
      refine .andThen (c.expect (by decide) _ h₂) fun _ _ rest₃ rest₃' hle₃ _ h₃ => ?_
      exact .map (ih.expression (by simp only [Tier.rank]; omega) h₃)
    · rw [if_neg ht, if_neg ht]
      exact h

theorem level (ih : ExpressionsAbreast stop stop' R E n) {l : Level}
    (hn : 16 * ts.length + (Tier.level l).rank < n + 1) (h : R ts ts') :
    (Grammar.expression stop (.level l) ts).Abreast R E
      (Grammar.expression stop' (.level l) ts') := by
  have hrank := Level.rank_operands_lt l
  unfold Grammar.expression
  refine .andThen (ih.expression (by omega) h) fun left left' rest rest' hle _ h => ?_
  exact ih.operations (by omega) h

theorem inversion (c : Companions stop stop' R E) (ih : ExpressionsAbreast stop stop' R E n)
    (hn : 16 * ts.length + 10 < n + 1) (h : R ts ts') :
    (Grammar.expression stop .inversion ts).Abreast R E
      (Grammar.expression stop' .inversion ts') := by
  unfold Grammar.expression
  cases ts with
  | nil =>
    obtain rfl := c.nil h
    exact ih.expression (by simp only [Tier.rank]; omega) h
  | cons t ts =>
    obtain ⟨t', us', rfl, hkind, -⟩ := c.cons h
    simp only [hkind]
    by_cases ht : t.kind = .keyword .notOp
    · rw [if_pos ht, if_pos ht]
      rw [List.length_cons] at hn
      exact .behind (.map
        (ih.expression (by simp only [Tier.rank]; omega) (c.tail h (by simp [ht]))))
    · rw [if_neg ht, if_neg ht]
      exact ih.expression (by simp only [Tier.rank]; omega) h

theorem comparison (ih : ExpressionsAbreast stop stop' R E n) (hn : 16 * ts.length + 9 < n + 1)
    (h : R ts ts') :
    (Grammar.expression stop .comparison ts).Abreast R E
      (Grammar.expression stop' .comparison ts') := by
  unfold Grammar.expression
  refine .andThen (ih.expression (by simp only [Tier.rank]; omega) h)
    fun first first' rest rest' hle _ h => ?_
  exact .map (ih.comparisons (by omega) h)

theorem signed (c : Companions stop stop' R E) (ih : ExpressionsAbreast stop stop' R E n)
    (hn : 16 * ts.length + 2 < n + 1) (h : R ts ts') :
    (Grammar.expression stop .signed ts).Abreast R E (Grammar.expression stop' .signed ts') := by
  unfold Grammar.expression
  cases ts with
  | nil =>
    obtain rfl := c.nil h
    exact ih.expression (by simp only [Tier.rank]; omega) h
  | cons t ts =>
    obtain ⟨t', us', rfl, hkind, -⟩ := c.cons h
    simp only [hkind]
    cases hop : signOperator? t.kind with
    | none => exact ih.expression (by simp only [Tier.rank]; omega) h
    | some op =>
      have ht : t.kind ≠ .newline := by
        intro ht
        rw [ht] at hop
        cases hop
      rw [List.length_cons] at hn
      exact .behind (.map (ih.expression (by simp only [Tier.rank]; omega) (c.tail h ht)))

theorem power (c : Companions stop stop' R E) (ih : ExpressionsAbreast stop stop' R E n)
    (hn : 16 * ts.length + 1 < n + 1) (h : R ts ts') :
    (Grammar.expression stop .power ts).Abreast R E (Grammar.expression stop' .power ts') := by
  unfold Grammar.expression
  refine .andThen (ih.expression (by simp only [Tier.rank]; omega) h)
    fun base base' rest rest' hle _ h => ?_
  cases rest with
  | nil =>
    obtain rfl := c.nil h
    exact h
  | cons t rest =>
    rw [List.length_cons] at hle
    obtain ⟨t', us', rfl, hkind, -⟩ := c.cons h
    simp only [hkind]
    by_cases ht : t.kind = .symbol .starStar
    · rw [if_pos ht, if_pos ht]
      exact .loosen (.behind (.map
        (ih.expression (by simp only [Tier.rank]; omega) (c.tail h (by simp [ht])))))
    · rw [if_neg ht, if_neg ht]
      exact h

theorem atom (c : Companions stop stop' R E) (ih : ExpressionsAbreast stop stop' R E n)
    (hn : 16 * ts.length < n + 1) (h : R ts ts') :
    (Grammar.expression stop .atom ts).Abreast R E (Grammar.expression stop' .atom ts') := by
  unfold Grammar.expression
  cases ts with
  | nil =>
    obtain rfl := c.nil h
    exact c.error h (by simp [SyntaxError.Cause.found?])
  | cons t ts =>
    obtain ⟨t', us', rfl, hkind, hdescribe⟩ := c.cons h
    rw [List.length_cons] at hn
    rcases leaf?_of_kind hkind with ⟨hleaf, hleaf'⟩ | ⟨ht, e, e', hleaf, hleaf'⟩
    · simp only [hleaf, hleaf', hkind, hdescribe]
      by_cases ht : t.kind = .symbol .leftParen
      · have htail := c.tail h (by simp [ht])
        rw [if_pos ht, if_pos ht]
        cases ts with
        | nil =>
          obtain rfl := c.nil htail
          exact c.error htail (by simp [SyntaxError.Cause.found?])
        | cons u ts =>
          obtain ⟨u', vs', rfl, hkind', -⟩ := c.cons htail
          rw [List.length_cons] at hn
          simp only [hkind']
          by_cases hu : u.kind = .command
          · rw [if_pos hu, if_pos hu]
            refine .behind (.behind ?_)
            refine .andThen (ih.arguments (by omega) (c.tail htail (by simp [hu])))
              fun args args' rest rest' _ _ h => ?_
            exact .map (c.expect (by decide) _ h)
          · rw [if_neg hu, if_neg hu]
            refine .behind ?_
            refine .andThen
              (ih.expression (by simp only [Tier.rank, List.length_cons]; omega) htail)
              fun inner inner' rest rest' _ _ h => ?_
            exact .map (c.expect (by decide) _ h)
      · rw [if_neg ht, if_neg ht]
        exact c.error h (by simp [SyntaxError.Cause.found?, describe])
    · simp only [hleaf, hleaf']
      exact c.tail h ht

theorem operations_succ (c : Companions stop stop' R E) (ih : ExpressionsAbreast stop stop' R E n)
    {l : Level} {left left' : Expr} (hn : 16 * ts.length + 15 < n + 1) (h : R ts ts') :
    (Grammar.operations stop l left ts).Abreast R E (Grammar.operations stop' l left' ts') := by
  have hrank := Tier.rank_lt l.operands
  unfold Grammar.operations
  cases ts with
  | nil =>
    obtain rfl := c.nil h
    exact h
  | cons t ts =>
    obtain ⟨t', us', rfl, hkind, -⟩ := c.cons h
    rw [List.length_cons] at hn
    simp only [hkind]
    cases hop : l.operator? t.kind with
    | none => exact h
    | some op =>
      have ht : t.kind ≠ .newline := by
        intro ht
        rw [ht] at hop
        cases l <;> cases hop
      refine .loosen (.behind ?_)
      refine .andThen (ih.expression (by omega) (c.tail h ht))
        fun right right' rest rest' _ _ h => ?_
      exact ih.operations (by omega) h

theorem comparisons_succ (c : Companions stop stop' R E) (ih : ExpressionsAbreast stop stop' R E n)
    (hn : 16 * ts.length + 15 < n + 1) (h : R ts ts') :
    (Grammar.comparisons stop ts).Abreast R E (Grammar.comparisons stop' ts') := by
  unfold Grammar.comparisons
  rcases c.comparisonOperator h with ⟨hop, hop'⟩ | ⟨r, r', hop, hop', hr⟩
  · rw [hop, hop']
    exact h
  · rw [hop, hop']
    refine .loosen (.andThen hr fun op op' rest rest' _ _ h => ?_)
    refine .andThen (ih.expression (by simp only [Tier.rank]; omega) h)
      fun right right' rest₂ rest₂' _ _ h₂ => ?_
    exact .map (ih.comparisons (by omega) h₂)

theorem arguments_succ (c : Companions stop stop' R E) (ih : ExpressionsAbreast stop stop' R E n)
    {closes : Kind → Bool} (hn : 16 * ts.length + 15 < n + 1) (h : R ts ts') :
    (Grammar.arguments stop closes ts).Abreast R E (Grammar.arguments stop' closes ts') := by
  unfold Grammar.arguments
  cases ts with
  | nil =>
    obtain rfl := c.nil h
    exact h
  | cons t ts =>
    obtain ⟨t', us', rfl, hkind, -⟩ := c.cons h
    simp only [hkind]
    by_cases ht : closes t.kind = true
    · rw [if_pos ht, if_pos ht]
      exact h
    · rw [if_neg ht, if_neg ht]
      refine .loosen (.andThen (ih.expression (by simp only [Tier.rank]; omega) h)
        fun e e' rest rest' _ _ h => ?_)
      exact .map (ih.arguments (by omega) h)

end ExpressionsAbreast

namespace Companions

variable {stop stop' : Position} {R : List Token → List Token → Prop}
  {E : SyntaxError → List Token → SyntaxError → List Token → Prop} {ts ts' : List Token}

theorem expressionsAbreast (c : Companions stop stop' R E) (n : Nat) :
    ExpressionsAbreast stop stop' R E n := by
  induction n with
  | zero => constructor <;> intros <;> omega
  | succ n ih =>
    refine ⟨fun {tier ts ts'} hn h => ?_, ih.operations_succ c, ih.comparisons_succ c,
      ih.arguments_succ c⟩
    cases tier with
    | conditional => exact ih.conditional c hn h
    | level l => exact ih.level hn h
    | inversion => exact ih.inversion c hn h
    | comparison => exact ih.comparison hn h
    | signed => exact ih.signed c hn h
    | power => exact ih.power c hn h
    | atom => exact ih.atom c hn h

theorem expression (c : Companions stop stop' R E) (tier : Tier) (h : R ts ts') :
    (Grammar.expression stop tier ts).Abreast R E (Grammar.expression stop' tier ts') :=
  (c.expressionsAbreast (16 * ts.length + tier.rank + 1)).expression (Nat.lt_succ_self _) h

theorem arguments (c : Companions stop stop' R E) (closes : Kind → Bool) (h : R ts ts') :
    (Grammar.arguments stop closes ts).Abreast R E (Grammar.arguments stop' closes ts') :=
  (c.expressionsAbreast (16 * ts.length + 16)).arguments (Nat.lt_succ_self _) h

end Companions

end Grammar

end Offside
