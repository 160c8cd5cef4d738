import Mathlib.Tactic.Tauto
import Offside.Proofs.Grammar.Reading
import Offside.Proofs.Grammar.Spelling

/-!
# Expressions are read as they are spelled

The rules of reading against the spelling of trees: an expression is read from some tokens exactly
if it fits the grammar, the tokens in front of the rest spell it, and the rest does not go on with
it.

* `Reads.accounted`: what has been read is spelled by the tokens that are gone.
* `readable`: what is spelled is read, whatever stands behind it, as long as that does not go on
  with it.
-/

namespace Offside.Grammar

/-! ## Where an expression ends -/

/-- The tier of the expressions that a token behind an operand makes of it. -/
def joins? : Kind → Option Tier
  | .keyword .ifOp => some .conditional
  | .keyword .orOp => some (.level .disjunction)
  | .keyword .andOp => some (.level .conjunction)
  | .keyword .isOp | .keyword .inOp | .keyword .notOp => some .comparison
  | .symbol .equalEqual | .symbol .bangEqual => some .comparison
  | .symbol .less | .symbol .lessEqual => some .comparison
  | .symbol .greater | .symbol .greaterEqual => some .comparison
  | .symbol .pipe => some (.level .bitOr)
  | .symbol .caret => some (.level .bitXor)
  | .symbol .ampersand => some (.level .bitAnd)
  | .symbol .lessLess | .symbol .greaterGreater => some (.level .shift)
  | .symbol .plus | .symbol .minus => some (.level .additive)
  | .symbol .star | .symbol .slash | .symbol .percent => some (.level .multiplicative)
  | .symbol .slashSlash => some (.level .multiplicative)
  | .symbol .starStar => some .power
  | _ => none

/-- What comes next does not go on with an expression of a tier. -/
def StopsAt (tier : Tier) : List Token → Prop :=
  Ahead fun k => ∀ t, joins? k = some t → tier.rank < t.rank

theorem stopsAt_of_joins? {tier : Tier} {ts : List Token} (h : Ahead (joins? · = none) ts) :
    StopsAt tier ts :=
  h.mono fun k hk t ht => by simp [hk] at ht

theorem StopsAt.mono {tier tier' : Tier} {ts : List Token} (h : StopsAt tier' ts)
    (hle : tier.rank ≤ tier'.rank) : StopsAt tier ts :=
  Ahead.mono h fun _ hk t ht => Nat.lt_of_le_of_lt hle (hk t ht)

theorem joins?_of_stopsAt {tier tier' : Tier} {ts : List Token} (h : StopsAt tier ts)
    (hle : tier'.rank ≤ tier.rank) : Ahead (joins? · ≠ some tier') ts :=
  Ahead.mono h fun _ hk ht => absurd (hk _ ht) (Nat.not_lt.mpr hle)

theorem Tier.rank_injective : Function.Injective Tier.rank := by
  rintro (_ | (_ | _ | _ | _ | _ | _ | _ | _) | _ | _ | _ | _ | _)
    (_ | (_ | _ | _ | _ | _ | _ | _ | _) | _ | _ | _ | _ | _) h <;>
  first
  | rfl
  | cases h

theorem stopsAt_succ {tier tier' : Tier} {ts : List Token} (h : tier'.rank = tier.rank + 1) :
    StopsAt tier' ts ↔ StopsAt tier ts ∧ Ahead (joins? · ≠ some tier') ts := by
  constructor
  · intro hs
    exact ⟨hs.mono (by omega), joins?_of_stopsAt hs (Nat.le_refl _)⟩
  · rintro ⟨hs, hne⟩ t ht tier'' hj
    have hlt := hs t ht tier'' hj
    have hne' : tier''.rank ≠ tier'.rank := fun he =>
      hne t ht (by rw [hj, Tier.rank_injective he])
    omega

theorem Level.rank_operands (l : Level) : (Tier.level l).rank = l.operands.rank + 1 := by
  cases l <;> rfl

theorem joins?_eq_level {k : Kind} {l : Level} :
    joins? k = some (.level l) ↔ l.operator? k ≠ none := by
  constructor
  · intro h
    unfold joins? at h
    split at h <;> cases h <;> simp [Level.operator?]
  · intro h
    unfold Level.operator? at h
    split at h <;> first | rfl | exact absurd rfl h

theorem joins?_eq_conditional {k : Kind} : joins? k = some .conditional ↔ k = .keyword .ifOp := by
  constructor
  · intro h
    unfold joins? at h
    split at h <;> cases h
    rfl
  · rintro rfl
    rfl

theorem joins?_eq_power {k : Kind} : joins? k = some .power ↔ k = .symbol .starStar := by
  constructor
  · intro h
    unfold joins? at h
    split at h <;> cases h
    rfl
  · rintro rfl
    rfl

theorem joins?_ne {k : Kind} {tier : Tier} (h : tier = .inversion ∨ tier = .signed ∨ tier = .atom) :
    joins? k ≠ some tier := by
  intro hk
  unfold joins? at hk
  split at hk <;> cases hk <;> simp at h

theorem joins?_eq_comparison {k : Kind} :
    joins? k = some .comparison ↔
      comparison? k ≠ none ∨ k = .keyword .isOp ∨ k = .keyword .notOp := by
  constructor
  · intro h
    unfold joins? at h
    split at h <;> cases h <;> simp [comparison?]
  · rintro (h | rfl | rfl)
    · unfold comparison? at h
      split at h <;> first | rfl | exact absurd rfl h
    · rfl
    · rfl

theorem comparison?_eq_some {k : Kind} {op : BinaryOp} (h : comparison? k = some op) :
    op.tier = .comparison ∧ op.words = [k] := by
  unfold comparison? at h
  split at h <;> cases h <;> exact ⟨rfl, rfl⟩

/-- The four ways to write a comparison: one token of its own, `is`, `is not` and `not in`. -/
theorem comparison_cases {op : BinaryOp} (h : op.tier = .comparison) :
    (∃ k, op.words = [k] ∧ comparison? k = some op) ∨ op = .is ∨ op = .isNot ∨ op = .notWithin := by
  cases op <;> first
    | exact .inl ⟨_, rfl, rfl⟩
    | exact absurd h (by decide)
    | simp

theorem comparisonOperator_eq_none {ts : List Token} :
    comparisonOperator ts = none ↔ Ahead (joins? · ≠ some .comparison) ts := by
  cases ts with
  | nil => simp [comparisonOperator]
  | cons t ts =>
    rw [ahead_cons, ne_eq, joins?_eq_comparison]
    simp only [comparisonOperator]
    split
    · rename_i op hk
      simp [hk]
    · rename_i hk
      split_ifs with his hnot
      · simp only [his, true_or, or_true, not_true_eq_false, iff_false]
        split <;> (try split_ifs) <;> simp
      · simp only [hnot, or_true, not_true_eq_false, iff_false]
        split <;> (try split_ifs) <;> simp
      · simp [hk, his, hnot]

theorem comparisonOperator_spelled {ts mid : List Token} {op : BinaryOp} {pos : Position}
    {r : Reply (BinaryOp × Position) 1 ts} (h : comparisonOperator ts = some r)
    (hr : r.Gives (op, pos) mid) :
    op.tier = .comparison ∧ ∃ o, ts = o ++ mid ∧ op.SpelledAt pos o := by
  cases ts with
  | nil => cases h
  | cons t rest =>
    simp only [comparisonOperator] at h
    split at h
    · rename_i op' hk
      cases h
      obtain ⟨he, rfl⟩ := Reply.gives_ok.mp hr
      cases he
      obtain ⟨htier, hwords⟩ := comparison?_eq_some hk
      exact ⟨htier, [t], rfl, by simp [hwords], rfl⟩
    · split_ifs at h with his hnot
      · split at h <;> (try split_ifs at h with hu) <;> cases h <;>
          obtain ⟨he, rfl⟩ := Reply.gives_ok.mp hr <;> cases he
        · rename_i u _
          exact ⟨rfl, [t, u], rfl, by simp [his, hu, BinaryOp.words], rfl⟩
        · exact ⟨rfl, [t], rfl, by simp [his, BinaryOp.words], rfl⟩
        · exact ⟨rfl, [t], rfl, by simp [his, BinaryOp.words], rfl⟩
      · split at h <;> (try split_ifs at h with hu) <;> cases h
        · rename_i u _
          obtain ⟨he, rfl⟩ := Reply.gives_ok.mp hr
          cases he
          exact ⟨rfl, [t, u], rfl, by simp [hnot, hu, BinaryOp.words], rfl⟩
        · exact absurd hr Reply.not_gives_fail
        · exact absurd hr Reply.not_gives_fail

/-- A comparison operator is read where it is spelled. Only `is` looks at what comes behind it. -/
theorem comparisonOperator_of_spelled {op : BinaryOp} {pos : Position} {o mid : List Token}
    (hop : op.tier = .comparison) (ho : op.SpelledAt pos o)
    (hmid : Ahead (· ≠ .keyword .notOp) mid) :
    ∃ r, comparisonOperator (o ++ mid) = some r ∧ r.Gives (op, pos) mid := by
  obtain ⟨hkinds, hpos⟩ := ho
  obtain ⟨k, hwords, hk⟩ | rfl | rfl | rfl := comparison_cases hop
  · obtain ⟨t, rfl, rfl⟩ := List.map_eq_singleton_iff.mp (hkinds.trans hwords)
    cases hpos
    simp only [List.cons_append, List.nil_append, comparisonOperator]
    rw [hk]
    exact ⟨_, rfl, Reply.gives_ok.mpr ⟨rfl, rfl⟩⟩
  · obtain ⟨t, rfl, ht⟩ := List.map_eq_singleton_iff.mp hkinds
    cases hpos
    cases mid with
    | nil => simp [comparisonOperator, ht, comparison?]
    | cons u mid => simp [comparisonOperator, ht, comparison?, ahead_cons.mp hmid]
  all_goals
    obtain ⟨t, o', rfl, ht, ho'⟩ := List.map_eq_cons_iff.mp hkinds
    obtain ⟨u, rfl, hu⟩ := List.map_eq_singleton_iff.mp ho'
    cases hpos
    simp [comparisonOperator, ht, hu, comparison?]

theorem stopsAt_level {l : Level} {ts : List Token} :
    StopsAt (.level l) ts ↔ StopsAt l.operands ts ∧ Ahead (l.operator? · = none) ts := by
  rw [stopsAt_succ (Level.rank_operands l)]
  simp only [ne_eq, joins?_eq_level, Classical.not_not]

theorem stopsAt_conditional {ts : List Token} :
    StopsAt .conditional ts ↔
      StopsAt (.level .disjunction) ts ∧ Ahead (· ≠ .keyword .ifOp) ts := by
  rw [stopsAt_succ (show Tier.rank .conditional = Tier.rank (.level .disjunction) + 1 from rfl)]
  simp only [ne_eq, joins?_eq_conditional]

theorem stopsAt_comparison {ts : List Token} :
    StopsAt .comparison ts ↔ StopsAt (.level .bitOr) ts ∧ comparisonOperator ts = none := by
  rw [stopsAt_succ (show Tier.rank .comparison = Tier.rank (.level .bitOr) + 1 from rfl),
    comparisonOperator_eq_none]

theorem stopsAt_inversion {ts : List Token} : StopsAt .inversion ts ↔ StopsAt .comparison ts := by
  rw [stopsAt_succ (show Tier.rank .inversion = Tier.rank .comparison + 1 from rfl)]
  exact and_iff_left fun _ _ => joins?_ne (.inl rfl)

theorem stopsAt_signed {ts : List Token} : StopsAt .signed ts ↔ StopsAt .power ts := by
  rw [stopsAt_succ (show Tier.rank .signed = Tier.rank .power + 1 from rfl)]
  exact and_iff_left fun _ _ => joins?_ne (.inr (.inl rfl))

theorem stopsAt_atom (ts : List Token) : StopsAt .atom ts := by
  refine fun t _ tier ht => Nat.pos_of_ne_zero fun h0 => ?_
  have hatom : tier = .atom := Tier.rank_injective h0
  exact joins?_ne (.inr (.inr hatom)) ht

theorem stopsAt_power {ts : List Token} :
    StopsAt .power ts ↔ Ahead (· ≠ .symbol .starStar) ts := by
  rw [stopsAt_succ (show Tier.rank .power = Tier.rank .atom + 1 from rfl)]
  simp only [ne_eq, joins?_eq_power]
  exact and_iff_right (stopsAt_atom ts)

/-! ## Operators of a level, and signs -/

theorem operator?_eq_some_iff {l : Level} {k : Kind} {op : BinaryOp} :
    l.operator? k = some op ↔ op.tier = .level l ∧ op.words = [k] := by
  constructor
  · intro h
    unfold Level.operator? at h
    split at h <;> cases h <;> exact ⟨rfl, rfl⟩
  · rintro ⟨htier, hwords⟩
    cases op <;> cases htier <;> cases hwords <;> rfl

theorem signOperator?_eq_some_iff {k : Kind} {op : UnaryOp} :
    signOperator? k = some op ↔ op.tier = .signed ∧ op.word = k := by
  constructor
  · intro h
    unfold signOperator? at h
    split at h <;> cases h <;> exact ⟨rfl, rfl⟩
  · rintro ⟨htier, rfl⟩
    cases op <;> cases htier <;> rfl

theorem spelledAt_singleton {op : BinaryOp} {t : Token} (h : op.words = [t.kind]) :
    op.SpelledAt t.pos [t] := ⟨h.symm, rfl⟩

theorem spelledAt_eq_singleton {op : BinaryOp} {p : Position} {o : List Token} {k : Kind}
    (h : op.SpelledAt p o) (hk : op.words = [k]) : ∃ t, o = [t] ∧ t.kind = k ∧ t.pos = p := by
  obtain ⟨t, rfl, ht⟩ := List.map_eq_singleton_iff.mp (h.1.trans hk)
  exact ⟨t, rfl, ht, by simpa using h.2⟩

theorem leaf?_spelled {t : Token} {e : Expr} (h : leaf? t = some e) :
    (Phrase.expr e).Spelled [t] ∧ e.fits = true ∧ e.tier = .atom := by
  unfold leaf? at h
  split at h
  case h_1 hk => cases h; exact ⟨.literal hk, rfl, rfl⟩
  case h_2 hk => cases h; exact ⟨.literal hk, rfl, rfl⟩
  case h_3 hk => cases h; exact ⟨.literal (.inl hk), rfl, rfl⟩
  case h_6 hk => cases h; exact ⟨.name hk, rfl, rfl⟩
  case h_7 hk => cases h; exact ⟨.name hk, rfl, rfl⟩
  case h_8 => cases h
  all_goals
    rename_i hk
    cases h
    refine ⟨.literal ?_, rfl, rfl⟩
    unfold literalOf
    split
    · exact ⟨by simp [hk], by assumption⟩
    · exact ⟨by simp [hk], by assumption⟩
    · exact .inr ⟨by simp [hk], by assumption⟩

theorem leaf?_literal {t : Token} {v : Literal} (h : v.SpelledBy t) :
    leaf? t = some (.literal v) := by
  cases v with
  | boolean b => cases b <;> (unfold Literal.SpelledBy at h; simp [leaf?, h])
  | number x => rcases h with ⟨hk | hk, hp⟩ <;> simp [leaf?, literalOf, hk, hp]
  | text s => rcases h with ⟨hk | hk, hp⟩ <;> simp [leaf?, literalOf, hk, hp]
  | none =>
    rcases h with hk | ⟨hk | hk, hp⟩
    · simp [leaf?, hk]
    · simp [leaf?, literalOf, hk, hp]
    · simp [leaf?, literalOf, hk, hp]

theorem leaf?_name {t : Token} {k : NameKind} (h : t.kind = k.kind) :
    leaf? t = some (.name k (nameOf t)) := by
  cases k <;> simp [leaf?, h, NameKind.kind, nameOf]

/-! ## How an expression begins -/

/-- The kinds of token that an expression can begin with. -/
def OpensWith (e : Expr) (k : Kind) : Prop :=
  match e.leading with
  | .literal _ =>
    k ∈ [.keyword .trueLit, .keyword .falseLit, .keyword .noneLit, Kind.number, .text]
  | .name n _ => k = n.kind
  | .group _ | .call _ _ => k = .symbol .leftParen
  | .unary op _ _ => k = op.word
  | _ => False

theorem kind_of_literal {t : Token} {v : Literal} (h : v.SpelledBy t) :
    t.kind ∈ [.keyword .trueLit, .keyword .falseLit, .keyword .noneLit, Kind.number, .text] := by
  cases v with
  | boolean b => cases b <;> (unfold Literal.SpelledBy at h; simp [h])
  | number x => rcases h with ⟨hk | hk, hp⟩ <;> simp [hk]
  | text s => rcases h with ⟨hk | hk, hp⟩ <;> simp [hk]
  | none => rcases h with hk | ⟨hk | hk, hp⟩ <;> simp [hk]

theorem spelled_opens {e : Expr} {w : List Token} (h : (Phrase.expr e).Spelled w) :
    ∃ t w', w = t :: w' ∧ OpensWith e t.kind := by
  generalize hp : Phrase.expr e = p at h
  induction h generalizing e with
  | literal ht => cases hp; exact ⟨_, _, rfl, kind_of_literal ht⟩
  | name ht => cases hp; exact ⟨_, _, rfl, ht⟩
  | group ht => cases hp; exact ⟨_, _, rfl, ht⟩
  | call ht => cases hp; exact ⟨_, _, rfl, ht⟩
  | unary ht => cases hp; exact ⟨_, _, rfl, ht⟩
  | binary hl ho hr ihl =>
    cases hp
    obtain ⟨t, w', rfl, ht⟩ := ihl rfl
    exact ⟨t, _, rfl, ht⟩
  | comparison hf hs ihf =>
    cases hp
    obtain ⟨t, w', rfl, ht⟩ := ihf rfl
    exact ⟨t, _, rfl, ht⟩
  | ternary hl ht hc ht' hr ihl =>
    cases hp
    obtain ⟨t, w', rfl, ht⟩ := ihl rfl
    exact ⟨t, _, rfl, ht⟩
  | noLink => cases hp
  | link => cases hp
  | noArg => cases hp
  | arg => cases hp

section opening

variable {e : Expr} {k : Kind}

/-- A first token is a command, a sign that could also stand behind an operand, or one that only
begins an expression. -/
theorem OpensWith.cases (h : OpensWith e k) :
    (e.startsWithCommand = true ∧ e.startsWithSign = false ∧ k = .command) ∨
    (e.startsWithCommand = false ∧ e.startsWithSign = true ∧
      k ∈ [.symbol .plus, .symbol .minus, .keyword .notOp]) ∨
    (e.startsWithCommand = false ∧ e.startsWithSign = false ∧
      k ∈ [.keyword .trueLit, .keyword .falseLit, .keyword .noneLit, .number, .text, .identifier,
        .symbol .leftParen, .symbol .tilde]) := by
  unfold OpensWith at h
  unfold Expr.startsWithCommand Expr.startsWithSign
  generalize e.leading = f at h ⊢
  cases f with
  | literal v =>
    refine .inr (.inr ⟨rfl, rfl, ?_⟩)
    simp only [List.mem_cons, List.not_mem_nil, or_false] at h ⊢
    tauto
  | name n x => cases n <;> (cases h; simp [NameKind.kind])
  | group inner => cases h; simp
  | call n args => cases h; simp
  | unary op p right => cases op <;> (cases h; simp [UnaryOp.word])
  | binary => cases h
  | comparison => cases h
  | ternary => cases h

theorem OpensWith.eq_command_iff (h : OpensWith e k) :
    k = .command ↔ e.startsWithCommand = true := by
  rcases h.cases with ⟨hc, -, rfl⟩ | ⟨hc, -, hk⟩ | ⟨hc, -, hk⟩
  · simp [hc]
  · simp only [hc, Bool.false_eq_true, iff_false]
    rintro rfl
    simp at hk
  · simp only [hc, Bool.false_eq_true, iff_false]
    rintro rfl
    simp at hk

theorem OpensWith.joins?_eq_none_iff (h : OpensWith e k) :
    joins? k = none ↔ e.startsWithSign = false := by
  rcases h.cases with ⟨-, hs, rfl⟩ | ⟨-, hs, hk⟩ | ⟨-, hs, hk⟩
  · simp [hs, joins?]
  · simp only [List.mem_cons, List.not_mem_nil, or_false] at hk
    rcases hk with rfl | rfl | rfl <;> simp [hs, joins?]
  · simp only [List.mem_cons, List.not_mem_nil, or_false] at hk
    rcases hk with rfl | rfl | rfl | rfl | rfl | rfl | rfl | rfl <;> simp [hs, joins?]

theorem rank_leading_le : ∀ {e : Expr}, e.fits = true → e.leading.tier.rank ≤ e.tier.rank
  | .literal _, _ | .name _ _, _ | .group _, _ | .call _ _, _ | .unary _ _ _, _ => Nat.le_refl _
  | .binary left op _ right, h => by
    simp only [Expr.fits, Bool.and_eq_true] at h
    have hl := rank_leading_le h.1.1
    have hj := h.2
    refine Nat.le_trans hl ?_
    show left.tier.rank ≤ op.tier.rank
    unfold BinaryOp.joins at hj
    split at hj
    · rename_i l hop
      simp only [Bool.and_eq_true, decide_eq_true_eq] at hj
      rw [hop]
      exact hj.1
    · rename_i hop
      simp only [Bool.and_eq_true, decide_eq_true_eq] at hj
      rw [hop]
      exact Nat.le_of_lt hj.1
    · cases hj
  | .comparison first links, h => by
    simp only [Expr.fits, Bool.and_eq_true, decide_eq_true_eq] at h
    have hl := rank_leading_le h.1.1.1
    exact Nat.le_trans hl (Nat.le_of_lt h.1.1.2)
  | .ternary c left right, h => by
    simp only [Expr.fits, Bool.and_eq_true, decide_eq_true_eq] at h
    have hl := rank_leading_le h.1.1.2
    exact Nat.le_trans hl (Nat.le_of_lt h.2)

theorem OpensWith.rank_le {op : UnaryOp} (h : OpensWith e op.word) (hf : e.fits = true) :
    op.tier.rank ≤ e.tier.rank := by
  refine Nat.le_trans ?_ (rank_leading_le hf)
  unfold OpensWith at h
  generalize e.leading = f at h ⊢
  cases f with
  | unary op' p right => cases op <;> cases op' <;> first | exact Nat.le_refl _ | cases h
  | literal v => cases op <;> simp [UnaryOp.word] at h
  | name n x => cases op <;> cases n <;> cases h
  | group inner => cases op <;> cases h
  | call n args => cases op <;> cases h
  | binary => cases h
  | comparison => cases h
  | ternary => cases h

theorem OpensWith.ne_not {k : Kind} (h : OpensWith e k) (hf : e.fits = true)
    (hlt : e.tier.rank < Tier.rank .inversion) : k ≠ .keyword .notOp := by
  intro hk
  have hnot : OpensWith e (UnaryOp.word .not) := by rwa [hk] at h
  exact absurd hlt (Nat.not_lt.mpr (hnot.rank_le hf))

end opening

/-! ## What has been read is spelled -/

/-- What is known of the tokens when a goal has been read. Operators and comparisons come behind an
operand that is already there, and speak for the whole expression or chain. -/
def Accounted : Goal → List Token → List Token → Prop
  | .expr tier e, ts, rest => ∃ w, ts = w ++ rest ∧ (Phrase.expr e).Spelled w ∧ e.fits = true ∧
      e.tier.rank ≤ tier.rank ∧ StopsAt tier rest
  | .operations l left e, ts, rest => ∀ u, (Phrase.expr left).Spelled u → left.fits = true →
      left.tier.rank ≤ (Tier.level l).rank → StopsAt l.operands ts →
      ∃ w, ts = w ++ rest ∧ (Phrase.expr e).Spelled (u ++ w) ∧ e.fits = true ∧
        e.tier.rank ≤ (Tier.level l).rank ∧ StopsAt (.level l) rest
  | .links ls, ts, rest => StopsAt (.level .bitOr) ts →
      ∃ w, ts = w ++ rest ∧ (Phrase.links ls).Spelled w ∧ fitLinks ls = true ∧
        StopsAt .comparison rest
  | .args closes es, ts, rest => ∃ w, ts = w ++ rest ∧ (Phrase.args es).Spelled w ∧
      fitAll es = true ∧ es.tail.all (!·.startsWithSign) = true ∧ Ahead (closes · = true) rest

theorem joins?_of_stopsAt_conditional {ts : List Token} (h : StopsAt .conditional ts) :
    Ahead (joins? · = none) ts :=
  Ahead.mono h fun k hk => Option.eq_none_iff_forall_ne_some.mpr fun tier ht => by
    have h₁ : 13 < tier.rank := hk tier ht
    have h₂ := Tier.rank_lt tier
    omega

theorem spelled_args_opens {e : Expr} {es : List Expr} {w : List Token}
    (h : (Phrase.args (e :: es)).Spelled w) : ∃ t w', w = t :: w' ∧ OpensWith e t.kind := by
  cases h with
  | arg he hs =>
    obtain ⟨t, w', rfl, ht⟩ := spelled_opens he
    exact ⟨t, _, rfl, ht⟩

/-- Arguments that are read behind an expression do not begin with a sign: it would have gone on
with the expression. -/
theorem args_no_sign {es : List Expr} {w rest : List Token} (hs : (Phrase.args es).Spelled w)
    (hstop : StopsAt .conditional (w ++ rest)) (htail : es.tail.all (!·.startsWithSign) = true) :
    es.all (!·.startsWithSign) = true := by
  cases es with
  | nil => rfl
  | cons a es =>
    obtain ⟨t, w', rfl, ht⟩ := spelled_args_opens hs
    have hj : joins? t.kind = none := ahead_cons.mp (joins?_of_stopsAt_conditional hstop)
    rw [List.all_cons, ht.joins?_eq_none_iff.mp hj]
    exact htail

theorem binary_fits {l : Level} {op : BinaryOp} {left right : Expr} {pos : Position}
    (hop : op.tier = .level l) (hl : left.fits = true) (hr : right.fits = true)
    (hle : left.tier.rank ≤ (Tier.level l).rank) (hlt : right.tier.rank < (Tier.level l).rank) :
    (Expr.binary left op pos right).fits = true := by
  simp [Expr.fits, hl, hr, BinaryOp.joins, hop, hle, hlt]

theorem unary_fits {op : UnaryOp} {pos : Position} {right : Expr} (hf : right.fits = true)
    (hle : right.tier.rank ≤ op.tier.rank) : (Expr.unary op pos right).fits = true := by
  simp [Expr.fits, hf, hle]

/-- What reading leaves behind is accounted for. -/
theorem Reads.accounted {g : Goal} {ts rest : List Token} (h : Reads g ts rest) :
    Accounted g ts rest := by
  induction h with
  | plain he hend ih =>
    obtain ⟨w, rfl, hw, hf, hle, hs⟩ := ih
    exact ⟨w, rfl, hw, hf, Nat.le_of_lt (Nat.lt_succ_of_le hle), stopsAt_conditional.mpr ⟨hs, hend⟩⟩
  | ternary hl ht hc hu hr ihl ihc ihr =>
    obtain ⟨u, rfl, hu', hfl, hlel, -⟩ := ihl
    obtain ⟨v, rfl, hv, hfc, -, -⟩ := ihc
    obtain ⟨w, rfl, hw, hfr, -, hs⟩ := ihr
    refine ⟨_, ?_, .ternary hu' ht hv hu hw, ?_, Nat.le_refl _, hs⟩
    · simp
    · simp only [Expr.fits, hfl, hfc, hfr, Bool.and_self, Bool.true_and, decide_eq_true_eq]
      exact Nat.lt_succ_of_le hlel
  | @level l left e ts mid rest hl hs ihl ihs =>
    obtain ⟨u, rfl, hu, hf, hle, hstop⟩ := ihl
    have hlt := Level.rank_operands_lt l
    obtain ⟨w, rfl, hw, hfe, hlee, hstop'⟩ := ihs u hu hf (by omega) hstop
    exact ⟨u ++ w, by simp, hw, hfe, hlee, hstop'⟩
  | noOperation hend =>
    intro u hu hf hle hstop
    exact ⟨[], rfl, by simpa using hu, hf, hle, stopsAt_level.mpr ⟨hstop, hend⟩⟩
  | @operation l left op right e t r₁ r₂ rest ht hr hs ihr ihs =>
    intro u hu hf hle hstop
    obtain ⟨v, rfl, hv, hfr, hler, hstopr⟩ := ihr
    obtain ⟨hop, hwords⟩ := operator?_eq_some_iff.mp ht
    have hlt := Level.rank_operands_lt l
    -- what has been read so far becomes the left operand: a level associates to the left
    have hspelled := Phrase.Spelled.binary hu (spelledAt_singleton hwords) hv
    have hfits : (Expr.binary left op t.pos right).fits = true :=
      binary_fits hop hf hfr hle (by omega)
    have hrank : (Expr.binary left op t.pos right).tier.rank ≤ (Tier.level l).rank :=
      Nat.le_of_eq (congrArg Tier.rank hop)
    obtain ⟨w, rfl, hw, hfe, hlee, hstop'⟩ := ihs _ hspelled hfits hrank hstopr
    exact ⟨t :: v ++ w, by simp, by simpa using hw, hfe, hlee, hstop'⟩
  | not ht hr ih =>
    obtain ⟨w, rfl, hw, hf, hle, hs⟩ := ih
    exact ⟨_ :: w, rfl, .unary ht hw, unary_fits hf hle, Nat.le_refl _, hs⟩
  | inversion hend he ih =>
    obtain ⟨w, rfl, hw, hf, hle, hs⟩ := ih
    exact ⟨w, rfl, hw, hf, Nat.le_of_lt (Nat.lt_succ_of_le hle), stopsAt_inversion.mpr hs⟩
  | @comparison first ls ts mid rest hf hs ihf ihs =>
    obtain ⟨u, rfl, hu, hff, hle, hstop⟩ := ihf
    obtain ⟨w, rfl, hw, hfl, hstop'⟩ := ihs hstop
    cases ls with
    | nil =>
      cases hw
      exact ⟨u, rfl, hu, hff, Nat.le_of_lt (Nat.lt_succ_of_le hle), hstop'⟩
    | cons l ls =>
      refine ⟨u ++ w, by simp, .comparison hu hw, ?_, Nat.le_refl _, hstop'⟩
      simp only [chain, Expr.fits, hff, hfl, List.isEmpty_cons, Bool.not_false, Bool.and_true,
        Bool.true_and, decide_eq_true_eq]
      exact Nat.lt_succ_of_le hle
  | noLink hend =>
    intro hstop
    exact ⟨[], rfl, .noLink, rfl, stopsAt_comparison.mpr ⟨hstop, hend⟩⟩
  | @link op pos right ls ts r₁ r₂ rest r ho hop hr hs ihr ihs =>
    intro _
    obtain ⟨htier, o, rfl, hso⟩ := comparisonOperator_spelled ho hop
    obtain ⟨u, rfl, hu, hfr, hle, hstop⟩ := ihr
    obtain ⟨w, rfl, hw, hfl, hstop'⟩ := ihs hstop
    refine ⟨o ++ u ++ w, by simp, .link hso hu hw, ?_, hstop'⟩
    simp only [fitLinks, htier, beq_self_eq_true, hfr, hfl, Bool.and_true, Bool.true_and,
      decide_eq_true_eq]
    exact Nat.lt_succ_of_le hle
  | sign ht hr ih =>
    obtain ⟨w, rfl, hw, hf, hle, hs⟩ := ih
    obtain ⟨htier, hword⟩ := signOperator?_eq_some_iff.mp ht
    have hle' := Nat.le_of_eq (congrArg Tier.rank htier)
    exact ⟨_ :: w, rfl, .unary hword.symm hw, unary_fits hf (by rwa [htier]), hle', hs⟩
  | signed hend he ih =>
    obtain ⟨w, rfl, hw, hf, hle, hs⟩ := ih
    exact ⟨w, rfl, hw, hf, Nat.le_of_lt (Nat.lt_succ_of_le hle), stopsAt_signed.mpr hs⟩
  | base he hend ih =>
    obtain ⟨w, rfl, hw, hf, hle, -⟩ := ih
    exact ⟨w, rfl, hw, hf, Nat.le_of_lt (Nat.lt_succ_of_le hle), stopsAt_power.mpr hend⟩
  | @power base exponent t ts r₁ rest hb ht hr ihb ihr =>
    obtain ⟨u, rfl, hu, hfb, hleb, -⟩ := ihb
    obtain ⟨v, rfl, hv, hfe, hlee, hstop⟩ := ihr
    have hwords : BinaryOp.power.words = [t.kind] := by rw [ht]; rfl
    refine ⟨_, ?_, .binary hu (spelledAt_singleton hwords) hv, ?_, Nat.le_refl _,
      stopsAt_signed.mp hstop⟩
    · simp
    · simp only [Expr.fits, hfb, hfe, BinaryOp.joins, BinaryOp.tier, Bool.true_and,
        Bool.and_eq_true, decide_eq_true_eq]
      exact ⟨Nat.lt_succ_of_le hleb, hlee⟩
  | @leaf t e rest ht =>
    obtain ⟨hw, hf, htier⟩ := leaf?_spelled ht
    exact ⟨[t], rfl, hw, hf, Nat.le_of_eq (congrArg _ htier), stopsAt_atom _⟩
  | call ht hn hs hu ih =>
    obtain ⟨w, rfl, hw, hf, hns, -⟩ := ih
    exact ⟨_, by simp, .call ht hn hw hu, by simp [Expr.fits, hf, hns], Nat.le_refl _,
      stopsAt_atom _⟩
  | group ht hn he hu ih =>
    obtain ⟨w, rfl, hw, hf, -, -⟩ := ih
    refine ⟨_, ?_, .group ht hw hu, ?_, Nat.le_refl _, stopsAt_atom _⟩
    · simp
    · obtain ⟨n, w', rfl, hopen⟩ := spelled_opens hw
      have hnc : n.kind ≠ .command := ahead_cons.mp hn
      rw [Ne, hopen.eq_command_iff] at hnc
      simp [Expr.fits, hf, hnc]
  | noArg hend => exact ⟨[], rfl, .noArg, rfl, rfl, hend⟩
  | @arg closes e es t r₁ r₂ rest ht he hs ihe ihs =>
    obtain ⟨u, hu, hsu, hf, -, hstop⟩ := ihe
    obtain ⟨w, rfl, hw, hfs, hns, hend⟩ := ihs
    refine ⟨u ++ w, by simp [hu], .arg hsu hw, by simp [fitAll, hf, hfs], ?_, hend⟩
    exact args_no_sign hw hstop hns

/-! ## What is spelled is read -/

/-- The tokens `w` are read as `e` at the tier of `e`, whatever follows. On a level, reading goes on
with the operators that follow, with `e` as their left operand. -/
def ReadsAs (e : Expr) (w : List Token) : Prop :=
  match e.tier with
  | .level l => ∀ rest e' rest', StopsAt l.operands rest → Reads (.operations l e e') rest rest' →
      Reads (.expr (.level l) e') (w ++ rest) rest'
  | tier => ∀ rest, StopsAt tier rest → Reads (.expr tier e) (w ++ rest) rest

theorem Tier.rank_le_conditional (tier : Tier) : tier.rank ≤ Tier.rank .conditional :=
  Nat.le_of_lt_succ tier.rank_lt

theorem Tier.exists_below {tier : Tier} (h : 0 < tier.rank) :
    ∃ tier' : Tier, tier.rank = tier'.rank + 1 := by
  cases tier with
  | conditional => exact ⟨.level .disjunction, rfl⟩
  | level l => exact ⟨l.operands, Level.rank_operands l⟩
  | inversion => exact ⟨.comparison, rfl⟩
  | comparison => exact ⟨.level .bitOr, rfl⟩
  | signed => exact ⟨.power, rfl⟩
  | power => exact ⟨.atom, rfl⟩
  | atom => exact absurd h (Nat.lt_irrefl 0)

section climbing

variable {e : Expr} {w rest : List Token}

theorem ReadsAs.own (h : ReadsAs e w) (hstop : StopsAt e.tier rest) :
    Reads (.expr e.tier e) (w ++ rest) rest := by
  unfold ReadsAs at h
  split at h
  · rename_i l htier
    rw [htier] at hstop ⊢
    obtain ⟨hoperands, hend⟩ := stopsAt_level.mp hstop
    exact h rest e rest hoperands (.noOperation hend)
  · exact h rest hstop

theorem Reads.climb {tier tier' : Tier} (hrank : tier'.rank = tier.rank + 1)
    (hs : (Phrase.expr e).Spelled w) (hf : e.fits = true) (hle : e.tier.rank ≤ tier.rank)
    (hstop : StopsAt tier' rest) (h : Reads (.expr tier e) (w ++ rest) rest) :
    Reads (.expr tier' e) (w ++ rest) rest := by
  obtain ⟨t, w', rfl, hopen⟩ := spelled_opens hs
  have heq : ∀ {tier₀ : Tier}, tier'.rank = tier₀.rank + 1 → tier = tier₀ := fun h₀ =>
    Tier.rank_injective (by omega)
  cases tier' with
  | conditional =>
    obtain rfl := heq (show _ = Tier.rank (.level .disjunction) + 1 from rfl)
    exact .plain h (stopsAt_conditional.mp hstop).2
  | level l =>
    obtain rfl := heq (Level.rank_operands l)
    exact .level h (.noOperation (stopsAt_level.mp hstop).2)
  | inversion =>
    obtain rfl := heq (show _ = Tier.rank .comparison + 1 from rfl)
    exact .inversion (ahead_cons.mpr (hopen.ne_not hf (Nat.lt_succ_of_le hle))) h
  | comparison =>
    obtain rfl := heq (show _ = Tier.rank (.level .bitOr) + 1 from rfl)
    exact .comparison h (.noLink (stopsAt_comparison.mp hstop).2)
  | signed =>
    obtain rfl := heq (show _ = Tier.rank .power + 1 from rfl)
    refine .signed (ahead_cons.mpr (Option.eq_none_iff_forall_ne_some.mpr fun op hop => ?_)) h
    obtain ⟨htier, hword⟩ := signOperator?_eq_some_iff.mp hop
    rw [← hword] at hopen
    have hle' := hopen.rank_le hf
    rw [htier] at hle'
    exact absurd (Nat.le_trans hle' hle) (by decide)
  | power =>
    obtain rfl := heq (show _ = Tier.rank .atom + 1 from rfl)
    exact .base h (stopsAt_power.mp hstop)
  | atom => cases hrank

theorem ReadsAs.reads (h : ReadsAs e w) (hs : (Phrase.expr e).Spelled w) (hf : e.fits = true)
    {tier : Tier} (hle : e.tier.rank ≤ tier.rank) (hstop : StopsAt tier rest) :
    Reads (.expr tier e) (w ++ rest) rest := by
  -- on the number of tiers between that of the expression and the one that is asked for
  generalize hd : tier.rank - e.tier.rank = d
  induction d generalizing tier with
  | zero =>
    obtain rfl : e.tier = tier := Tier.rank_injective (by omega)
    exact h.own hstop
  | succ d ih =>
    have hpos : 0 < tier.rank := by omega
    obtain ⟨tier', hrank⟩ := Tier.exists_below hpos
    exact Reads.climb hrank hs hf (by omega) hstop
      (ih (by omega) (hstop.mono (by omega)) (by omega))

theorem ReadsAs.operand (h : ReadsAs e w) (hs : (Phrase.expr e).Spelled w) (hf : e.fits = true)
    {l : Level} {e' : Expr} {rest' : List Token} (hle : e.tier.rank ≤ (Tier.level l).rank)
    (hstop : StopsAt l.operands rest) (hr : Reads (.operations l e e') rest rest') :
    Reads (.expr (.level l) e') (w ++ rest) rest' := by
  by_cases heq : e.tier = .level l
  · unfold ReadsAs at h
    rw [heq] at h
    exact h rest e' rest' hstop hr
  · have hne : e.tier.rank ≠ (Tier.level l).rank := fun h => heq (Tier.rank_injective h)
    have hrank := Level.rank_operands l
    exact .level (h.reads hs hf (by omega) hstop) hr

end climbing

/-- Kinds that end a list of arguments: none of them goes on with an expression or begins one. -/
def EndsList (closes : Kind → Bool) : Prop :=
  ∀ k, closes k = true → joins? k = none ∧ ∀ e, ¬ OpensWith e k

/-- What a spelled phrase owes the readers. -/
def Readable : Phrase → List Token → Prop
  | .expr e, w => e.fits = true → ReadsAs e w
  | .links ls, w => fitLinks ls = true → ∀ rest, StopsAt .comparison rest →
      Reads (.links ls) (w ++ rest) rest
  | .args es, w => fitAll es = true → es.tail.all (!·.startsWithSign) = true →
      ∀ closes rest, EndsList closes → Ahead (closes · = true) rest →
      Reads (.args closes es) (w ++ rest) rest

section spelled

variable {op : BinaryOp} {left right : Expr} {pos : Position} {u o v : List Token}

theorem joins?_words {k : Kind} (h : op.words.head? = some k) : joins? k = some op.tier := by
  cases op <;> cases h <;> rfl

theorem stopsAt_operator {tier : Tier} {rest : List Token} (ho : op.SpelledAt pos o)
    (hlt : tier.rank < op.tier.rank) : StopsAt tier (o ++ rest) := by
  obtain ⟨hkinds, hpos⟩ := ho
  cases o with
  | nil => cases hpos
  | cons t o =>
    have hj : joins? t.kind = some op.tier := joins?_words (by rw [← hkinds]; rfl)
    refine ahead_cons.mpr fun tier' ht => ?_
    rw [hj, Option.some.injEq] at ht
    rwa [← ht]

theorem readsAs_level {l : Level} (hop : op.tier = .level l)
    (hf : (Expr.binary left op pos right).fits = true) (hl : (Phrase.expr left).Spelled u)
    (ho : op.SpelledAt pos o) (hr : (Phrase.expr right).Spelled v)
    (ihl : ReadsAs left u) (ihr : ReadsAs right v) :
    ReadsAs (.binary left op pos right) (u ++ o ++ v) := by
  simp only [Expr.fits, BinaryOp.joins, hop, Bool.and_eq_true, decide_eq_true_eq] at hf
  obtain ⟨⟨hfl, hfr⟩, hle, hlt⟩ := hf
  have hrank := Level.rank_operands l
  unfold ReadsAs
  rw [show (Expr.binary left op pos right).tier = .level l from hop]
  intro rest e' rest' hstop hs
  rw [List.append_assoc, List.append_assoc]
  refine ihl.operand hl hfl hle (stopsAt_operator ho (by rw [hop]; omega)) ?_
  -- operators of two words are comparisons, which are on no level
  obtain ⟨k, hk⟩ : ∃ k, op.words = [k] := by
    cases op <;> first | exact ⟨_, rfl⟩ | cases hop
  obtain ⟨t, rfl, rfl, rfl⟩ := spelledAt_eq_singleton ho hk
  exact .operation (operator?_eq_some_iff.mpr ⟨hop, hk⟩) (ihr.reads hr hfr (by omega) hstop) hs

theorem readsAs_power (hf : (Expr.binary left .power pos right).fits = true)
    (hl : (Phrase.expr left).Spelled u) (ho : BinaryOp.SpelledAt .power pos o)
    (hr : (Phrase.expr right).Spelled v) (ihl : ReadsAs left u) (ihr : ReadsAs right v) :
    ReadsAs (.binary left .power pos right) (u ++ o ++ v) := by
  simp only [Expr.fits, BinaryOp.joins, BinaryOp.tier, Bool.and_eq_true, decide_eq_true_eq] at hf
  obtain ⟨⟨hfl, hfr⟩, hlt, hle⟩ := hf
  intro rest hstop
  obtain ⟨t, rfl, ht, rfl⟩ := spelledAt_eq_singleton ho rfl
  rw [List.append_assoc, List.append_assoc]
  have hatom : left.tier.rank ≤ Tier.rank .atom := Nat.le_of_lt_succ hlt
  have hbase := ihl.reads hl hfl hatom (stopsAt_atom (t :: (v ++ rest)))
  exact .power hbase ht (ihr.reads hr hfr hle (stopsAt_signed.mpr hstop))

theorem readsAs_ternary {c : Expr} {t t' : Token} {w : List Token}
    (hf : (Expr.ternary c left right).fits = true) (hl : (Phrase.expr left).Spelled u)
    (ht : t.kind = .keyword .ifOp) (hc : (Phrase.expr c).Spelled v)
    (ht' : t'.kind = .keyword .elseOp) (hr : (Phrase.expr right).Spelled w)
    (ihl : ReadsAs left u) (ihc : ReadsAs c v) (ihr : ReadsAs right w) :
    ReadsAs (.ternary c left right) (u ++ t :: v ++ t' :: w) := by
  simp only [Expr.fits, Bool.and_eq_true, decide_eq_true_eq] at hf
  obtain ⟨⟨⟨hfc, hfl⟩, hfr⟩, hlt⟩ := hf
  intro rest hstop
  have hif : StopsAt (.level .disjunction) (t :: (v ++ t' :: (w ++ rest))) := by
    refine ahead_cons.mpr fun tier hj => ?_
    rw [ht] at hj
    cases hj
    decide
  have helse : StopsAt .conditional (t' :: (w ++ rest)) :=
    stopsAt_of_joins? (by simp [ht', joins?])
  rw [show u ++ t :: v ++ t' :: w ++ rest = u ++ t :: (v ++ t' :: (w ++ rest)) by simp]
  have hle : left.tier.rank ≤ Tier.rank (.level .disjunction) := Nat.le_of_lt_succ hlt
  have hleft := ihl.reads hl hfl hle hif
  have hcond := ihc.reads hc hfc (Tier.rank_le_conditional _) helse
  have hright := ihr.reads hr hfr (Tier.rank_le_conditional _) hstop
  exact .ternary hleft ht hcond ht' hright

end spelled

/-- Behind a spelled argument stands the next one, which has no sign in front, or the end. -/
theorem stopsAt_args {es : List Expr} {v rest : List Token} {closes : Kind → Bool}
    (hs : (Phrase.args es).Spelled v) (hns : es.all (!·.startsWithSign) = true)
    (hc : EndsList closes) (hend : Ahead (closes · = true) rest) :
    StopsAt .conditional (v ++ rest) := by
  refine stopsAt_of_joins? ?_
  cases es with
  | nil =>
    cases hs
    exact hend.mono fun k hk => (hc k hk).1
  | cons a es =>
    obtain ⟨t, v', rfl, hopen⟩ := spelled_args_opens hs
    simp only [List.all_cons, Bool.and_eq_true, Bool.not_eq_true'] at hns
    exact ahead_cons.mpr (hopen.joins?_eq_none_iff.mpr hns.1)

theorem stopsAt_links {ls : List (Link Expr)} {v rest : List Token}
    (hs : (Phrase.links ls).Spelled v) (hf : fitLinks ls = true)
    (hstop : StopsAt .comparison rest) :
    StopsAt (.level .bitOr) (v ++ rest) := by
  cases hs with
  | noLink => exact hstop.mono (by decide)
  | link ho hr hs =>
    simp only [fitLinks, Bool.and_eq_true, beq_iff_eq] at hf
    rw [List.append_assoc, List.append_assoc]
    exact stopsAt_operator ho (by rw [hf.1.1.1]; decide)

theorem endsList_rightParen : EndsList (· == .symbol .rightParen) := by
  intro k hk
  obtain rfl : k = .symbol .rightParen := by simpa using hk
  refine ⟨rfl, fun e he => ?_⟩
  rcases he.cases with ⟨-, -, h⟩ | ⟨-, -, h⟩ | ⟨-, -, h⟩ <;> simp at h

theorem endsList_endsArguments : EndsList endsArguments := by
  intro k hk
  unfold endsArguments at hk
  split at hk
  · refine ⟨rfl, fun e he => ?_⟩
    rcases he.cases with ⟨-, -, h⟩ | ⟨-, -, h⟩ | ⟨-, -, h⟩ <;> simp at h
  · refine ⟨rfl, fun e he => ?_⟩
    rcases he.cases with ⟨-, -, h⟩ | ⟨-, -, h⟩ | ⟨-, -, h⟩ <;> simp at h
  · cases hk

/-- What is spelled is read. -/
theorem readable {p : Phrase} {w : List Token} (h : p.Spelled w) : Readable p w := by
  induction h with
  | literal ht =>
    intro _ rest _
    exact .leaf (leaf?_literal ht)
  | name ht =>
    intro _ rest _
    exact .leaf (leaf?_name ht)
  | @group t u e w ht he hu ih =>
    intro hf rest _
    simp only [Expr.fits, Bool.and_eq_true, Bool.not_eq_true'] at hf
    have hinner : Reads (.expr .conditional e) (w ++ u :: rest) (u :: rest) :=
      (ih hf.1).reads he hf.1 (Tier.rank_le_conditional _)
        (stopsAt_of_joins? (by simp [hu, joins?]))
    rw [show t :: w ++ [u] ++ rest = t :: (w ++ u :: rest) by simp]
    refine .group ht ?_ hinner hu
    obtain ⟨n, w', rfl, hopen⟩ := spelled_opens he
    refine ahead_cons.mpr fun hn => ?_
    rw [hopen.eq_command_iff, hf.2] at hn
    cases hn
  | @call t n u es w ht hn hs hu ih =>
    intro hf rest _
    simp only [Expr.fits, Bool.and_eq_true] at hf
    rw [show t :: n :: w ++ [u] ++ rest = t :: n :: (w ++ u :: rest) by simp]
    exact .call ht hn (ih hf.1 hf.2 _ _ endsList_rightParen (by simp [hu])) hu
  | @unary t op e w ht he ih =>
    intro hf
    simp only [Expr.fits, Bool.and_eq_true, decide_eq_true_eq] at hf
    have hr : ∀ rest, StopsAt op.tier rest → Reads (.expr op.tier e) (w ++ rest) rest :=
      fun rest hstop => (ih hf.1).reads he hf.1 hf.2 hstop
    cases op with
    | not => exact fun rest hstop => .not ht (hr rest hstop)
    | negate => exact fun rest hstop => .sign (by rw [ht]; rfl) (hr rest hstop)
    | plus => exact fun rest hstop => .sign (by rw [ht]; rfl) (hr rest hstop)
    | bitNot => exact fun rest hstop => .sign (by rw [ht]; rfl) (hr rest hstop)
  | @binary left op pos right u o v hl ho hr ihl ihr =>
    intro hf
    have hf' := hf
    simp only [Expr.fits, BinaryOp.joins, Bool.and_eq_true] at hf'
    obtain ⟨⟨hfl, hfr⟩, hj⟩ := hf'
    split at hj
    · rename_i l hop
      exact readsAs_level hop hf hl ho hr (ihl hfl) (ihr hfr)
    · rename_i hop
      obtain rfl : op = .power := by cases op <;> first | rfl | cases hop
      exact readsAs_power hf hl ho hr (ihl hfl) (ihr hfr)
    · cases hj
  | @comparison first ls u v hf' hs ihf ihs =>
    intro hf rest hstop
    simp only [Expr.fits, Bool.and_eq_true, decide_eq_true_eq] at hf
    obtain ⟨⟨⟨hff, hlt⟩, hne⟩, hfl⟩ := hf
    have hfirst : Reads (.expr (.level .bitOr) first) (u ++ (v ++ rest)) (v ++ rest) :=
      (ihf hff).reads hf' hff (Nat.le_of_lt_succ hlt) (stopsAt_links hs hfl hstop)
    have hchain := Reads.comparison hfirst (ihs hfl rest hstop)
    rw [List.append_assoc]
    cases ls with
    | nil => cases hne
    | cons l ls => exact hchain
  | ternary hl ht hc ht' hr ihl ihc ihr =>
    intro hf
    have hf' := hf
    simp only [Expr.fits, Bool.and_eq_true] at hf'
    obtain ⟨⟨⟨hfc, hfl⟩, hfr⟩, -⟩ := hf'
    exact readsAs_ternary hf hl ht hc ht' hr (ihl hfl) (ihc hfc) (ihr hfr)
  | noLink =>
    intro _ rest hstop
    exact .noLink (stopsAt_comparison.mp hstop).2
  | @link op pos right ls o u v ho hr hs ihr ihs =>
    intro hf rest hstop
    have hf' := hf
    simp only [fitLinks, Bool.and_eq_true, beq_iff_eq, decide_eq_true_eq] at hf'
    obtain ⟨⟨⟨hop, hfr⟩, hlt⟩, hfl⟩ := hf'
    rw [show o ++ u ++ v ++ rest = o ++ (u ++ (v ++ rest)) by simp]
    have hle : right.tier.rank ≤ Tier.rank (.level .bitOr) := Nat.le_of_lt_succ hlt
    have hright := (ihr hfr).reads hr hfr hle (stopsAt_links hs hfl hstop)
    -- behind `is`, a `not` would be the second word of the operator
    have hnot : Ahead (· ≠ .keyword .notOp) (u ++ (v ++ rest)) := by
      obtain ⟨t, u', rfl, hopen⟩ := spelled_opens hr
      exact ahead_cons.mpr (hopen.ne_not hfr (Nat.lt_trans hlt (by decide)))
    obtain ⟨r, hread, hgives⟩ := comparisonOperator_of_spelled hop ho hnot
    exact .link hread hgives hright (ihs hfl rest hstop)
  | noArg =>
    intro _ _ closes rest _ hend
    exact .noArg hend
  | @arg e es u v he hs ihe ihs =>
    intro hf hns closes rest hc hend
    simp only [fitAll, Bool.and_eq_true] at hf
    rw [List.tail_cons] at hns
    have harg := (ihe hf.1).reads he hf.1 (Tier.rank_le_conditional _)
      (stopsAt_args hs hns hc hend)
    have htail : es.tail.all (!·.startsWithSign) = true := by
      cases es with
      | nil => rfl
      | cons a es => exact (Bool.and_eq_true_iff.mp hns).2
    rw [List.append_assoc]
    obtain ⟨t, u', rfl, hopen⟩ := spelled_opens he
    have hopens : closes t.kind = false :=
      Bool.eq_false_iff.mpr fun hclose => (hc t.kind hclose).2 e hopen
    exact .arg hopens harg (ihs hf.2 htail closes rest hc hend)

/-! ## Expressions as a whole -/

/-- An expression that stands alone is read from exactly the tokens that spell it, if it fits and
what follows does not go on with it. -/
theorem reads_expr_iff {e : Expr} {ts rest : List Token} :
    Reads (.expr .conditional e) ts rest ↔
      e.fits = true ∧ Ahead (joins? · = none) rest ∧
        ∃ w, ts = w ++ rest ∧ (Phrase.expr e).Spelled w := by
  constructor
  · intro h
    obtain ⟨w, rfl, hw, hf, -, hstop⟩ := h.accounted
    exact ⟨hf, joins?_of_stopsAt_conditional hstop, w, rfl, hw⟩
  · rintro ⟨hf, hend, w, rfl, hw⟩
    exact (readable hw hf).reads hw hf e.tier.rank_le_conditional (stopsAt_of_joins? hend)

theorem reads_args_iff {closes : Kind → Bool} {es : List Expr} {ts rest : List Token}
    (hc : EndsList closes) :
    Reads (.args closes es) ts rest ↔
      (fitAll es = true ∧ es.tail.all (!·.startsWithSign) = true) ∧ Ahead (closes · = true) rest ∧
        ∃ w, ts = w ++ rest ∧ (Phrase.args es).Spelled w := by
  constructor
  · intro h
    obtain ⟨w, rfl, hw, hf, hns, hend⟩ := h.accounted
    exact ⟨⟨hf, hns⟩, hend, w, rfl, hw⟩
  · rintro ⟨⟨hf, hns⟩, hend, w, rfl, hw⟩
    exact readable hw hf hns closes rest hc hend

end Offside.Grammar
