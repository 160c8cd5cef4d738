import Mathlib.Tactic.SplitIfs
import Offside.Grammar.Expression

/-!
# What reading an expression amounts to

The readers of expressions call each other, each on what the other has left. Here their successful
runs are taken apart into rules: `Reads g ts rest` says that reading `ts` for `g` comes to its end
with `rest` left, and each rule says what was looked at on the way. A rule also records what made
the reader stop, so the relation is exactly the readers' success: `reads_iff`.

Soundness and completeness of the grammar are then inductions on these rules and need no measure.
-/

namespace Offside.Grammar

/-! ## Successful replies -/

/-- What comes next, if anything does, is of a kind with the property `P`. -/
def Ahead (P : Kind → Prop) (ts : List Token) : Prop := ∀ t ∈ ts.head?, P t.kind

@[simp] theorem ahead_nil (P : Kind → Prop) : Ahead P [] := by
  simp [Ahead]

@[simp] theorem ahead_cons {P : Kind → Prop} {t : Token} {ts : List Token} :
    Ahead P (t :: ts) ↔ P t.kind := by
  simp [Ahead]

theorem Ahead.mono {P Q : Kind → Prop} {ts : List Token} (h : Ahead P ts) (hPQ : ∀ k, P k → Q k) :
    Ahead Q ts := fun t ht => hPQ t.kind (h t ht)

namespace Reply

variable {α β : Type} {k : Nat} {ts : List Token}

/-- The reply is the result `a` with `rest` left. -/
def Gives (r : Reply α k ts) (a : α) (rest : List Token) : Prop := ∃ h, r = .ok a rest h

theorem Gives.le {r : Reply α k ts} {a : α} {rest : List Token} (h : r.Gives a rest) :
    rest.length + k ≤ ts.length := h.1

@[simp] theorem gives_ok {a b : α} {rest rest' : List Token} {h : rest.length + k ≤ ts.length} :
    (Reply.ok a rest h).Gives b rest' ↔ a = b ∧ rest = rest' := by
  constructor
  · rintro ⟨_, he⟩
    injection he with ha hrest
    exact ⟨ha, hrest⟩
  · rintro ⟨rfl, rfl⟩
    exact ⟨h, rfl⟩

@[simp] theorem not_gives_fail {e : SyntaxError} {b : α} {rest rest' : List Token}
    {h : rest.length ≤ ts.length} : ¬ (Reply.fail e rest h : Reply α k ts).Gives b rest' := by
  rintro ⟨_, he⟩
  cases he

theorem gives_andThen {j : Nat} {r : Reply α k ts}
    {f : (a : α) → (rest : List Token) → rest.length + k ≤ ts.length → Reply β j rest} {b : β}
    {rest : List Token} :
    (r.andThen f).Gives b rest ↔ ∃ a mid, ∃ h : r.Gives a mid, (f a mid h.le).Gives b rest := by
  constructor
  · intro hb
    cases r with
    | fail e mid le => exact absurd hb not_gives_fail
    | ok a mid shorter =>
      refine ⟨a, mid, ⟨shorter, rfl⟩, ?_⟩
      cases hf : f a mid shorter with
      | fail e mid' le => simp [andThen, hf] at hb
      | ok b' mid' shorter' => simpa [andThen, hf] using hb
  · rintro ⟨a, mid, ⟨shorter, rfl⟩, shorter', hb⟩
    simp [andThen, hb]

theorem Gives.andThen {j : Nat} {r : Reply α k ts}
    {f : (a : α) → (rest : List Token) → rest.length + k ≤ ts.length → Reply β j rest} {a : α}
    {b : β} {mid rest : List Token} (h : r.Gives a mid) (hf : (f a mid h.le).Gives b rest) :
    (r.andThen f).Gives b rest := gives_andThen.mpr ⟨a, mid, h, hf⟩

@[simp] theorem gives_map {f : α → β} {r : Reply α k ts} {b : β} {rest : List Token} :
    (r.map f).Gives b rest ↔ ∃ a, r.Gives a rest ∧ f a = b := by
  cases r with
  | fail e mid le => simp [map]
  | ok a mid shorter =>
    simp only [map, gives_ok]
    constructor
    · rintro ⟨hb, hrest⟩
      exact ⟨a, ⟨rfl, hrest⟩, hb⟩
    · rintro ⟨a', ⟨rfl, hrest⟩, hb⟩
      exact ⟨hb, hrest⟩

@[simp] theorem gives_behind {t : Token} {r : Reply α k ts} {a : α} {rest : List Token} :
    (r.behind t).Gives a rest ↔ r.Gives a rest := by
  cases r <;> simp [behind]

@[simp] theorem gives_loosen {r : Reply α k ts} {a : α} {rest : List Token} :
    r.loosen.Gives a rest ↔ r.Gives a rest := by
  cases r <;> simp [loosen]

end Reply

@[simp] theorem gives_expect {stop : Position} {kind : Kind} {what : SyntaxError.Wanted} {t : Token}
    {ts rest : List Token} :
    (expect stop kind what ts).Gives t rest ↔ ts = t :: rest ∧ t.kind = kind := by
  cases ts with
  | nil => simp [expect]
  | cons u us =>
    simp only [expect]
    split_ifs with h
    · rw [Reply.gives_ok]
      constructor
      · rintro ⟨rfl, rfl⟩
        exact ⟨rfl, h⟩
      · rintro ⟨he, -⟩
        exact List.cons.inj he
    · simp only [Reply.not_gives_fail, false_iff, not_and, List.cons.injEq]
      rintro ⟨rfl, -⟩
      exact h

/-! ## The rules -/

/-- What can be asked of the tokens that come next. -/
inductive Goal
  /-- An expression of a tier. -/
  | expr (tier : Tier) (e : Expr)
  /-- Operators of a level and their right operands, which make `e` of the operand `left`. -/
  | operations (l : Level) (left e : Expr)
  /-- The comparisons of a chain behind its first operand. -/
  | links (ls : List (Link Expr))
  /-- Arguments up to a token that closes them. -/
  | args (closes : Kind → Bool) (es : List Expr)

/-- Reading the tokens `ts` for a goal ends well and leaves `rest`. -/
inductive Reads : Goal → List Token → List Token → Prop
  | plain {e ts rest} (he : Reads (.expr (.level .disjunction) e) ts rest)
      (hend : Ahead (· ≠ .keyword .ifOp) rest) : Reads (.expr .conditional e) ts rest
  | ternary {left c right t u ts r₁ r₂ rest}
      (hl : Reads (.expr (.level .disjunction) left) ts (t :: r₁)) (ht : t.kind = .keyword .ifOp)
      (hc : Reads (.expr .conditional c) r₁ (u :: r₂)) (hu : u.kind = .keyword .elseOp)
      (hr : Reads (.expr .conditional right) r₂ rest) :
      Reads (.expr .conditional (.ternary c left right)) ts rest
  | level {l left e ts mid rest} (hl : Reads (.expr l.operands left) ts mid)
      (hs : Reads (.operations l left e) mid rest) : Reads (.expr (.level l) e) ts rest
  | noOperation {l e ts} (hend : Ahead (l.operator? · = none) ts) :
      Reads (.operations l e e) ts ts
  | operation {l left op right e t r₁ r₂ rest} (ht : l.operator? t.kind = some op)
      (hr : Reads (.expr l.operands right) r₁ r₂)
      (hs : Reads (.operations l (.binary left op t.pos right) e) r₂ rest) :
      Reads (.operations l left e) (t :: r₁) rest
  | not {right t r₁ rest} (ht : t.kind = .keyword .notOp)
      (hr : Reads (.expr .inversion right) r₁ rest) :
      Reads (.expr .inversion (.unary .not t.pos right)) (t :: r₁) rest
  | inversion {e ts rest} (hend : Ahead (· ≠ .keyword .notOp) ts)
      (he : Reads (.expr .comparison e) ts rest) : Reads (.expr .inversion e) ts rest
  | comparison {first ls ts mid rest} (hf : Reads (.expr (.level .bitOr) first) ts mid)
      (hs : Reads (.links ls) mid rest) : Reads (.expr .comparison (chain first ls)) ts rest
  | noLink {ts} (hend : comparisonOperator ts = none) : Reads (.links []) ts ts
  | link {op pos right ls ts r₁ r₂ rest} {r : Reply (BinaryOp × Position) 1 ts}
      (ho : comparisonOperator ts = some r) (hop : r.Gives (op, pos) r₁)
      (hr : Reads (.expr (.level .bitOr) right) r₁ r₂) (hs : Reads (.links ls) r₂ rest) :
      Reads (.links (⟨op, pos, right⟩ :: ls)) ts rest
  | sign {op right t r₁ rest} (ht : signOperator? t.kind = some op)
      (hr : Reads (.expr .signed right) r₁ rest) :
      Reads (.expr .signed (.unary op t.pos right)) (t :: r₁) rest
  | signed {e ts rest} (hend : Ahead (signOperator? · = none) ts)
      (he : Reads (.expr .power e) ts rest) : Reads (.expr .signed e) ts rest
  | base {e ts rest} (he : Reads (.expr .atom e) ts rest)
      (hend : Ahead (· ≠ .symbol .starStar) rest) : Reads (.expr .power e) ts rest
  | power {base exponent t ts r₁ rest} (hb : Reads (.expr .atom base) ts (t :: r₁))
      (ht : t.kind = .symbol .starStar) (hr : Reads (.expr .signed exponent) r₁ rest) :
      Reads (.expr .power (.binary base .power t.pos exponent)) ts rest
  | leaf {t e rest} (ht : leaf? t = some e) : Reads (.expr .atom e) (t :: rest) rest
  | call {t n u es r₁ rest} (ht : t.kind = .symbol .leftParen) (hn : n.kind = .command)
      (hs : Reads (.args (· == .symbol .rightParen) es) r₁ (u :: rest))
      (hu : u.kind = .symbol .rightParen) :
      Reads (.expr .atom (.call ⟨n.lexeme, n.pos⟩ es)) (t :: n :: r₁) rest
  | group {t u e r₁ rest} (ht : t.kind = .symbol .leftParen) (hn : Ahead (· ≠ .command) r₁)
      (he : Reads (.expr .conditional e) r₁ (u :: rest)) (hu : u.kind = .symbol .rightParen) :
      Reads (.expr .atom (.group e)) (t :: r₁) rest
  | noArg {closes ts} (hend : Ahead (closes · = true) ts) : Reads (.args closes []) ts ts
  | arg {closes e es t r₁ r₂ rest} (ht : closes t.kind = false)
      (he : Reads (.expr .conditional e) (t :: r₁) r₂) (hs : Reads (.args closes es) r₂ rest) :
      Reads (.args closes (e :: es)) (t :: r₁) rest

/-- The reader of a goal succeeds on `ts` and leaves `rest`. -/
def Granted (stop : Position) : Goal → List Token → List Token → Prop
  | .expr tier e, ts, rest => (expression stop tier ts).Gives e rest
  | .operations l left e, ts, rest => (operations stop l left ts).Gives e rest
  | .links ls, ts, rest => (comparisons stop ts).Gives ls rest
  | .args closes es, ts, rest => (arguments stop closes ts).Gives es rest

variable {stop : Position}

theorem Reads.granted {g : Goal} {ts rest : List Token} (h : Reads g ts rest) :
    Granted stop g ts rest := by
  induction h with
  | @plain e ts rest he hend ih =>
    rw [Granted, expression]
    refine Reply.Gives.andThen ih ?_
    cases rest with
    | nil => simp
    | cons t rest => simp [ahead_cons.mp hend]
  | @ternary left c right t u ts r₁ r₂ rest hl ht hc hu hr ihl ihc ihr =>
    rw [Granted, expression]
    refine Reply.Gives.andThen ihl ?_
    simp only [ht, if_true, Reply.gives_loosen, Reply.gives_behind]
    refine Reply.Gives.andThen ihc (Reply.Gives.andThen (gives_expect.mpr ⟨rfl, hu⟩) ?_)
    exact Reply.gives_map.mpr ⟨right, ihr, rfl⟩
  | level hl hs ihl ihs =>
    rw [Granted, expression]
    exact Reply.Gives.andThen ihl ihs
  | @noOperation l e ts hend =>
    rw [Granted]
    cases ts with
    | nil => simp [operations]
    | cons t ts => simp [operations, ahead_cons.mp hend]
  | operation ht hr hs ihr ihs =>
    simp only [Granted, operations, ht, Reply.gives_loosen, Reply.gives_behind]
    exact Reply.Gives.andThen ihr ihs
  | @not right t r₁ rest ht hr ih =>
    simp only [Granted, expression, ht, if_true, Reply.gives_behind]
    exact Reply.gives_map.mpr ⟨right, ih, rfl⟩
  | @inversion e ts rest hend he ih =>
    cases ts with
    | nil => simpa only [Granted, expression] using ih
    | cons t ts => simpa only [Granted, expression, ahead_cons.mp hend, if_false] using ih
  | @comparison first ls ts mid rest hf hs ihf ihs =>
    rw [Granted, expression]
    exact Reply.Gives.andThen ihf (Reply.gives_map.mpr ⟨ls, ihs, rfl⟩)
  | @noLink ts hend =>
    rw [Granted, comparisons, hend]
    simp
  | @link op pos right ls ts r₁ r₂ rest r ho hop hr hs ihr ihs =>
    rw [Granted, comparisons, ho]
    simp only [Reply.gives_loosen]
    exact Reply.Gives.andThen hop (Reply.Gives.andThen ihr (Reply.gives_map.mpr ⟨ls, ihs, rfl⟩))
  | @sign op right t r₁ rest ht hr ih =>
    simp only [Granted, expression, ht, Reply.gives_behind]
    exact Reply.gives_map.mpr ⟨right, ih, rfl⟩
  | @signed e ts rest hend he ih =>
    cases ts with
    | nil => simpa only [Granted, expression] using ih
    | cons t ts => simpa only [Granted, expression, ahead_cons.mp hend] using ih
  | @base e ts rest he hend ih =>
    rw [Granted, expression]
    refine Reply.Gives.andThen ih ?_
    cases rest with
    | nil => simp
    | cons t rest => simp [ahead_cons.mp hend]
  | @power base exponent t ts r₁ rest hb ht hr ihb ihr =>
    rw [Granted, expression]
    refine Reply.Gives.andThen ihb ?_
    simp only [ht, if_true, Reply.gives_loosen, Reply.gives_behind]
    exact Reply.gives_map.mpr ⟨exponent, ihr, rfl⟩
  | leaf ht =>
    rw [Granted, expression.eq_def]
    simp [ht]
  | @call t n u es r₁ rest ht hn hs hu ih =>
    have hleaf : leaf? t = none := by simp [leaf?, ht]
    rw [Granted, expression.eq_def]
    simp only [hleaf, ht, hn, if_true, Reply.gives_behind]
    exact Reply.Gives.andThen ih (Reply.gives_map.mpr ⟨u, gives_expect.mpr ⟨rfl, hu⟩, rfl⟩)
  | @group t u e r₁ rest ht hn he hu ih =>
    have hleaf : leaf? t = none := by simp [leaf?, ht]
    cases r₁ with
    | nil => exact absurd (Reply.Gives.le ih) (by simp)
    | cons n r₁ =>
      rw [Granted, expression.eq_def]
      simp only [hleaf, ht, ahead_cons.mp hn, if_true, if_false, Reply.gives_behind]
      exact Reply.Gives.andThen ih (Reply.gives_map.mpr ⟨u, gives_expect.mpr ⟨rfl, hu⟩, rfl⟩)
  | @noArg closes ts hend =>
    cases ts with
    | nil => simp [Granted, arguments]
    | cons t ts => simp [Granted, arguments, ahead_cons.mp hend]
  | @arg closes e es t r₁ r₂ rest ht he hs ihe ihs =>
    rw [Granted, arguments]
    simp only [ht, Bool.false_eq_true, if_false, Reply.gives_loosen]
    exact Reply.Gives.andThen ihe (Reply.gives_map.mpr ⟨es, ihs, rfl⟩)

/-! ## Every success has its rules -/

/-- The measure that the readers go down on. -/
def Goal.cost : Goal → List Token → Nat
  | .expr tier _, ts => 16 * ts.length + tier.rank
  | _, ts => 16 * ts.length + 15

/-- Below the cost `n`, the readers follow the rules. -/
def ReadBelow (stop : Position) (n : Nat) : Prop :=
  ∀ g ts rest, g.cost ts < n → Granted stop g ts rest → Reads g ts rest

variable {ts rest : List Token} {e : Expr}

theorem conditional_reads (ih : ReadBelow stop (16 * ts.length + 13))
    (h : (expression stop .conditional ts).Gives e rest) :
    Reads (.expr .conditional e) ts rest := by
  rw [expression, Reply.gives_andThen] at h
  obtain ⟨left, mid, hl, h⟩ := h
  have hleft := ih (.expr (.level .disjunction) left) ts mid (by simp [Goal.cost, Tier.rank]) hl
  have hle := hl.le
  cases mid with
  | nil =>
    obtain ⟨rfl, rfl⟩ := Reply.gives_ok.mp h
    exact .plain hleft (ahead_nil _)
  | cons t r₁ =>
    simp only at h
    split_ifs at h with ht
    · simp only [Reply.gives_loosen, Reply.gives_behind, Reply.gives_andThen, gives_expect,
        Reply.gives_map] at h
      obtain ⟨c, r₂, hc, u, r₃, ⟨rfl, hu⟩, right, hr, rfl⟩ := h
      have hlec := hc.le
      simp only [List.length_cons] at hle hlec
      refine .ternary hleft ht (ih _ _ _ ?_ hc) hu (ih _ _ _ ?_ hr)
      all_goals simp only [Goal.cost, Tier.rank]; omega
    · obtain ⟨rfl, rfl⟩ := Reply.gives_ok.mp h
      exact .plain hleft (ahead_cons.mpr ht)

theorem level_reads {l : Level} (ih : ReadBelow stop (16 * ts.length + (Tier.level l).rank))
    (h : (expression stop (.level l) ts).Gives e rest) : Reads (.expr (.level l) e) ts rest := by
  rw [expression, Reply.gives_andThen] at h
  obtain ⟨left, mid, hl, hs⟩ := h
  have hle := hl.le
  have hrank := Level.rank_operands_lt l
  refine .level (ih (.expr l.operands left) ts mid ?_ hl) (ih (.operations l left e) mid rest ?_ hs)
  all_goals simp only [Goal.cost]; omega

theorem operations_reads {l : Level} {left : Expr} (ih : ReadBelow stop (16 * ts.length + 15))
    (h : (operations stop l left ts).Gives e rest) : Reads (.operations l left e) ts rest := by
  cases ts with
  | nil =>
    rw [operations, Reply.gives_ok] at h
    obtain ⟨rfl, rfl⟩ := h
    exact .noOperation (ahead_nil _)
  | cons t r₁ =>
    rw [operations] at h
    cases hop : l.operator? t.kind with
    | none =>
      rw [hop] at h
      obtain ⟨rfl, rfl⟩ := Reply.gives_ok.mp h
      exact .noOperation (ahead_cons.mpr hop)
    | some op =>
      simp only [hop, Reply.gives_loosen, Reply.gives_behind, Reply.gives_andThen] at h
      obtain ⟨right, r₂, hr, hs⟩ := h
      have hle := hr.le
      have hrank := Tier.rank_lt l.operands
      refine .operation hop (ih _ _ _ ?_ hr) (ih (.operations l _ e) _ _ ?_ hs)
      all_goals simp only [Goal.cost, List.length_cons]; omega

theorem inversion_reads (ih : ReadBelow stop (16 * ts.length + 10))
    (h : (expression stop .inversion ts).Gives e rest) : Reads (.expr .inversion e) ts rest := by
  cases ts with
  | nil =>
    rw [expression] at h
    exact .inversion (ahead_nil _) (ih _ _ _ (by simp [Goal.cost, Tier.rank]) h)
  | cons t r₁ =>
    rw [expression] at h
    split_ifs at h with ht
    · simp only [Reply.gives_behind, Reply.gives_map] at h
      obtain ⟨right, hr, rfl⟩ := h
      refine .not ht (ih _ _ _ ?_ hr)
      simp only [Goal.cost, Tier.rank, List.length_cons]
      omega
    · exact .inversion (ahead_cons.mpr ht) (ih _ _ _ (by simp [Goal.cost, Tier.rank]) h)

theorem comparison_reads (ih : ReadBelow stop (16 * ts.length + 9))
    (h : (expression stop .comparison ts).Gives e rest) : Reads (.expr .comparison e) ts rest := by
  rw [expression, Reply.gives_andThen] at h
  obtain ⟨first, mid, hf, h⟩ := h
  obtain ⟨ls, hs, rfl⟩ := Reply.gives_map.mp h
  have hle := hf.le
  refine .comparison (ih _ _ _ ?_ hf) (ih (.links ls) _ _ ?_ hs)
  all_goals simp only [Goal.cost, Tier.rank]; omega

theorem links_reads {ls : List (Link Expr)} (ih : ReadBelow stop (16 * ts.length + 15))
    (h : (comparisons stop ts).Gives ls rest) : Reads (.links ls) ts rest := by
  rw [comparisons] at h
  cases ho : comparisonOperator ts with
  | none =>
    rw [ho] at h
    obtain ⟨rfl, rfl⟩ := Reply.gives_ok.mp h
    exact .noLink ho
  | some r =>
    simp only [ho, Reply.gives_loosen, Reply.gives_andThen, Reply.gives_map] at h
    obtain ⟨⟨op, pos⟩, r₁, hop, right, r₂, hr, ls, hs, rfl⟩ := h
    have hle₁ := hop.le
    have hle₂ := hr.le
    refine .link ho hop (ih _ _ _ ?_ hr) (ih (.links ls) _ _ ?_ hs)
    all_goals simp only [Goal.cost, Tier.rank]; omega

theorem signed_reads (ih : ReadBelow stop (16 * ts.length + 2))
    (h : (expression stop .signed ts).Gives e rest) : Reads (.expr .signed e) ts rest := by
  cases ts with
  | nil =>
    rw [expression] at h
    exact .signed (ahead_nil _) (ih _ _ _ (by simp [Goal.cost, Tier.rank]) h)
  | cons t r₁ =>
    rw [expression] at h
    cases hop : signOperator? t.kind with
    | none =>
      rw [hop] at h
      exact .signed (ahead_cons.mpr hop) (ih _ _ _ (by simp [Goal.cost, Tier.rank]) h)
    | some op =>
      simp only [hop, Reply.gives_behind, Reply.gives_map] at h
      obtain ⟨right, hr, rfl⟩ := h
      refine .sign hop (ih _ _ _ ?_ hr)
      simp only [Goal.cost, Tier.rank, List.length_cons]
      omega

theorem power_reads (ih : ReadBelow stop (16 * ts.length + 1))
    (h : (expression stop .power ts).Gives e rest) : Reads (.expr .power e) ts rest := by
  rw [expression, Reply.gives_andThen] at h
  obtain ⟨base, mid, hb, h⟩ := h
  have hbase := ih (.expr .atom base) ts mid (by simp [Goal.cost, Tier.rank]) hb
  have hle := hb.le
  cases mid with
  | nil =>
    obtain ⟨rfl, rfl⟩ := Reply.gives_ok.mp h
    exact .base hbase (ahead_nil _)
  | cons t r₁ =>
    simp only at h
    split_ifs at h with ht
    · simp only [Reply.gives_loosen, Reply.gives_behind, Reply.gives_map] at h
      obtain ⟨exponent, hr, rfl⟩ := h
      simp only [List.length_cons] at hle
      refine .power hbase ht (ih _ _ _ ?_ hr)
      simp only [Goal.cost, Tier.rank]
      omega
    · obtain ⟨rfl, rfl⟩ := Reply.gives_ok.mp h
      exact .base hbase (ahead_cons.mpr ht)

theorem atom_reads (ih : ReadBelow stop (16 * ts.length))
    (h : (expression stop .atom ts).Gives e rest) : Reads (.expr .atom e) ts rest := by
  rw [expression.eq_def] at h
  cases ts with
  | nil => exact absurd h Reply.not_gives_fail
  | cons t r₁ =>
    simp only at h
    cases hleaf : leaf? t with
    | some e' =>
      rw [hleaf] at h
      obtain ⟨rfl, rfl⟩ := Reply.gives_ok.mp h
      exact .leaf hleaf
    | none =>
      simp only [hleaf] at h
      split_ifs at h with ht
      · cases r₁ with
        | nil => exact absurd h Reply.not_gives_fail
        | cons n r₂ =>
          simp only at h
          split_ifs at h with hn
          · simp only [Reply.gives_behind, Reply.gives_andThen, Reply.gives_map, gives_expect] at h
            obtain ⟨es, r₃, hs, u, ⟨rfl, hu⟩, rfl⟩ := h
            refine .call ht hn (ih (.args _ es) _ _ ?_ hs) hu
            simp only [Goal.cost, List.length_cons]
            omega
          · simp only [Reply.gives_behind, Reply.gives_andThen, Reply.gives_map, gives_expect] at h
            obtain ⟨inner, r₃, he, u, ⟨rfl, hu⟩, rfl⟩ := h
            refine .group ht (ahead_cons.mpr hn) (ih _ _ _ ?_ he) hu
            simp only [Goal.cost, Tier.rank, List.length_cons]
            omega
      · exact absurd h Reply.not_gives_fail

theorem args_reads {closes : Kind → Bool} {es : List Expr}
    (ih : ReadBelow stop (16 * ts.length + 15))
    (h : (arguments stop closes ts).Gives es rest) : Reads (.args closes es) ts rest := by
  cases ts with
  | nil =>
    rw [arguments, Reply.gives_ok] at h
    obtain ⟨rfl, rfl⟩ := h
    exact .noArg (ahead_nil _)
  | cons t r₁ =>
    rw [arguments] at h
    split_ifs at h with ht
    · obtain ⟨rfl, rfl⟩ := Reply.gives_ok.mp h
      exact .noArg (ahead_cons.mpr ht)
    · simp only [Reply.gives_loosen, Reply.gives_andThen, Reply.gives_map] at h
      obtain ⟨e, r₂, he, es, hs, rfl⟩ := h
      have hle := he.le
      refine .arg (by simpa using ht) (ih _ _ _ ?_ he) (ih (.args closes es) _ _ ?_ hs)
      all_goals simp only [Goal.cost, Tier.rank, List.length_cons] at *; omega

theorem readBelow (stop : Position) (n : Nat) : ReadBelow stop n := by
  induction n with
  | zero =>
    intro g ts rest hn
    exact absurd hn (Nat.not_lt_zero _)
  | succ n ih =>
    intro g ts rest hn h
    -- everything a reader calls costs less than its own goal
    have ih' : ReadBelow stop (g.cost ts) := fun g' ts' rest' hlt =>
      ih g' ts' rest' (by omega)
    cases g with
    | operations l left e => exact operations_reads ih' h
    | links ls => exact links_reads ih' h
    | args closes es => exact args_reads ih' h
    | expr tier e =>
      cases tier with
      | conditional => exact conditional_reads ih' h
      | level l => exact level_reads ih' h
      | inversion => exact inversion_reads ih' h
      | comparison => exact comparison_reads ih' h
      | signed => exact signed_reads ih' h
      | power => exact power_reads ih' h
      | atom => exact atom_reads ih' h

/-- **The rules are the readers' success**, wherever the input is said to end. -/
theorem reads_iff (stop : Position) {g : Goal} {ts rest : List Token} :
    Reads g ts rest ↔ Granted stop g ts rest :=
  ⟨Reads.granted, readBelow stop _ g ts rest (Nat.lt_succ_self _)⟩

end Offside.Grammar
