import Offside.Syntax.Basic
import Offside.Grammar.Reply

/-!
# The grammar of expressions

Expressions are read tier by tier. From the loosest to the tightest:

* the conditional `a if c else b`;
* `or`, then `and`, then the prefix `not`;
* chains of comparisons;
* `|`, `^`, `&`, shifts, sums, products, each from the left;
* the prefixes `+`, `-`, `~`;
* powers, whose exponent is again a prefixed expression;
* literals, names and parentheses. A parenthesis in front of a command is a call of it.
-/

namespace Offside.Grammar

/-! ## Tiers -/

/-- The tiers whose operators stand between two operands and associate to the left. -/
inductive Level
  | disjunction | conjunction | bitOr | bitXor | bitAnd | shift | additive | multiplicative
deriving DecidableEq, Repr

/-- A tier of the grammar of expressions. -/
inductive Tier
  | conditional
  | level (l : Level)
  | inversion
  | comparison
  | signed
  | power
  | atom
deriving DecidableEq, Repr

namespace Level

def operator? : Level → Kind → Option BinaryOp
  | disjunction, .keyword .orOp => some .or
  | conjunction, .keyword .andOp => some .and
  | bitOr, .symbol .pipe => some .bitOr
  | bitXor, .symbol .caret => some .bitXor
  | bitAnd, .symbol .ampersand => some .bitAnd
  | shift, .symbol .lessLess => some .shiftLeft
  | shift, .symbol .greaterGreater => some .shiftRight
  | additive, .symbol .plus => some .add
  | additive, .symbol .minus => some .subtract
  | multiplicative, .symbol .star => some .multiply
  | multiplicative, .symbol .slash => some .divide
  | multiplicative, .symbol .percent => some .modulo
  | multiplicative, .symbol .slashSlash => some .floorDivide
  | _, _ => none

def operands : Level → Tier
  | disjunction => .level .conjunction
  | conjunction => .inversion
  | bitOr => .level .bitXor
  | bitXor => .level .bitAnd
  | bitAnd => .level .shift
  | shift => .level .additive
  | additive => .level .multiplicative
  | multiplicative => .signed

end Level

/-- How many tiers are tighter. -/
def Tier.rank : Tier → Nat
  | conditional => 13
  | level .disjunction => 12
  | level .conjunction => 11
  | inversion => 10
  | comparison => 9
  | level .bitOr => 8
  | level .bitXor => 7
  | level .bitAnd => 6
  | level .shift => 5
  | level .additive => 4
  | level .multiplicative => 3
  | signed => 2
  | power => 1
  | atom => 0

theorem Tier.rank_lt (t : Tier) : t.rank < 14 := by
  cases t with
  | level l => cases l <;> decide
  | _ => decide

theorem Level.rank_operands_lt (l : Level) : l.operands.rank < (Tier.level l).rank := by
  cases l <;> decide

/-- The operators in front of an operand at the tier of signs. -/
def signOperator? : Kind → Option UnaryOp
  | .symbol .plus => some .plus
  | .symbol .minus => some .negate
  | .symbol .tilde => some .bitNot
  | _ => none

/-- The comparisons of a single token. -/
def comparison? : Kind → Option BinaryOp
  | .symbol .equalEqual => some .equal
  | .symbol .bangEqual => some .notEqual
  | .symbol .less => some .less
  | .symbol .lessEqual => some .lessEqual
  | .symbol .greater => some .greater
  | .symbol .greaterEqual => some .greaterEqual
  | .keyword .inOp => some .within
  | _ => none

/-- Reads a comparison operator, if one comes next. `is not` and `not in` are one operator each, at
the position of their first word; a `not` that no `in` follows is an error. -/
def comparisonOperator : (ts : List Token) → Option (Reply (BinaryOp × Position) 1 ts)
  | [] => none
  | t :: rest =>
    match comparison? t.kind with
    | some op => some (.first (op, t.pos) t rest)
    | none =>
      if t.kind = .keyword .isOp then
        match rest with
        | u :: rest' =>
          if u.kind = .keyword .notOp then
            some (.ok (.isNot, t.pos) rest' (Nat.le_succ _))
          else some (.first (.is, t.pos) t (u :: rest'))
        | [] => some (.first (.is, t.pos) t [])
      else if t.kind = .keyword .notOp then
        match rest with
        | u :: rest' =>
          if u.kind = .keyword .inOp then
            some (.ok (.notWithin, t.pos) rest' (Nat.le_succ _))
          else some (.fail ⟨.notWithoutIn, t.pos⟩ (u :: rest') (Nat.le_succ _))
        | [] => some (.fail ⟨.notWithoutIn, t.pos⟩ [] (Nat.le_succ _))
      else none

/-- The value of a literal token; `none` when it carries none. -/
def literalOf (t : Token) : Literal :=
  match t.payload with
  | some (.number x) => .number x
  | some (.text s) => .text s
  | none => .none

/-- The expression that a token is on its own. -/
def leaf? (t : Token) : Option Expr :=
  match t.kind with
  | .keyword .trueLit => some (.literal (.boolean true))
  | .keyword .falseLit => some (.literal (.boolean false))
  | .keyword .noneLit => some (.literal .none)
  | .number => some (.literal (literalOf t))
  | .text => some (.literal (literalOf t))
  | .identifier => some (.name .variable ⟨t.lexeme, t.pos⟩)
  | .command => some (.name .command ⟨t.lexeme, t.pos⟩)
  | _ => none

def chain (first : Expr) : List (Link Expr) → Expr
  | [] => first
  | links => .comparison first links

/-! ## Reading -/

mutual

def expression (stop : Position) (tier : Tier) (ts : List Token) : Reply Expr 1 ts :=
  match tier with
  | .conditional =>
    (expression stop (.level .disjunction) ts).andThen fun left rest h =>
      match rest, h with
      | [], _ => .unread left []
      | t :: rest, _ =>
        if t.kind = .keyword .ifOp then
          Reply.loosen <| Reply.behind t <|
            (expression stop .conditional rest).andThen fun condition rest' _ =>
              (expect stop (.keyword .elseOp) .elseOfConditional rest').andThen fun _ rest'' _ =>
                (expression stop .conditional rest'').map fun right =>
                  .ternary condition left right
        else .unread left (t :: rest)
  | .level l =>
    (expression stop l.operands ts).andThen fun left rest _ => operations stop l left rest
  | .inversion =>
    match ts with
    | t :: rest =>
      if t.kind = .keyword .notOp then
        Reply.behind t <|
          (expression stop .inversion rest).map fun right => .unary .not t.pos right
      else expression stop .comparison (t :: rest)
    | [] => expression stop .comparison []
  | .comparison =>
    (expression stop (.level .bitOr) ts).andThen fun first rest _ =>
      (comparisons stop rest).map fun links => chain first links
  | .signed =>
    match ts with
    | t :: rest =>
      match signOperator? t.kind with
      | some op =>
        Reply.behind t <|
          (expression stop .signed rest).map fun right => .unary op t.pos right
      | none => expression stop .power (t :: rest)
    | [] => expression stop .power []
  | .power =>
    (expression stop .atom ts).andThen fun base rest h =>
      match rest, h with
      | [], _ => .unread base []
      | t :: rest, _ =>
        if t.kind = .symbol .starStar then
          Reply.loosen <| Reply.behind t <|
            (expression stop .signed rest).map fun exponent =>
              .binary base .power t.pos exponent
        else .unread base (t :: rest)
  | .atom =>
    match ts with
    | [] => .fail ⟨.expectedExpression (describe []), stop⟩ [] (Nat.le_refl _)
    | t :: rest =>
      match leaf? t with
      | some e => .first e t rest
      | none =>
        if t.kind = .symbol .leftParen then
          match rest with
          | n :: rest' =>
            if n.kind = .command then
              Reply.behind t <| Reply.behind n <|
                (arguments stop (· == .symbol .rightParen) rest').andThen fun args rest'' _ =>
                  (expect stop (.symbol .rightParen) .parenAfterArguments rest'').map fun _ =>
                    .call ⟨n.lexeme, n.pos⟩ args
            else
              Reply.behind t <|
                (expression stop .conditional (n :: rest')).andThen fun inner rest'' _ =>
                  (expect stop (.symbol .rightParen) .parenAfterExpression rest'').map fun _ =>
                    .group inner
          | [] => .fail ⟨.expectedExpression (describe []), stop⟩ [] (Nat.zero_le _)
        else .fail ⟨.expectedExpression t.describe, t.pos⟩ (t :: rest) (Nat.le_refl _)
termination_by 16 * ts.length + tier.rank
decreasing_by
  all_goals simp only [List.length_cons, Tier.rank] at *
  all_goals try omega
  have h := Level.rank_operands_lt l
  simp only [Tier.rank] at h
  omega

/-- Reads the operators of a level and the operands behind them, with `left` in front. -/
def operations (stop : Position) (l : Level) (left : Expr) (ts : List Token) : Reply Expr 0 ts :=
  match ts with
  | [] => .unread left []
  | t :: rest =>
    match l.operator? t.kind with
    | some op =>
      Reply.loosen <| Reply.behind t <|
        (expression stop l.operands rest).andThen fun right rest' _ =>
          operations stop l (.binary left op t.pos right) rest'
    | none => .unread left (t :: rest)
termination_by 16 * ts.length + 15
decreasing_by
  all_goals
    simp only [List.length_cons] at *
    have := Tier.rank_lt l.operands
    omega

/-- Reads comparison operators and the operands behind them. -/
def comparisons (stop : Position) (ts : List Token) : Reply (List (Link Expr)) 0 ts :=
  match comparisonOperator ts with
  | none => .unread [] ts
  | some r =>
    Reply.loosen <| r.andThen fun (op, pos) rest _ =>
      (expression stop (.level .bitOr) rest).andThen fun right rest' _ =>
        (comparisons stop rest').map fun links => ⟨op, pos, right⟩ :: links
termination_by 16 * ts.length + 15
decreasing_by
  · simp only [Tier.rank]
    omega
  · omega

/-- Reads arguments up to a token that closes the list, or up to the end. -/
def arguments (stop : Position) (closes : Kind → Bool) (ts : List Token) :
    Reply (List Expr) 0 ts :=
  match ts with
  | [] => .unread [] []
  | t :: rest =>
    if closes t.kind then .unread [] (t :: rest)
    else
      Reply.loosen <| (expression stop .conditional (t :: rest)).andThen fun e rest' _ =>
        (arguments stop closes rest').map fun es => e :: es
termination_by 16 * ts.length + 15
decreasing_by
  all_goals
    simp only [List.length_cons, Tier.rank] at *
    omega

end

end Offside.Grammar
