import Offside.Grammar.Statement

/-!
# How programs are spelled

The grammar, seen from the trees. Two things are said about a tree, and neither mentions a reader:

* which token lists *spell* it (`Phrase.Spelled`, `Clause.Spelled`): its tokens from left to right,
  with parentheses, separators and layout where the grammar has them, and the positions that the
  tree records;
* whether it *fits* the grammar (`Expr.fits`, `Stmt.fits`): each operand binds at least as tightly
  as its place asks for, chains are not empty, and where two trees would have the same spelling only
  the one that the grammar means is allowed.

A tree that fits needs no parentheses beyond those it has, so it can be told from its spelling.
-/

namespace Offside

open Grammar

/-! ## Operators -/

def BinaryOp.words : BinaryOp → List Kind
  | add => [.symbol .plus]
  | subtract => [.symbol .minus]
  | multiply => [.symbol .star]
  | divide => [.symbol .slash]
  | floorDivide => [.symbol .slashSlash]
  | modulo => [.symbol .percent]
  | power => [.symbol .starStar]
  | shiftLeft => [.symbol .lessLess]
  | shiftRight => [.symbol .greaterGreater]
  | bitAnd => [.symbol .ampersand]
  | bitOr => [.symbol .pipe]
  | bitXor => [.symbol .caret]
  | and => [.keyword .andOp]
  | or => [.keyword .orOp]
  | equal => [.symbol .equalEqual]
  | notEqual => [.symbol .bangEqual]
  | less => [.symbol .less]
  | lessEqual => [.symbol .lessEqual]
  | greater => [.symbol .greater]
  | greaterEqual => [.symbol .greaterEqual]
  | is => [.keyword .isOp]
  | isNot => [.keyword .isOp, .keyword .notOp]
  | within => [.keyword .inOp]
  | notWithin => [.keyword .notOp, .keyword .inOp]

/-- The tier of the expressions that an operator makes. -/
def BinaryOp.tier : BinaryOp → Tier
  | or => .level .disjunction
  | and => .level .conjunction
  | equal | notEqual | less | lessEqual | greater | greaterEqual => .comparison
  | is | isNot | within | notWithin => .comparison
  | bitOr => .level .bitOr
  | bitXor => .level .bitXor
  | bitAnd => .level .bitAnd
  | shiftLeft | shiftRight => .level .shift
  | add | subtract => .level .additive
  | multiply | divide | floorDivide | modulo => .level .multiplicative
  | power => .power

def UnaryOp.word : UnaryOp → Kind
  | not => .keyword .notOp
  | negate => .symbol .minus
  | plus => .symbol .plus
  | bitNot => .symbol .tilde

/-- The tier of the expressions that an operator in front makes, and of its operand. -/
def UnaryOp.tier : UnaryOp → Tier
  | not => .inversion
  | _ => .signed

/-- The tokens `o` are an operator at the position `p`. -/
def BinaryOp.SpelledAt (op : BinaryOp) (p : Position) (o : List Token) : Prop :=
  o.map Token.kind = op.words ∧ o.head?.map Token.pos = some p

/-! ## Trees that fit -/

namespace Expr

/-- The tightest tier that an expression is of. -/
def tier : Expr → Tier
  | literal _ | name _ _ | group _ | call _ _ => .atom
  | unary op _ _ => op.tier
  | binary _ op _ _ => op.tier
  | comparison _ _ => .comparison
  | ternary _ _ _ => .conditional

/-- The part that an expression begins with. -/
def leading : Expr → Expr
  | binary left _ _ _ => left.leading
  | comparison first _ => first.leading
  | ternary _ left _ => left.leading
  | e => e

/-- An expression that begins with the name of a command. -/
def startsWithCommand (e : Expr) : Bool :=
  match e.leading with
  | name .command _ => true
  | _ => false

/-- An expression that begins with `+`, `-` or `not`, words that could also go on with an expression
in front of them. -/
def startsWithSign (e : Expr) : Bool :=
  match e.leading with
  | unary op _ _ => op != .bitNot
  | _ => false

end Expr

/-- Whether an operator can stand between operands of these tiers. Operators of one level associate
to the left: only the left operand may be of their own tier. A power is between an atom and
anything as tight as a sign. Comparisons stand in chains alone. -/
def BinaryOp.joins (op : BinaryOp) (left right : Tier) : Bool :=
  match op.tier with
  | .level l => left.rank ≤ (Tier.level l).rank && right.rank < (Tier.level l).rank
  | .power => left.rank < Tier.power.rank && right.rank ≤ Tier.signed.rank
  | _ => false

mutual

/-- Every part binds as tightly as its place asks for, and none is where it would be read as part of
something else: a parenthesis does not open with a command, which would make it a call. -/
def Expr.fits : Expr → Bool
  | .literal _ | .name _ _ => true
  | .group inner => inner.fits && !inner.startsWithCommand
  | .unary op _ right => right.fits && right.tier.rank ≤ op.tier.rank
  | .binary left op _ right => left.fits && right.fits && op.joins left.tier right.tier
  | .comparison first links =>
    first.fits && first.tier.rank < Tier.comparison.rank && !links.isEmpty && fitLinks links
  | .ternary condition left right =>
    condition.fits && left.fits && right.fits && left.tier.rank < Tier.conditional.rank
  | .call _ args => fitAll args && args.tail.all (!·.startsWithSign)

def fitLinks : List (Link Expr) → Bool
  | [] => true
  | ⟨op, _, right⟩ :: links =>
    op.tier == .comparison && right.fits && right.tier.rank < Tier.comparison.rank && fitLinks links

def fitAll : List Expr → Bool
  | [] => true
  | e :: es => e.fits && fitAll es

end

mutual

/-- The expressions of a statement fit, and no expression that begins with a command is a statement:
it would be read as a call of the command. -/
def Stmt.fits : Stmt → Bool
  | .init _ value => value.fits
  | .set _ value => value.fits
  | .condition test thenBody none => test.fits && fitBody thenBody
  | .condition test thenBody (some elseBody) => test.fits && fitBody thenBody && fitBody elseBody
  | .loop test body => test.fits && fitBody body
  | .definition _ _ body => fitBody body
  | .ret _ none => true
  | .ret _ (some value) => value.fits
  | .expression e => e.fits && !e.startsWithCommand
  | .body _ => false
  | .pass => true

def fitBody : List Stmt → Bool
  | [] => true
  | s :: rest => s.fits && fitBody rest

end

def Program.fits (p : Program) : Bool := fitBody p

/-! ## Spellings of expressions -/

/-- The kinds of tokens that statements are made of. -/
def Kind.isCode : Kind → Bool
  | .newline | .comment | .indent | .dedent | .endOfInput => false
  | _ => true

/-- A token writes a literal. A number or text is what the token carries; a token of these kinds
that carries nothing writes `none`. -/
def Literal.SpelledBy (t : Token) : Literal → Prop
  | boolean true => t.kind = .keyword .trueLit
  | boolean false => t.kind = .keyword .falseLit
  | number x => (t.kind = .number ∨ t.kind = .text) ∧ t.payload = some (.number x)
  | text s => (t.kind = .number ∨ t.kind = .text) ∧ t.payload = some (.text s)
  | none => t.kind = .keyword .noneLit ∨
      (t.kind = .number ∨ t.kind = .text) ∧ t.payload = Option.none

def NameKind.kind : NameKind → Kind
  | «variable» => .identifier
  | command => .command

/-- The parts of an expression that are spelled by a run of tokens. -/
inductive Phrase
  | expr (e : Expr)
  /-- The comparisons of a chain, behind its first operand. -/
  | links (ls : List (Link Expr))
  /-- The arguments of a call. -/
  | args (es : List Expr)

/-- The tokens that a phrase is written with. -/
inductive Phrase.Spelled : Phrase → List Token → Prop
  | literal {t v} (ht : v.SpelledBy t) : Spelled (.expr (.literal v)) [t]
  | name {t k} (ht : t.kind = NameKind.kind k) : Spelled (.expr (.name k (nameOf t))) [t]
  | group {t u e w} (ht : t.kind = .symbol .leftParen) (he : Spelled (.expr e) w)
      (hu : u.kind = .symbol .rightParen) : Spelled (.expr (.group e)) (t :: w ++ [u])
  | call {t n u es w} (ht : t.kind = .symbol .leftParen) (hn : n.kind = .command)
      (hs : Spelled (.args es) w) (hu : u.kind = .symbol .rightParen) :
      Spelled (.expr (.call (nameOf n) es)) (t :: n :: w ++ [u])
  | unary {t op e w} (ht : t.kind = UnaryOp.word op) (he : Spelled (.expr e) w) :
      Spelled (.expr (.unary op t.pos e)) (t :: w)
  | binary {left op pos right u o v} (hl : Spelled (.expr left) u)
      (ho : BinaryOp.SpelledAt op pos o) (hr : Spelled (.expr right) v) :
      Spelled (.expr (.binary left op pos right)) (u ++ o ++ v)
  | comparison {first ls u v} (hf : Spelled (.expr first) u) (hs : Spelled (.links ls) v) :
      Spelled (.expr (.comparison first ls)) (u ++ v)
  | ternary {left condition right t t' u v w} (hl : Spelled (.expr left) u)
      (ht : t.kind = .keyword .ifOp) (hc : Spelled (.expr condition) v)
      (ht' : t'.kind = .keyword .elseOp) (hr : Spelled (.expr right) w) :
      Spelled (.expr (.ternary condition left right)) (u ++ t :: v ++ t' :: w)
  | noLink : Spelled (.links []) []
  | link {op pos right ls o u v} (ho : BinaryOp.SpelledAt op pos o) (hr : Spelled (.expr right) u)
      (hs : Spelled (.links ls) v) : Spelled (.links (⟨op, pos, right⟩ :: ls)) (o ++ u ++ v)
  | noArg : Spelled (.args []) []
  | arg {e es u v} (he : Spelled (.expr e) u) (hs : Spelled (.args es) v) :
      Spelled (.args (e :: es)) (u ++ v)

/-! ## Spellings of statements -/

def Stmt.startsWithSign : Stmt → Bool
  | .expression e => e.startsWithSign
  | _ => false

/-- A statement ends where the newlines `n` stand, and `rest` follows. Nothing but the end of its
block makes up for a newline, except that a block shows its own end, and so does the value behind
`RETURN`, unless what follows could go on with it. -/
def Stmt.EndsBefore (n : List Token) (rest : List Stmt) (s : Stmt) : Prop :=
  n ≠ [] ∨ rest = [] ∨
    match s with
    | .condition _ _ _ | .loop _ _ | .definition _ _ _ => True
    | .ret _ (some _) => ∀ s' ∈ rest.head?, s'.startsWithSign = false
    | _ => False

def Newlines (n : List Token) : Prop := ∀ t ∈ n, t.kind = .newline

/-- The parts of a program that are spelled by a run of tokens. -/
inductive Clause
  | statement (s : Stmt)
  /-- A condition behind its `IF`, or behind the `ELSE IF` or `ELSIF` that it continues. -/
  | condition (s : Stmt)
  /-- What is below a header, from the newline that ends the header. -/
  | block (body : List Stmt)
  /-- Statements one after the other, with newlines between and behind them. -/
  | statements (body : List Stmt)

/-- The tokens that a clause is written with. The flag says that all its blocks are closed; a clause
that ends in an open block can only be followed by the end of the input, which stands for the
missing end of the block. -/
inductive Clause.Spelled : Clause → Bool → List Token → Prop
  | init {t n e w} (ht : t.kind = .keyword .initStmt) (hn : n.kind = .identifier)
      (he : (Phrase.expr e).Spelled w) :
      Spelled (.statement (.init (nameOf n) e)) true (t :: n :: w)
  | set {t n e w} (ht : t.kind = .keyword .setStmt) (hn : n.kind = .identifier)
      (he : (Phrase.expr e).Spelled w) :
      Spelled (.statement (.set (nameOf n) e)) true (t :: n :: w)
  | ret {t} (ht : t.kind = .keyword .returnStmt) : Spelled (.statement (.ret t.pos none)) true [t]
  | retValue {t e w} (ht : t.kind = .keyword .returnStmt) (he : (Phrase.expr e).Spelled w) :
      Spelled (.statement (.ret t.pos (some e))) true (t :: w)
  | pass {t} (ht : t.kind = .keyword .passStmt) : Spelled (.statement .pass) true [t]
  | call {n es w} (hn : n.kind = .command) (hs : (Phrase.args es).Spelled w) :
      Spelled (.statement (.expression (.call (nameOf n) es))) true (n :: w)
  | expression {e w} (he : (Phrase.expr e).Spelled w) : Spelled (.statement (.expression e)) true w
  | definition {t n params body closed w} (ht : t.kind = .keyword .defStmt) (hn : n.kind = .command)
      (hps : ∀ p ∈ params, p.kind = .identifier) (hb : Spelled (.block body) closed w) :
      Spelled (.statement (.definition (nameOf n) (params.map nameOf) body)) closed
        (t :: n :: params ++ w)
  | loop {t test body closed u v} (ht : t.kind = .keyword .whileStmt)
      (he : (Phrase.expr test).Spelled u) (hb : Spelled (.block body) closed v) :
      Spelled (.statement (.loop test body)) closed (t :: u ++ v)
  | condition {t s closed w} (ht : t.kind = .keyword .ifStmt)
      (hs : Spelled (.condition s) closed w) : Spelled (.statement s) closed (t :: w)
  | noElse {test body closed u v} (he : (Phrase.expr test).Spelled u)
      (hb : Spelled (.block body) closed v) :
      Spelled (.condition (.condition test body none)) closed (u ++ v)
  | withElse {t test body other closed u v w} (he : (Phrase.expr test).Spelled u)
      (hb : Spelled (.block body) true v) (ht : t.kind = .keyword .elseStmt)
      (ho : Spelled (.block other) closed w) :
      Spelled (.condition (.condition test body (some other))) closed (u ++ v ++ t :: w)
  | elseIf {t t' test body s closed u v w} (he : (Phrase.expr test).Spelled u)
      (hb : Spelled (.block body) true v) (ht : t.kind = .keyword .elseStmt)
      (ht' : t'.kind = .keyword .ifStmt) (hs : Spelled (.condition s) closed w) :
      Spelled (.condition (.condition test body (some [s]))) closed (u ++ v ++ t :: t' :: w)
  | elsif {t test body s closed u v w} (he : (Phrase.expr test).Spelled u)
      (hb : Spelled (.block body) true v) (ht : t.kind = .keyword .elsifStmt)
      (hs : Spelled (.condition s) closed w) :
      Spelled (.condition (.condition test body (some [s]))) closed (u ++ v ++ t :: w)
  | closedBlock {n t i d body w} (hnl : t.kind = .newline) (hn : Newlines n) (hi : i.kind = .indent)
      (hb : Spelled (.statements body) true w) (hd : d.kind = .dedent) :
      Spelled (.block body) true (t :: n ++ i :: w ++ [d])
  | openBlock {n t i body closed w} (hnl : t.kind = .newline) (hn : Newlines n)
      (hi : i.kind = .indent) (hb : Spelled (.statements body) closed w) :
      Spelled (.block body) false (t :: n ++ i :: w)
  | nil : Spelled (.statements []) true []
  | cons {s rest n closed closed' u v} (hs : Spelled (.statement s) closed u) (hn : Newlines n)
      (hr : Spelled (.statements rest) closed' v)
      (hend : s.EndsBefore n rest) (hopen : closed = false → n = [] ∧ rest = []) :
      Spelled (.statements (s :: rest)) (closed && closed') (u ++ n ++ v)

/-- The tokens that a program is written with, without the end of the input. -/
def Program.Spelled (p : Program) (w : List Token) : Prop :=
  ∃ n v closed, w = n ++ v ∧ Newlines n ∧ (Clause.statements p).Spelled closed v

end Offside
