import Offside.Grammar.Statement

/-!
# Reading with a cursor

The readers of the grammar take the tokens they are given from a list, and what they leave is
another list. They can also be written with a cursor, which goes from place to place in an array
that holds all tokens, ends of input among them. Such a reader asks for the token at its place,
looks back at the one before, moves on by one, notes errors and recovers from them. Nothing in it is
by itself sure to end or to stay where there are tokens.

Whatever must not happen ends the reading (`Breach`): to ask for a token where there is none, to
move on from an end of input, to count below zero. Loops and recursion are granted some fuel, and a
reader that needs more is `unfinished`.
-/

namespace Offside.Grammar

/-- A place in an array of tokens, with the errors noted so far. -/
structure Cursor where
  tokens : Array Token
  pos : Nat
  errors : List SyntaxError

namespace Cursor

/-! ## Steps -/

/-- What must not happen. -/
inductive Breach
  /-- A token is asked for where there is none. -/
  | outOfRange
  /-- The cursor moves on from an end of input. -/
  | pastEnd
  /-- A counter at zero is counted down. -/
  | belowZero

/-- How a reader ends. -/
inductive Ending (α : Type)
  | done (r : Except SyntaxError α) (c : Cursor)
  | broken (b : Breach)
  | unfinished

/-- A reader that moves a cursor. -/
def Scan (α : Type) : Type := Cursor → Ending α

variable {α β : Type}

protected def bind (x : Scan α) (f : α → Scan β) : Scan β := fun c =>
  match x c with
  | .done (.ok a) c' => f a c'
  | .done (.error e) c' => .done (.error e) c'
  | .broken b => .broken b
  | .unfinished => .unfinished

instance : Monad Scan where
  pure a := fun c => .done (.ok a) c
  bind := Cursor.bind

def fail (e : SyntaxError) : Scan α := fun c => .done (.error e) c

def breach (b : Breach) : Scan α := fun _ => .broken b

def unfinished : Scan α := fun _ => .unfinished

/-- Goes on with the error of a reader as with a result. -/
def attempt (x : Scan α) : Scan (Except SyntaxError α) := fun c =>
  match x c with
  | .done r c' => .done (.ok r) c'
  | .broken b => .broken b
  | .unfinished => .unfinished

def note (e : SyntaxError) : Scan Unit := fun c =>
  .done (.ok ()) { c with errors := c.errors ++ [e] }

def peek : Scan Token := fun c =>
  match c.tokens[c.pos]? with
  | some t => .done (.ok t) c
  | none => .broken .outOfRange

def previous : Scan Token := fun c =>
  match c.tokens[c.pos - 1]? with
  | some t => .done (.ok t) c
  | none => .broken .outOfRange

def goOn : Scan Unit := fun c => .done (.ok ()) { c with pos := c.pos + 1 }

def step : Scan Unit := do
  let t ← peek
  if t.kind = .endOfInput then breach .pastEnd else goOn

def atEnd : Scan Bool := do
  let t ← peek
  return t.kind == .endOfInput

def check (kind : Kind) : Scan Bool := do
  if ← atEnd then return false
  else
    let t ← peek
    return t.kind == kind

/-- Moves on, unless the input has ended, and looks back. -/
def advance : Scan Token := do
  if ← atEnd then previous
  else
    step
    previous

/-- Moves on if the token at the cursor is of this kind. -/
def skip (kind : Kind) : Scan Bool := do
  if ← check kind then
    step
    return true
  else return false

def expect (kind : Kind) (what : SyntaxError.Wanted) : Scan Token := do
  if ← check kind then advance
  else
    let t ← peek
    fail ⟨.expected what t.describe, t.pos⟩

/-- The end of a simple statement. -/
def endLine : Scan Unit := do
  let t ← peek
  if t.kind = .newline then
    let _ ← advance
    return ()
  else if t.kind = .dedent ∨ t.kind = .endOfInput then return ()
  else fail ⟨.expected .newlineAfterExpression t.describe, t.pos⟩

/-! ## Recovery -/

def skipNewlines : Nat → Scan Unit
  | 0 => unfinished
  | fuel + 1 => do
    if ← skip .newline then skipNewlines fuel
    else return ()

def synchronizeFrom : Nat → Scan Unit
  | 0 => unfinished
  | fuel + 1 => do
    if ← atEnd then return ()
    else
      let last ← previous
      let t ← peek
      if last.kind = .newline ∨ resumesAt t.kind then return ()
      else
        let _ ← advance
        synchronizeFrom fuel

/-- Moves on to the next line or statement word. -/
def synchronize (fuel : Nat) : Scan Unit := do
  let _ ← advance
  synchronizeFrom fuel

def countDown : Nat → Scan Nat
  | 0 => breach .belowZero
  | n + 1 => return n

/-- Moves on to the end of a block, and counts the blocks that are open. -/
def leaveBlocks : Nat → Nat → Scan Unit
  | 0, _ => unfinished
  | fuel + 1, depth => do
    if ← atEnd then return ()
    else
      let t ← advance
      if t.kind = .indent then leaveBlocks fuel (depth + 1)
      else if t.kind = .dedent then
        let left ← countDown depth
        if left = 0 then return () else leaveBlocks fuel left
      else leaveBlocks fuel depth

/-- Moves on over a block that has lost its header. -/
def skipOrphan (fuel : Nat) : Scan Unit := do
  if ← check .indent then
    leaveBlocks fuel 0
    skipNewlines fuel
  else return ()

def recover (fuel : Nat) : Scan Unit := do
  if ← check .indent then skipOrphan fuel
  else
    synchronize fuel
    skipOrphan fuel

/-! ## Expressions -/

/-- Moves on over an operator of a level, if one is there. -/
def operator? (l : Level) : Scan (Option BinaryOp) := do
  let t ← peek
  match l.operator? t.kind with
  | none => return none
  | some op =>
    step
    return some op

def comparisonOperator : Scan (Option (BinaryOp × Position)) := do
  let t ← peek
  match comparison? t.kind with
  | some op =>
    let _ ← advance
    return some (op, t.pos)
  | none =>
    if t.kind = .keyword .isOp then
      let _ ← advance
      if ← skip (.keyword .notOp) then return some (.isNot, t.pos)
      else return some (.is, t.pos)
    else if t.kind = .keyword .notOp then
      let _ ← advance
      if ← skip (.keyword .inOp) then return some (.notWithin, t.pos)
      else fail ⟨.notWithoutIn, t.pos⟩
    else return none

mutual

def expression : Nat → Tier → Scan Expr
  | 0, _ => unfinished
  | fuel + 1, .conditional => do
    let left ← expression fuel (.level .disjunction)
    if ← skip (.keyword .ifOp) then
      let condition ← expression fuel .conditional
      let _ ← expect (.keyword .elseOp) .elseOfConditional
      let right ← expression fuel .conditional
      return .ternary condition left right
    else return left
  | fuel + 1, .level l => do
    let left ← expression fuel l.operands
    operations fuel l left
  | fuel + 1, .inversion => do
    if ← skip (.keyword .notOp) then
      let t ← previous
      let right ← expression fuel .inversion
      return .unary .not t.pos right
    else expression fuel .comparison
  | fuel + 1, .comparison => do
    let first ← expression fuel (.level .bitOr)
    let links ← comparisons fuel
    return chain first links
  | fuel + 1, .signed => do
    let t ← peek
    match signOperator? t.kind with
    | some op =>
      let sign ← advance
      let right ← expression fuel .signed
      return .unary op sign.pos right
    | none => expression fuel .power
  | fuel + 1, .power => do
    let base ← expression fuel .atom
    if ← skip (.symbol .starStar) then
      let t ← previous
      let exponent ← expression fuel .signed
      return .binary base .power t.pos exponent
    else return base
  | fuel + 1, .atom => do
    let t ← peek
    match leaf? t with
    | some e =>
      let _ ← advance
      return e
    | none =>
      if t.kind = .symbol .leftParen then
        let _ ← advance
        if ← check .command then
          let n ← advance
          let args ← arguments fuel (· == .symbol .rightParen)
          let _ ← expect (.symbol .rightParen) .parenAfterArguments
          return .call ⟨n.lexeme, n.pos⟩ args
        else
          let inner ← expression fuel .conditional
          let _ ← expect (.symbol .rightParen) .parenAfterExpression
          return .group inner
      else fail ⟨.expectedExpression t.describe, t.pos⟩

def operations : Nat → Level → Expr → Scan Expr
  | 0, _, _ => unfinished
  | fuel + 1, l, left => do
    match ← operator? l with
    | some op =>
      let t ← previous
      let right ← expression fuel l.operands
      operations fuel l (.binary left op t.pos right)
    | none => return left

def comparisons : Nat → Scan (List (Link Expr))
  | 0 => unfinished
  | fuel + 1 => do
    match ← comparisonOperator with
    | some (op, pos) =>
      let right ← expression fuel (.level .bitOr)
      let links ← comparisons fuel
      return ⟨op, pos, right⟩ :: links
    | none => return []

def arguments : Nat → (Kind → Bool) → Scan (List Expr)
  | 0, _ => unfinished
  | fuel + 1, closes => do
    let t ← peek
    if closes t.kind ∨ t.kind = .endOfInput then return []
    else
      let e ← expression fuel .conditional
      let es ← arguments fuel closes
      return e :: es

end

/-! ## Statements -/

def parameters : Nat → Scan (List Name)
  | 0 => unfinished
  | fuel + 1 => do
    if ← check .identifier then
      let t ← advance
      let ns ← parameters fuel
      return nameOf t :: ns
    else return []

def binding (fuel : Nat) : Scan (Name × Expr) := do
  let name ← expect .identifier .variableName
  let value ← expression fuel .conditional
  endLine
  return (nameOf name, value)

def returnValue (fuel : Nat) : Scan (Option Expr) := do
  let t ← peek
  if t.kind = .newline ∨ t.kind = .dedent ∨ t.kind = .endOfInput then return none
  else
    let e ← expression fuel .conditional
    return some e

def expressionStatement (fuel : Nat) : Scan Stmt := do
  let e ← expression fuel .conditional
  endLine
  return .expression e

mutual

def statement : Nat → Scan Stmt
  | 0 => unfinished
  | fuel + 1 => do
    let t ← peek
    match t.kind with
    | .keyword .initStmt =>
      let _ ← advance
      let b ← binding fuel
      return .init b.1 b.2
    | .keyword .setStmt =>
      let _ ← advance
      let b ← binding fuel
      return .set b.1 b.2
    | .keyword .returnStmt =>
      let _ ← advance
      let word ← previous
      let value ← returnValue fuel
      return .ret word.pos value
    | .keyword .defStmt =>
      let _ ← advance
      let name ← expect .command .commandName
      let params ← parameters fuel
      let body ← blockBelow fuel .newlineAfterParameters
      return .definition (nameOf name) params body
    | .keyword .ifStmt =>
      let _ ← advance
      condition fuel
    | .keyword .whileStmt =>
      let _ ← advance
      let test ← expression fuel .conditional
      let body ← blockBelow fuel .newlineAfterCondition
      return .loop test body
    | .keyword .passStmt =>
      let _ ← advance
      endLine
      return .pass
    | .command =>
      let name ← advance
      let args ← arguments fuel endsArguments
      return .expression (.call (nameOf name) args)
    | .indent => fail ⟨.unexpectedIndent, t.pos⟩
    | _ => expressionStatement fuel

def condition : Nat → Scan Stmt
  | 0 => unfinished
  | fuel + 1 => do
    let test ← expression fuel .conditional
    let thenBody ← blockBelow fuel .newlineAfterCondition
    if ← skip (.keyword .elseStmt) then
      let body ← elseBranch fuel
      return .condition test thenBody (some body)
    else if ← skip (.keyword .elsifStmt) then
      let nested ← condition fuel
      return .condition test thenBody (some [nested])
    else return .condition test thenBody none

def elseBranch : Nat → Scan (List Stmt)
  | 0 => unfinished
  | fuel + 1 => do
    if ← skip (.keyword .ifStmt) then
      let nested ← condition fuel
      return [nested]
    else blockBelow fuel .newlineAfterElse

def blockBelow : Nat → SyntaxError.Wanted → Scan (List Stmt)
  | 0, _ => unfinished
  | fuel + 1, what => do
    let _ ← expect .newline what
    block fuel

def block : Nat → Scan (List Stmt)
  | 0 => unfinished
  | fuel + 1 => do
    skipNewlines fuel
    let _ ← expect .indent .block
    let body ← statements fuel true
    let _ ← skip .dedent
    return body

def statements : Nat → Bool → Scan (List Stmt)
  | 0, _ => unfinished
  | fuel + 1, inside => do
    let t ← peek
    if t.kind = .endOfInput ∨ inside ∧ t.kind = .dedent then return []
    else
      match ← attempt (statement fuel) with
      | .ok s =>
        skipNewlines fuel
        let ss ← statements fuel inside
        return s :: ss
      | .error e =>
        note e
        recover fuel
        statements fuel inside

end

/-! ## Programs -/

/-- The tokens without comments, with an end of input behind them unless they end with one. -/
def prepare (tokens : List Token) : List Token :=
  let ts := tokens.filter (·.kind != .comment)
  if ts.getLast?.any (·.kind == .endOfInput) then ts
  else ts ++ [⟨.endOfInput, "", none, (ts.getLast?.map Token.pos).getD .start⟩]

def finish (program : Program) : Scan (Except (List SyntaxError) Program) := fun c =>
  match c.errors with
  | [] => .done (.ok (.ok program)) c
  | errors => .done (.ok (.error errors)) c

def program (fuel : Nat) : Scan (Except (List SyntaxError) Program) := do
  skipNewlines fuel
  let ss ← statements fuel false
  finish ss

/-- The program that a list of tokens is, or everything that is wrong with it, read with a cursor.
-/
def parse (fuel : Nat) (tokens : List Token) : Ending (Except (List SyntaxError) Program) :=
  program fuel ⟨(prepare tokens).toArray, 0, []⟩

end Cursor

end Offside.Grammar
