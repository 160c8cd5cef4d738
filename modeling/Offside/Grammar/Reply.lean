import Offside.Token.Basic

/-!
# Replies of the parser

A parser reads from the front of a list of tokens. It replies with a result and the tokens behind
what it has read, or with an error and the tokens from where it gave up. The reply says in its type
how much shorter the rest is, so that recursion on it ends.

The end of the input is not a token of the list: it is where the list ends, and only its position
is kept, for messages.
-/

namespace Offside

/-! ## Errors -/

namespace SyntaxError

/-- What the grammar asks for at a place where nothing else can stand. -/
inductive Wanted
  | variableName
  | commandName
  | newlineAfterParameters
  | newlineAfterCondition
  | newlineAfterElse
  | newlineAfterExpression
  | block
  | elseOfConditional
  | parenAfterExpression
  | parenAfterArguments
deriving DecidableEq, Repr

def Wanted.text : Wanted → String
  | variableName => "variable name"
  | commandName => "command name after DEF"
  | newlineAfterParameters => "newline after parameters"
  | newlineAfterCondition => "newline after condition"
  | newlineAfterElse => "newline after ELSE"
  | newlineAfterExpression => "newline after expression"
  | block => "indented block"
  | elseOfConditional => "'else' in conditional expression"
  | parenAfterExpression => "')' after expression"
  | parenAfterArguments => "')' after arguments"

/-- Why tokens are no program. -/
inductive Cause
  /-- Something else stands where only one thing can. -/
  | expected (what : Wanted) (found : String)
  /-- No expression starts this way. -/
  | expectedExpression (found : String)
  /-- A line further in without a header above it. -/
  | unexpectedIndent
  /-- The word `not` behind an operand, without `in`. -/
  | notWithoutIn
deriving DecidableEq, Repr

def Cause.message : Cause → String
  | expected what found => "expected " ++ what.text ++ ", found " ++ found
  | expectedExpression found => "expected expression, found " ++ found
  | unexpectedIndent => "unexpected indent"
  | notWithoutIn => "invalid syntax, expected 'in' after 'not'"

end SyntaxError

/-- An error of the grammar, and where it is. -/
structure SyntaxError where
  cause : SyntaxError.Cause
  pos : Position
deriving DecidableEq, Repr

def SyntaxError.message (e : SyntaxError) : String := e.pos.locate e.cause.message

namespace Grammar

/-! ## Replies -/

/-- The reply to reading `ts`: at least `k` tokens are read on success, and none is invented. -/
inductive Reply (α : Type) (k : Nat) (ts : List Token)
  | ok (value : α) (rest : List Token) (shorter : rest.length + k ≤ ts.length)
  | fail (error : SyntaxError) (rest : List Token) (le : rest.length ≤ ts.length)

namespace Reply

variable {α β : Type} {k : Nat} {ts : List Token}

/-- A result for which nothing is read. -/
abbrev unread (a : α) (ts : List Token) : Reply α 0 ts := .ok a ts (Nat.le_refl _)

abbrev first (a : α) (t : Token) (rest : List Token) : Reply α 1 (t :: rest) :=
  .ok a rest (Nat.le_refl _)

theorem shorter_trans {j : Nat} {rest rest' : List Token} (h : rest.length + k ≤ ts.length)
    (h' : rest'.length + j ≤ rest.length) : rest'.length + k ≤ ts.length := by
  omega

theorem le_of_shorter {rest rest' : List Token} (h : rest.length + k ≤ ts.length)
    (h' : rest'.length ≤ rest.length) : rest'.length ≤ ts.length := by
  omega

/-- Goes on with what is behind a result. -/
@[inline]
def andThen {j : Nat} (r : Reply α k ts)
    (f : (a : α) → (rest : List Token) → rest.length + k ≤ ts.length → Reply β j rest) :
    Reply β k ts :=
  match r with
  | .fail e rest le => .fail e rest le
  | .ok a rest shorter =>
    match f a rest shorter with
    | .ok b rest' shorter' => .ok b rest' (shorter_trans shorter shorter')
    | .fail e rest' le => .fail e rest' (le_of_shorter shorter le)

@[inline]
def map (f : α → β) : Reply α k ts → Reply β k ts
  | .ok a rest shorter => .ok (f a) rest shorter
  | .fail e rest le => .fail e rest le

/-- The reply to a list with one more token, read in front. -/
@[inline]
def behind (t : Token) : Reply α k ts → Reply α 1 (t :: ts)
  | .ok a rest shorter => .ok a rest (by simp only [List.length_cons]; omega)
  | .fail e rest le => .fail e rest (by simp only [List.length_cons]; omega)

/-- Forgets that something has been read. -/
@[inline]
def loosen : Reply α k ts → Reply α 0 ts
  | .ok a rest shorter => .ok a rest (by omega)
  | .fail e rest le => .fail e rest le

end Reply

/-! ## Reading one token -/

/-- The position of the next token, or of the end. -/
def position (stop : Position) : List Token → Position
  | [] => stop
  | t :: _ => t.pos

/-- How messages name what comes next. -/
def describe : List Token → String
  | [] => "end of input"
  | t :: _ => t.describe

def startsWith (kind : Kind) : List Token → Bool
  | [] => false
  | t :: _ => t.kind == kind

def expect (stop : Position) (kind : Kind) (what : SyntaxError.Wanted) :
    (ts : List Token) → Reply Token 1 ts
  | [] => .fail ⟨.expected what (describe []), stop⟩ [] (Nat.le_refl _)
  | t :: rest =>
    if t.kind = kind then .first t t rest
    else .fail ⟨.expected what t.describe, t.pos⟩ (t :: rest) (Nat.le_refl _)

/-- The end of a line, of the block around it, or of the input. -/
def atLineEnd : List Token → Bool
  | [] => true
  | t :: _ => t.kind == .newline || t.kind == .dedent

/-- Reads the end of a simple statement. Only a newline is taken; the end of a block is left for the
block to see. -/
def endLine (stop : Position) : (ts : List Token) → Reply Unit 0 ts
  | [] => .unread () []
  | t :: rest =>
    if t.kind = .newline then .ok () rest (Nat.le_succ _)
    else if t.kind = .dedent then .unread () (t :: rest)
    else
      .fail ⟨.expected .newlineAfterExpression (describe (t :: rest)), position stop (t :: rest)⟩
        (t :: rest) (Nat.le_refl _)

def skipNewlines (ts : List Token) : List Token := ts.dropWhile (·.kind == .newline)

theorem length_skipNewlines_le (ts : List Token) : (skipNewlines ts).length ≤ ts.length := by
  induction ts with
  | nil => exact Nat.le_refl _
  | cons t ts ih =>
    simp only [skipNewlines, List.dropWhile_cons]
    split
    · exact Nat.le_succ_of_le ih
    · exact Nat.le_refl _

end Grammar

end Offside
