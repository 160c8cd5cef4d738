import Offside.Grammar.Expression

/-!
# The grammar of statements

A statement is a line, or a header line with a block further in below it. An error spoils the
statement it stands in: it is noted, the rest of the line is passed over, together with the block
below it if there is one, and reading goes on behind. So one pass finds every independent error,
and a program is returned only if there is none.

* `resume`: where reading goes on after an error.
* `parse`: the program that a list of tokens is, or all its errors.
-/

namespace Offside.Grammar

/-! ## Recovery -/

/-- The words that statements are taken up again at, also in the middle of a line. -/
def resumesAt : Kind → Bool
  | .keyword .forStmt | .keyword .ifStmt | .keyword .returnStmt | .keyword .whileStmt
  | .keyword .initStmt | .keyword .setStmt => true
  | _ => false

/-- Passes over tokens until one of them was a newline, or the next can take up a statement. `last`
is the token passed before. -/
def synchronizeAfter (last : Token) : List Token → List Token
  | [] => []
  | t :: ts =>
    if last.kind = .newline ∨ resumesAt t.kind then t :: ts else synchronizeAfter t ts

/-- Passes over at least one token, up to the next line or statement word. -/
def synchronize : List Token → List Token
  | [] => []
  | t :: ts => synchronizeAfter t ts

/-- Passes over the rest of a block in which `inner` further blocks are open. -/
def leaveBlock (inner : Nat) : List Token → List Token
  | [] => []
  | t :: ts =>
    if t.kind = .indent then leaveBlock (inner + 1) ts
    else if t.kind = .dedent then
      match inner with
      | 0 => ts
      | n + 1 => leaveBlock n ts
    else leaveBlock inner ts

/-- Passes over a block that has lost its header, and the newlines behind it. -/
def skipOrphan : List Token → List Token
  | [] => []
  | t :: ts => if t.kind = .indent then skipNewlines (leaveBlock 0 ts) else t :: ts

/-- Where reading goes on after an error that left the tokens `ts`. -/
def resume (ts : List Token) : List Token :=
  skipOrphan (if startsWith .indent ts then ts else synchronize ts)

theorem length_synchronizeAfter_le (last : Token) (ts : List Token) :
    (synchronizeAfter last ts).length ≤ ts.length := by
  fun_induction synchronizeAfter last ts with
  | case1 => exact Nat.le_refl _
  | case2 => exact Nat.le_refl _
  | case3 last t ts h ih => exact Nat.le_succ_of_le ih

theorem length_leaveBlock_le (inner : Nat) (ts : List Token) :
    (leaveBlock inner ts).length ≤ ts.length := by
  fun_induction leaveBlock inner ts with
  | case1 => exact Nat.le_refl _
  | case3 => exact Nat.le_succ _
  | case2 _ _ _ _ ih => exact Nat.le_succ_of_le ih
  | case4 _ _ _ _ _ ih => exact Nat.le_succ_of_le ih
  | case5 _ _ _ _ _ ih => exact Nat.le_succ_of_le ih

theorem length_skipOrphan_le (ts : List Token) : (skipOrphan ts).length ≤ ts.length := by
  cases ts with
  | nil => exact Nat.le_refl _
  | cons t ts =>
    simp only [skipOrphan]
    split
    · have h₁ := length_skipNewlines_le (leaveBlock 0 ts)
      have h₂ := length_leaveBlock_le 0 ts
      simp only [List.length_cons]
      omega
    · exact Nat.le_refl _

/-- Recovery passes over something, unless the input has ended. -/
theorem length_resume_le (ts : List Token) : (resume ts).length ≤ ts.length - 1 := by
  cases ts with
  | nil => exact Nat.le_refl _
  | cons t ts =>
    simp only [resume, startsWith, List.length_cons, Nat.add_sub_cancel]
    by_cases h : t.kind = .indent
    · have h₁ := length_skipNewlines_le (leaveBlock 0 ts)
      have h₂ := length_leaveBlock_le 0 ts
      simp only [h, beq_self_eq_true, if_true, skipOrphan]
      omega
    · have h₁ := length_skipOrphan_le (synchronizeAfter t ts)
      have h₂ := length_synchronizeAfter_le t ts
      simp only [beq_iff_eq, h, if_false, synchronize]
      omega

/-! ## Replies with errors on the way -/

/-- A reply, with the errors of blocks inside that reading has recovered from. -/
structure Traced (α : Type) (k : Nat) (ts : List Token) where
  errors : List SyntaxError
  reply : Reply α k ts

/-- A reply without errors on the way. -/
@[inline]
def Reply.quiet {α : Type} {k : Nat} {ts : List Token} (r : Reply α k ts) : Traced α k ts :=
  ⟨[], r⟩

namespace Traced

variable {α β : Type} {k : Nat} {ts : List Token}

@[inline]
def andThen {j : Nat} (r : Traced α k ts)
    (f : (a : α) → (rest : List Token) → rest.length + k ≤ ts.length → Traced β j rest) :
    Traced β k ts :=
  match r with
  | ⟨es, .fail e rest le⟩ => ⟨es, .fail e rest le⟩
  | ⟨es, .ok a rest shorter⟩ =>
    match f a rest shorter with
    | ⟨es', .ok b rest' shorter'⟩ => ⟨es ++ es', .ok b rest' (Reply.shorter_trans shorter shorter')⟩
    | ⟨es', .fail e rest' le⟩ => ⟨es ++ es', .fail e rest' (Reply.le_of_shorter shorter le)⟩

@[inline]
def map (f : α → β) (r : Traced α k ts) : Traced β k ts := ⟨r.errors, r.reply.map f⟩

@[inline]
def behind (t : Token) (r : Traced α k ts) : Traced α 1 (t :: ts) := ⟨r.errors, r.reply.behind t⟩

@[inline]
def loosen (r : Traced α k ts) : Traced α 0 ts := ⟨r.errors, r.reply.loosen⟩

end Traced

def nameOf (t : Token) : Name := ⟨t.lexeme, t.pos⟩

/-- Reads the parameters of a definition: all variables that come next. -/
def parameters : (ts : List Token) → Reply (List Name) 0 ts
  | [] => .unread [] []
  | t :: rest =>
    if t.kind = .identifier then
      Reply.loosen <| Reply.behind t <| (parameters rest).map (nameOf t :: ·)
    else .unread [] (t :: rest)

/-- Reads `name expression` up to the end of the line. -/
def binding (stop : Position) (ts : List Token) : Reply (Name × Expr) 1 ts :=
  (expect stop .identifier .variableName ts).andThen fun name rest _ =>
    (expression stop .conditional rest).andThen fun value rest' _ =>
      (endLine stop rest').map fun _ => (nameOf name, value)

/-- Reads the value behind `RETURN`, if there is one on the line. The end of the line is left. -/
def returnValue (stop : Position) (ts : List Token) : Reply (Option Expr) 0 ts :=
  if atLineEnd ts then .unread none ts
  else Reply.loosen <| (expression stop .conditional ts).map some

def expressionStatement (stop : Position) (ts : List Token) : Reply Stmt 1 ts :=
  (expression stop .conditional ts).andThen fun e rest _ =>
    (endLine stop rest).map fun _ => .expression e

/-- The kinds that end the arguments of a command. -/
def endsArguments : Kind → Bool
  | .newline | .dedent => true
  | _ => false

/-! ## Reading -/

/-- The statements read before reading stops, with the errors found between them. -/
structure Statements (ts : List Token) where
  errors : List SyntaxError
  program : List Stmt
  rest : List Token
  le : rest.length ≤ ts.length

mutual

def statement (stop : Position) (ts : List Token) : Traced Stmt 1 ts :=
  match ts with
  | [] => (expressionStatement stop []).quiet
  | t :: rest =>
    match t.kind with
    | .keyword .initStmt => ((binding stop rest).map fun (n, e) => .init n e).quiet.behind t
    | .keyword .setStmt => ((binding stop rest).map fun (n, e) => .set n e).quiet.behind t
    | .keyword .returnStmt => ((returnValue stop rest).map (.ret t.pos)).quiet.behind t
    | .keyword .defStmt =>
      Traced.behind t <|
        (expect stop .command .commandName rest).quiet.andThen fun name rest₁ _ =>
          (parameters rest₁).quiet.andThen fun params rest₂ _ =>
            (blockBelow stop .newlineAfterParameters rest₂).map fun body =>
              .definition (nameOf name) params body
    | .keyword .ifStmt => (condition stop rest).behind t
    | .keyword .whileStmt =>
      Traced.behind t <|
        (expression stop .conditional rest).quiet.andThen fun test rest₁ _ =>
          (blockBelow stop .newlineAfterCondition rest₁).map fun body => .loop test body
    | .keyword .passStmt => ((endLine stop rest).map fun _ => .pass).quiet.behind t
    | .command =>
      ((arguments stop endsArguments rest).map fun args =>
        .expression (.call (nameOf t) args)).quiet.behind t
    | .indent => ⟨[], .fail ⟨.unexpectedIndent, t.pos⟩ (t :: rest) (Nat.le_refl _)⟩
    | _ => (expressionStatement stop (t :: rest)).quiet
termination_by 2 * ts.length
decreasing_by all_goals (simp only [List.length_cons]; omega)

/-- Reads a condition behind its first word: the test, the block, and the branch behind `ELSE` or
`ELSIF`. -/
def condition (stop : Position) (ts : List Token) : Traced Stmt 1 ts :=
  (expression stop .conditional ts).quiet.andThen fun test rest₁ _ =>
    (blockBelow stop .newlineAfterCondition rest₁).andThen fun thenBody rest₂ _ =>
      match rest₂ with
      | [] => ⟨[], .unread (.condition test thenBody none) []⟩
      | t :: rest₃ =>
        if t.kind = .keyword .elseStmt then
          Traced.loosen <| Traced.behind t <|
            (elseBranch stop rest₃).map fun body => .condition test thenBody (some body)
        else if t.kind = .keyword .elsifStmt then
          Traced.loosen <| Traced.behind t <|
            (condition stop rest₃).map fun nested => .condition test thenBody (some [nested])
        else ⟨[], .unread (.condition test thenBody none) (t :: rest₃)⟩
termination_by 2 * ts.length
decreasing_by all_goals (try simp only [List.length_cons] at *); omega

/-- Reads what follows `ELSE`: a block, or a condition, which is then the only statement of the
branch. -/
def elseBranch (stop : Position) (ts : List Token) : Traced (List Stmt) 1 ts :=
  match ts with
  | [] => blockBelow stop .newlineAfterElse []
  | t :: rest =>
    if t.kind = .keyword .ifStmt then
      Traced.behind t <| (condition stop rest).map fun nested => [nested]
    else blockBelow stop .newlineAfterElse (t :: rest)
termination_by 2 * ts.length + 1
decreasing_by all_goals (simp only [List.length_cons, List.length_nil]; omega)

/-- Reads the end of a header line and the block below it. -/
def blockBelow (stop : Position) (what : SyntaxError.Wanted) (ts : List Token) :
    Traced (List Stmt) 1 ts :=
  (expect stop .newline what ts).quiet.andThen fun _ rest _ => block stop rest
termination_by 2 * ts.length
decreasing_by omega

/-- Reads a block: an indented line and what follows it up to the end of the block, which may be
missing where the input ends. -/
def block (stop : Position) (ts : List Token) : Traced (List Stmt) 1 ts :=
  have := length_skipNewlines_le ts
  match h : skipNewlines ts with
  | [] => ⟨[], .fail ⟨.expected .block (describe []), stop⟩ [] (Nat.zero_le _)⟩
  | t :: rest =>
    if t.kind = .indent then
      match statements stop true rest with
      | ⟨es, body, [], _⟩ => ⟨es, .ok body [] (by simp_all; omega)⟩
      | ⟨es, body, _ :: rest', _⟩ => ⟨es, .ok body rest' (by simp_all; omega)⟩
    else
      ⟨[], .fail ⟨.expected .block t.describe, t.pos⟩ (t :: rest) (by simp_all)⟩
termination_by 2 * ts.length
decreasing_by simp_all; omega

/-- Reads statements up to the end of the input or, inside a block, of the block. -/
def statements (stop : Position) (inside : Bool) (ts : List Token) : Statements ts :=
  match ts with
  | [] => ⟨[], [], [], Nat.le_refl _⟩
  | t :: rest =>
    if inside && t.kind == .dedent then ⟨[], [], t :: rest, Nat.le_refl _⟩
    else
      match statement stop (t :: rest) with
      | ⟨es, .ok s rest₁ h₁⟩ =>
        have h₂ := length_skipNewlines_le rest₁
        let r := statements stop inside (skipNewlines rest₁)
        ⟨es ++ r.errors, s :: r.program, r.rest, by have := r.le; omega⟩
      | ⟨es, .fail e rest₁ h₁⟩ =>
        have h₂ := length_resume_le rest₁
        let r := statements stop inside (resume rest₁)
        ⟨es ++ e :: r.errors, r.program, r.rest, by have := r.le; omega⟩
termination_by 2 * ts.length + 1
decreasing_by all_goals (simp only [List.length_cons] at *; omega)

end

end Offside.Grammar

namespace Offside

open Grammar

/-! ## Programs -/

def Token.isInside (t : Token) : Bool := t.kind != .endOfInput

/-- Where the tokens end: at the first end of input, otherwise at the last token. -/
def endPosition (ts : List Token) : Position :=
  match ts.find? (·.kind == .endOfInput) with
  | some t => t.pos
  | none => (ts.getLast?.map Token.pos).getD .start

/-- The program that a list of tokens is, or everything that is wrong with it. Comments are passed
over, and what stands behind the end of the input does not count. -/
def parse (tokens : List Token) : Except (List SyntaxError) Program :=
  let ts := tokens.filter (·.kind != .comment)
  let r := statements (endPosition ts) false (skipNewlines (ts.takeWhile Token.isInside))
  match r.errors with
  | [] => .ok r.program
  | errors => .error errors

end Offside
