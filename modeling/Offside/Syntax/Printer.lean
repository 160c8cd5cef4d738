import Offside.Syntax.Basic
import Offside.Double.Decimal

/-!
# Printing syntax trees

Trees are printed in parentheses, the operator first. Each statement of a program has a line of its
own; a body opens with a parenthesis, shows its statements two spaces further in, and closes on a
line of its own.
-/

namespace Offside

/-! ## Expressions -/

/-- Texts are printed as they are, between quotes. -/
def Literal.print : Literal → String
  | number x => Double.render Double.printed x
  | text s => "\"" ++ s ++ "\""
  | boolean true => "true"
  | boolean false => "false"
  | none => "none"

/-- A node: its head and its parts, in parentheses. -/
def parenthesize (head : String) (parts : List String) : String :=
  "(" ++ " ".intercalate (head :: parts) ++ ")"

mutual

def Expr.print : Expr → String
  | .literal l => l.print
  | .name _ n => n.text
  | .group inner => parenthesize "group" [inner.print]
  | .unary op _ right => parenthesize op.text [right.print]
  | .binary left op _ right => parenthesize op.text [left.print, right.print]
  | .comparison first links => parenthesize "comp" (printLinks first.print links)
  | .ternary c left right => parenthesize "ternary" [c.print, left.print, right.print]
  | .call n args => parenthesize n.text (printAll args)

/-- The comparisons of a chain, each with both operands; `left` is the printed operand in front. -/
def printLinks (left : String) : List (Link Expr) → List String
  | [] => []
  | ⟨op, _, right⟩ :: rest =>
    let right := right.print
    parenthesize op.text [left, right] :: printLinks right rest

def printAll : List Expr → List String
  | [] => []
  | e :: es => e.print :: printAll es

end

/-! ## Statements -/

/-- A line break and the indentation of the line behind it. -/
def lineAt (depth : Nat) : String := "\n" ++ String.join (List.replicate depth "  ")

mutual

/-- The printed form of a statement inside `depth` bodies. -/
def Stmt.print (depth : Nat) : Stmt → String
  | .init n e => parenthesize "INIT" [n.text, e.print]
  | .set n e => parenthesize "SET" [n.text, e.print]
  | .condition test thenBody none =>
    parenthesize "IF" [test.print, "(" ++ printBody depth thenBody]
  | .condition test thenBody (some elseBody) =>
    parenthesize "IF" [test.print, "(" ++ printBody depth thenBody,
      "(" ++ printBody depth elseBody]
  | .loop test body => parenthesize "WHILE" [test.print, "(" ++ printBody depth body]
  | .definition n params body =>
    parenthesize "DEF" (n.text :: params.map Name.text ++ ["(" ++ printBody depth body])
  | .ret _ none => parenthesize "RETURN" []
  | .ret _ (some e) => parenthesize "RETURN" [e.print]
  | .expression e => e.print
  | .body stmts => "(" ++ printBody depth stmts
  | .pass => parenthesize "PASS" []

/-- A body behind its opening parenthesis. -/
def printBody (depth : Nat) : List Stmt → String
  | [] => lineAt depth ++ ")"
  | s :: rest => lineAt (depth + 1) ++ s.print (depth + 1) ++ printBody depth rest

end

/-- The printed form of a program, one statement to a line. -/
def Program.print (program : Program) : String :=
  String.join (program.map fun s => s.print 0 ++ "\n")

end Offside
