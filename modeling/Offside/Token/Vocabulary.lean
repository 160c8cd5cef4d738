/-!
# Reserved words and operators

The words and symbols of Lin that have a meaning of their own. Reserved words are case-sensitive:
`if` joins two expressions and `IF` opens a block.
-/

namespace Offside

/-! ## Reserved words -/

/-- A reserved word. Those in lower case stand in expressions, those in upper case start or divide
statements. -/
inductive Keyword
  | trueLit | falseLit | noneLit
  | andOp | orOp | notOp
  | ifOp | elseOp | elifOp
  | inOp | isOp | awaitOp
  | initStmt | setStmt
  | ifStmt | elseStmt | elsifStmt
  | forStmt | whileStmt
  | defStmt | passStmt | continueStmt | returnStmt
deriving DecidableEq, Repr

namespace Keyword

def all : List Keyword :=
  [trueLit, falseLit, noneLit, andOp, orOp, notOp, ifOp, elseOp, elifOp, inOp, isOp, awaitOp,
    initStmt, setStmt, ifStmt, elseStmt, elsifStmt, forStmt, whileStmt, defStmt, passStmt,
    continueStmt, returnStmt]

def text : Keyword → String
  | trueLit => "true"
  | falseLit => "false"
  | noneLit => "none"
  | andOp => "and"
  | orOp => "or"
  | notOp => "not"
  | ifOp => "if"
  | elseOp => "else"
  | elifOp => "elif"
  | inOp => "in"
  | isOp => "is"
  | awaitOp => "await"
  | initStmt => "INIT"
  | setStmt => "SET"
  | ifStmt => "IF"
  | elseStmt => "ELSE"
  | elsifStmt => "ELSIF"
  | forStmt => "FOR"
  | whileStmt => "WHILE"
  | defStmt => "DEF"
  | passStmt => "PASS"
  | continueStmt => "CONTINUE"
  | returnStmt => "RETURN"

/-- The name in a token listing. The inline forms of `IF`, `ELSE` and `ELIF` are marked. -/
def label : Keyword → String
  | trueLit => "TRUE"
  | falseLit => "FALSE"
  | noneLit => "NONE"
  | andOp => "AND"
  | orOp => "OR"
  | notOp => "NOT"
  | ifOp => "IF_I"
  | elseOp => "ELSE_I"
  | elifOp => "ELIF_I"
  | inOp => "IN"
  | isOp => "IS"
  | awaitOp => "AWAIT"
  | k => k.text

def ofText? (s : String) : Option Keyword := all.find? (·.text == s)

end Keyword

/-! ## Operators -/

/-- An operator or bracket. -/
inductive Symbol
  | plus | minus | star | slash | slashSlash | percent
  | equal | dot
  | lessEqual | greaterEqual | less | greater | equalEqual | bangEqual
  | starStar | lessLess | greaterGreater
  | caret | pipe | ampersand | tilde
  | leftParen | rightParen | leftBracket | rightBracket | colon
deriving DecidableEq, Repr

namespace Symbol

def all : List Symbol :=
  [plus, minus, star, slash, slashSlash, percent, equal, dot, lessEqual, greaterEqual, less,
    greater, equalEqual, bangEqual, starStar, lessLess, greaterGreater, caret, pipe, ampersand,
    tilde, leftParen, rightParen, leftBracket, rightBracket, colon]

def text : Symbol → String
  | plus => "+"
  | minus => "-"
  | star => "*"
  | slash => "/"
  | slashSlash => "//"
  | percent => "%"
  | equal => "="
  | dot => "."
  | lessEqual => "<="
  | greaterEqual => ">="
  | less => "<"
  | greater => ">"
  | equalEqual => "=="
  | bangEqual => "!="
  | starStar => "**"
  | lessLess => "<<"
  | greaterGreater => ">>"
  | caret => "^"
  | pipe => "|"
  | ampersand => "&"
  | tilde => "~"
  | leftParen => "("
  | rightParen => ")"
  | leftBracket => "["
  | rightBracket => "]"
  | colon => ":"

/-- The name in a token listing. -/
def label : Symbol → String
  | plus => "PLUS"
  | minus => "MINUS"
  | star => "STAR"
  | slash => "SLASH"
  | slashSlash => "SLASH_SLASH"
  | percent => "PERCENT"
  | equal => "EQUAL"
  | dot => "DOT"
  | lessEqual => "LESS_EQUAL"
  | greaterEqual => "GREATER_EQUAL"
  | less => "LESS"
  | greater => "GREATER"
  | equalEqual => "EQUAL_EQUAL"
  | bangEqual => "BANG_EQUAL"
  | starStar => "STAR_STAR"
  | lessLess => "LESS_LESS"
  | greaterGreater => "GREATER_GREATER"
  | caret => "CARET"
  | pipe => "PIPE"
  | ampersand => "AMPERSAND"
  | tilde => "TILDE"
  | leftParen => "LEFT_PAREN"
  | rightParen => "RIGHT_PAREN"
  | leftBracket => "LEFT_BRACKET"
  | rightBracket => "RIGHT_BRACKET"
  | colon => "COLON"

def ofText? (s : String) : Option Symbol := all.find? (·.text == s)

end Symbol

end Offside
