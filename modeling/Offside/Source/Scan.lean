import Offside.Source.Margin

/-!
# From source text to tokens

A source text becomes a list of tokens, or a list of everything that is wrong with it. Scanning
goes on behind a fault, so one pass finds them all.

* `Source.scan`: tokens and faults of a text in the order of their positions.
* `tokenize`: the tokens if there is no fault, otherwise the faults.
-/

namespace Offside

/-! ## Faults -/

namespace Fault

/-- Why a piece of source text is no token. -/
inductive Cause
  /-- A character that starts no token. -/
  | unexpectedCharacter (c : Char)
  /-- A quote that is not closed on its line. -/
  | unterminatedText
  /-- A name with letters of both cases. -/
  | mixedCase (name : String)
  /-- The beginning of an operator without its end. -/
  | invalidOperator (text : String)
deriving DecidableEq, Repr

def Cause.message : Cause → String
  | unexpectedCharacter c => "unexpected character: " ++ String.singleton c
  | unterminatedText => "unterminated string"
  | mixedCase name =>
    "invalid identifier '" ++ name ++ "', names must be all uppercase or all lowercase"
  | invalidOperator text => "invalid operator: " ++ text

end Fault

/-- Something wrong in a source text, and where. -/
structure Fault where
  cause : Fault.Cause
  pos : Position
deriving DecidableEq, Repr

def Fault.message (f : Fault) : String := f.pos.locate f.cause.message

/-! ## The token of a piece -/

namespace Source

/-- What scanning finds: a token or a fault. -/
abbrev Item := Except Fault Token

def token (kind : Kind) (p : Position) (text : List Char) (payload : Option Payload) : Item :=
  .ok ⟨kind, String.ofList text, payload, p⟩

def number (text : List Char) : Float :=
  Double.ofCode false
    (Double.readDigits (text.takeWhile Char.isDigit) ((text.dropWhile Char.isDigit).drop 1))

/-- A word is a reserved word or a name. A name without lower case letters is a command, one without
upper case letters a variable, and no name has both. -/
def word (p : Position) (text : List Char) : Item :=
  let name := String.ofList text
  match Keyword.ofText? name with
  | some k => token (.keyword k) p text none
  | none =>
    if !text.any Char.isLower then token .command p text (some (.text name))
    else if !text.any Char.isUpper then token .identifier p text (some (.text name))
    else .error ⟨.mixedCase name, p⟩

/-- A character that starts no token. Only the exclamation mark could have started an operator. -/
def stray (p : Position) (c : Char) : Item :=
  if c = '!' then .error ⟨.invalidOperator "!", p⟩ else .error ⟨.unexpectedCharacter c, p⟩

/-- The token or fault of a piece that begins at `p`. Blanks and lone carriage returns have none,
and both forms of a line break are the same token. -/
def item? (p : Position) (q : Piece) : Option Item :=
  match q.shape with
  | .blanks => none
  | .carriage => none
  | .lineBreak => some (token .newline p ['\n'] none)
  | .comment => some (token .comment p q.text none)
  | .quoted => some (token .text p q.text (some (.text (String.ofList q.text.tail.dropLast))))
  | .unclosed => some (.error ⟨.unterminatedText, p⟩)
  | .number => some (token .number p q.text (some (.number (number q.text))))
  | .word => some (word p q.text)
  | .symbol s => some (token (.symbol s) p q.text none)
  | .stray c => some (stray p c)

/-! ## Scanning -/

/-- The tokens and faults of the pieces from `p` on. `atStart` says that a line after the first
begins there. At the end all blocks are closed. -/
def items (m : Margin) (atStart : Bool) (p : Position) : List Piece → List Item
  | [] => (m.closeTo 0 p).2.map .ok ++ [.ok ⟨.endOfInput, "", none, p⟩]
  | q :: qs =>
    let (m', layout) := if atStart then m.startLine p (q :: qs) else (m, [])
    layout.map .ok ++ ((item? p q).toList ++
      items m' (q.shape == .lineBreak) (p.after q.text) qs)

/-- Drops a byte order mark in front. -/
def withoutMark : List Char → List Char
  | [] => []
  | c :: cs => if c = '\ufeff' then cs else c :: cs

/-- The tokens and faults of a source text, in order. -/
def scan (source : List Char) : List Item :=
  items .outermost false .start (Piece.cut (withoutMark source))

def token? : Item → Option Token
  | .ok t => some t
  | .error _ => none

def fault? : Item → Option Fault
  | .ok _ => none
  | .error f => some f

end Source

open Source in
/-- The tokens of a source text, or everything that is wrong with it. -/
def tokenize (source : String) : Except (List Fault) (List Token) :=
  let found := scan source.toList
  match found.filterMap fault? with
  | [] => .ok (found.filterMap token?)
  | faults => .error faults

end Offside
