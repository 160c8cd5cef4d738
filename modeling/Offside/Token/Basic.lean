import Offside.Position
import Offside.Double.Decimal
import Offside.Token.Vocabulary

/-!
# Tokens

What a source text is made of once spaces are gone: words, numbers, texts and operators, and the
layout tokens that say where lines and blocks begin and end.
-/

namespace Offside

/-- What a token is. -/
inductive Kind
  /-- A line further in than the block around it. -/
  | indent
  /-- The end of a block. -/
  | dedent
  | newline
  | endOfInput
  | number
  | text
  | comment
  /-- A name without lower case letters. -/
  | command
  /-- A name in lower case. -/
  | identifier
  | symbol (s : Symbol)
  | keyword (k : Keyword)
deriving DecidableEq, Repr

namespace Kind

/-- The name in a token listing. -/
def label : Kind → String
  | indent => "INDENT"
  | dedent => "DEDENT"
  | newline => "NEWLINE"
  | endOfInput => "EOF"
  | number => "NUMBER"
  | text => "STRING"
  | comment => "COMMENT"
  | command => "COMMAND"
  | identifier => "IDENTIFIER"
  | symbol s => s.label
  | keyword k => k.label

/-- The kinds that are neither operators nor reserved words. -/
def plain : List Kind :=
  [indent, dedent, newline, endOfInput, number, text, comment, command, identifier]

def all : List Kind := plain ++ Symbol.all.map symbol ++ Keyword.all.map keyword

def ofLabel? (s : String) : Option Kind := all.find? (·.label == s)

end Kind

/-- What a number, text or name token stands for. -/
inductive Payload
  | number (x : Float)
  | text (s : String)
deriving DecidableEq

namespace Payload

/-- The form in a token listing. -/
def listing : Payload → String
  | number x => Double.render Double.listed x
  | text s => s

end Payload

/-- A token with the text it was read from and the position where that begins. -/
structure Token where
  kind : Kind
  lexeme : String
  payload : Option Payload
  pos : Position
deriving DecidableEq

namespace Token

/-- The form in a token listing: the kind, and the payload if there is one. -/
def listing (t : Token) : String :=
  match t.payload with
  | some p => t.kind.label ++ ": " ++ p.listing
  | none => t.kind.label

/-- How messages name a token. -/
def describe (t : Token) : String :=
  match t.kind with
  | .newline => "newline"
  | .endOfInput => "end of input"
  | .indent => "indent"
  | .dedent => "dedent"
  | _ => "'" ++ t.lexeme ++ "'"

end Token

end Offside
