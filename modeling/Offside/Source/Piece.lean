import Offside.Token.Vocabulary

/-!
# Cutting a source text into pieces

The first look at a source text: it falls into pieces, each the longest of its class, and every
character belongs to one of them. Where a piece ends depends on its own characters and the one or
two behind it, never on the lines before.

* `Piece.cut`: the pieces of a text, in order.
* `Piece.cut_flatten`: joined again they give back the text.
-/

namespace Offside

/-- What a piece of source text is. -/
inductive Shape
  /-- Spaces and tabs. -/
  | blanks
  /-- A carriage return that ends no line. -/
  | carriage
  /-- A line feed, or a carriage return and a line feed. -/
  | lineBreak
  | comment
  /-- A text between two quotes on one line. -/
  | quoted
  /-- A quote without a second one on its line. -/
  | unclosed
  | number
  | word
  | symbol (s : Symbol)
  /-- A character that starts no token. -/
  | stray (c : Char)
deriving DecidableEq, Repr

/-- A piece of source text. -/
structure Piece where
  shape : Shape
  text : List Char
deriving DecidableEq, Repr

namespace Piece

/-! ## Character classes -/

/-- The characters that indent and separate. -/
def isBlank (c : Char) : Bool := c == ' ' || c == '\t'

/-- The characters of words. They are letters, digits and underscores of ASCII alone. -/
def isWordChar (c : Char) : Bool := c.isAlphanum || c == '_'

/-- A comment goes up to one of these. -/
def endsComment (c : Char) : Bool := c == '\n' || c == '\r'

/-- A quoted text goes up to one of these. -/
def endsQuote (c : Char) : Bool := c == '"' || c == '\n'

/-! ## One piece -/

/-- Leading characters of a class, and what is behind them. -/
def run (p : Char → Bool) (cs : List Char) : List Char × List Char :=
  (cs.takeWhile p, cs.dropWhile p)

/-- The rest of a number behind its first digit: more digits, and a point if a digit follows it. -/
def numberTail (cs : List Char) : List Char × List Char :=
  match run Char.isDigit cs with
  | (ds, '.' :: d :: rest) =>
    if d.isDigit then
      let (fs, rest) := run Char.isDigit (d :: rest)
      (ds ++ '.' :: fs, rest)
    else (ds, '.' :: d :: rest)
  | (ds, rest) => (ds, rest)

/-- A quoted text behind its first quote. -/
def quoteTail (cs : List Char) : Shape × List Char × List Char :=
  match run (!endsQuote ·) cs with
  | (body, '"' :: rest) => (.quoted, body ++ ['"'], rest)
  | (body, rest) => (.unclosed, body, rest)

/-- An operator: of two characters if they are one, otherwise of the first alone. -/
def symbolTail (c : Char) (cs : List Char) : Shape × List Char × List Char :=
  let single :=
    match Symbol.ofText? (String.singleton c) with
    | some s => (.symbol s, [], cs)
    | none => (.stray c, [], cs)
  match cs with
  | [] => single
  | d :: rest =>
    match Symbol.ofText? (String.ofList [c, d]) with
    | some s => (.symbol s, [d], rest)
    | none => single

/-- The piece that begins with the character `c`: its shape, its characters behind `c`, and the
text behind it. -/
def tail (c : Char) (cs : List Char) : Shape × List Char × List Char :=
  if c = '\n' then (.lineBreak, [], cs)
  else if c = '\r' then
    match cs with
    | '\n' :: rest => (.lineBreak, ['\n'], rest)
    | cs => (.carriage, [], cs)
  else if isBlank c then (.blanks, run isBlank cs)
  else if c = '#' then (.comment, run (!endsComment ·) cs)
  else if c = '"' then quoteTail cs
  else if c.isDigit then (.number, numberTail cs)
  else if isWordChar c then (.word, run isWordChar cs)
  else symbolTail c cs

/-! ## Nothing is lost -/

theorem run_append (p : Char → Bool) (cs : List Char) : (run p cs).1 ++ (run p cs).2 = cs := by
  simp [run]

theorem numberTail_append (cs : List Char) : (numberTail cs).1 ++ (numberTail cs).2 = cs := by
  have h := run_append Char.isDigit cs
  unfold numberTail
  split
  · rename_i ds d rest heq
    rw [heq] at h
    split
    · have h' := run_append Char.isDigit (d :: rest)
      simp only [List.append_assoc, List.cons_append, h']
      exact h
    · exact h
  · rename_i ds rest _ heq
    rw [heq] at h
    exact h

theorem quoteTail_append (cs : List Char) : (quoteTail cs).2.1 ++ (quoteTail cs).2.2 = cs := by
  have h := run_append (!endsQuote ·) cs
  unfold quoteTail
  split
  · rename_i body rest heq
    rw [heq] at h
    simpa using h
  · rename_i body rest _ heq
    rw [heq] at h
    exact h

theorem symbolTail_append (c : Char) (cs : List Char) :
    (symbolTail c cs).2.1 ++ (symbolTail c cs).2.2 = cs := by
  cases cs with
  | nil => simp only [symbolTail]; split <;> rfl
  | cons d rest => simp only [symbolTail]; split <;> (try split) <;> rfl

theorem tail_append (c : Char) (cs : List Char) : (tail c cs).2.1 ++ (tail c cs).2.2 = cs := by
  unfold tail
  split
  · rfl
  split
  · split <;> rfl
  split
  · exact run_append _ cs
  split
  · exact run_append _ cs
  split
  · exact quoteTail_append cs
  split
  · exact numberTail_append cs
  split
  · exact run_append _ cs
  · exact symbolTail_append c cs

theorem length_tail_le (c : Char) (cs : List Char) : (tail c cs).2.2.length ≤ cs.length := by
  have h := congrArg List.length (tail_append c cs)
  simp only [List.length_append] at h
  omega

/-! ## All pieces -/

def cut : List Char → List Piece
  | [] => []
  | c :: cs =>
    let r := tail c cs
    ⟨r.1, c :: r.2.1⟩ :: cut r.2.2
termination_by cs => cs.length
decreasing_by exact Nat.lt_succ_of_le (length_tail_le c cs)

theorem cut_cons (c : Char) (cs : List Char) :
    cut (c :: cs) = ⟨(tail c cs).1, c :: (tail c cs).2.1⟩ :: cut (tail c cs).2.2 := by
  rw [cut]

theorem cut_flatten (cs : List Char) : (cut cs).flatMap text = cs := by
  fun_induction cut cs with
  | case1 => rfl
  | case2 c cs r ih => simp [ih, r, tail_append]

end Piece

end Offside
