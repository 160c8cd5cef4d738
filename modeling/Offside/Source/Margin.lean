import Offside.Token.Basic
import Offside.Source.Piece

/-!
# The left margin

Blocks are shown by indentation. The margin remembers how far in the open blocks are; at the start
of each line after the first it turns the leading blanks into layout tokens.

* The first blank at the start of a line fixes the *unit* of the whole text, a space or a tab. The
  width of a line is the length of the run of units it starts with; its first blank counts whatever
  it is, and blanks behind the run do not count.
* A line wider than the innermost block opens a block; one that is narrower closes every block that
  is wider. A width that no open block has is accepted there, and opens none.
* Lines without code leave the blocks alone.
-/

namespace Offside

/-- The open blocks and the blank that indents them. -/
structure Margin where
  /-- The widths of the open blocks, the innermost first. -/
  widths : List Nat
  /-- The blank that widths are counted in, once one has been seen. -/
  unit : Option Char
deriving DecidableEq, Repr

namespace Margin

def outermost : Margin := ⟨[], none⟩

def width (m : Margin) : Nat := m.widths.headD 0

/-- The end of a block, shown at `p`. -/
def dedent (p : Position) : Token := ⟨.dedent, "", none, p⟩

/-- Closes the blocks wider than `w`. -/
def closeTo (m : Margin) (w : Nat) (p : Position) : Margin × List Token :=
  (⟨m.widths.dropWhile (w < ·), m.unit⟩, (m.widths.takeWhile (w < ·)).map fun _ => dedent p)

/-- The part of some leading blanks that makes up their width. -/
def measured (u : Char) : List Char → List Char
  | [] => []
  | c :: cs => c :: cs.takeWhile (· == u)

/-- The unit after a line that starts with these blanks. -/
def unitAfter (m : Margin) (blanks : List Char) : Option Char := m.unit <|> blanks.head?

/-- Opens a block for a line further in, and closes the blocks that a line further out leaves. -/
def moveTo (m : Margin) (shown : List Char) (p : Position) : Margin × List Token :=
  if m.width < shown.length then
    (⟨shown.length :: m.widths, m.unit⟩, [⟨.indent, String.ofList shown, none, p⟩])
  else m.closeTo shown.length p

/-- No code up to the end of the line: it ends here, or a comment follows. A carriage return counts
as an end, whatever is behind it. -/
def isBlankLine : List Piece → Bool
  | [] => true
  | q :: _ => q.shape == .lineBreak || q.shape == .carriage || q.shape == .comment

/-- The layout tokens of a line that starts at `p` with these pieces. -/
def startLine (m : Margin) (p : Position) : List Piece → Margin × List Token
  | [] => (m, [])
  | q :: qs =>
    if q.shape = .blanks then
      let m' : Margin := ⟨m.widths, m.unitAfter q.text⟩
      if isBlankLine qs then (m', [])
      else m'.moveTo (measured (m'.unit.getD ' ') q.text) p
    else if isBlankLine (q :: qs) then (m, [])
    else m.closeTo 0 p

end Margin

end Offside
