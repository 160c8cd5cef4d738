/-!
# Positions in a source text

Lines and columns are counted from one. A line ends at a line feed and nowhere else, and a column
is one character wide, whatever the character.
-/

namespace Offside

/-- A line and a column, both counted from one. -/
structure Position where
  line : Nat
  column : Nat
deriving DecidableEq, Repr, Inhabited

namespace Position

def start : Position := ⟨1, 1⟩

def next (p : Position) (c : Char) : Position :=
  if c = '\n' then ⟨p.line + 1, 1⟩ else ⟨p.line, p.column + 1⟩

def after (p : Position) (cs : List Char) : Position := cs.foldl next p

/-- How messages name a position. -/
def text (p : Position) : String := s!"line {p.line}, column {p.column}"

/-- A message about something at a position. -/
def locate (p : Position) (message : String) : String := message ++ " at " ++ p.text

@[simp] theorem after_nil (p : Position) : p.after [] = p := rfl

@[simp] theorem after_cons (p : Position) (c : Char) (cs : List Char) :
    p.after (c :: cs) = (p.next c).after cs := rfl

theorem after_append (p : Position) (cs ds : List Char) :
    p.after (cs ++ ds) = (p.after cs).after ds := by
  simp [after, List.foldl_append]

end Position

end Offside
