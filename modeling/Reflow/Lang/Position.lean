/-!
# Positions in program text

A position is a line and a column, both counted from one. Columns count characters, and only a
line feed ends a line.

## Main definitions

* `Position`: line and column, with `Position.step` and `Position.advance` moving past text.
-/

namespace Reflow

/-- A line and a column of program text, both counted from one. -/
structure Position where
  line : Nat
  column : Nat
  deriving Repr, DecidableEq, Inhabited

namespace Position

/-- The position of the first character of a text. -/
def start : Position := ⟨1, 1⟩

/-- The position after one more character. -/
def step (p : Position) (c : Char) : Position :=
  if c = '\n' then ⟨p.line + 1, 1⟩ else ⟨p.line, p.column + 1⟩

/-- The position after some more characters. -/
def advance (p : Position) (cs : List Char) : Position := cs.foldl step p

/-- The text `line:column`. -/
def text (p : Position) : String := toString p.line ++ ":" ++ toString p.column

@[simp] theorem advance_nil (p : Position) : p.advance [] = p := rfl

theorem advance_append (p : Position) (cs ds : List Char) :
    p.advance (cs ++ ds) = (p.advance cs).advance ds := by
  simp [advance]

end Position

end Reflow
