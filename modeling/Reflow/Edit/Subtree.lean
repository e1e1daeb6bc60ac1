import Reflow.Edit.SubtreeId
import Reflow.Lang.Parser
import Reflow.Lang.Render
/-!
# Subtrees

A subtree is one unit of user code: an identity and the statements it stands for. An edit replaces
the whole unit under the same identity.

## Main definitions

* `Subtree`: a unit of code.
* `Subtree.parse`: the unit of a program text.
* `Subtree.code`: the program text of a unit.
-/

namespace Reflow

/-- A unit of user code under a stable identity. -/
structure Subtree where
  id : SubtreeId
  statements : List Statement

/-- A subtree whose code is not a program. -/
structure InvalidCode where
  subtree : SubtreeId
  source : SyntaxError
  deriving DecidableEq

/-- The error text of a subtree whose code is not a program. -/
def InvalidCode.message (e : InvalidCode) : String :=
  "subtree " ++ e.subtree.text ++ ": " ++ e.source.message

namespace Subtree

/-- A subtree without statements, as it names a deletion. -/
def empty (id : SubtreeId) : Subtree := ⟨id, []⟩

/-- The subtree of a program text. -/
def parse (id : SubtreeId) (code : String) : Except InvalidCode Subtree :=
  match parseProgram code with
  | .ok statements => .ok ⟨id, statements⟩
  | .error source => .error ⟨id, source⟩

/-- The names that the statements bind, in order. -/
def boundNames (s : Subtree) : List String := s.statements.map Statement.boundName

/-- The program text of a subtree, one statement a line. -/
def code (s : Subtree) : String := Statement.renderAll s.statements

end Subtree

end Reflow
