import Reflow.Edit.Subtree
import Reflow.Image.Block
/-!
# Diagnostics

Compiling never stops at a problem: each one becomes a diagnostic with the subtree whose code
produced it, and one error among them makes the compilation fail.

## Main definitions

* `CompileError`: why a unit of code is rejected.
* `Diagnostic`: an error or a warning, with `Diagnostic.text`.
-/

namespace Reflow

/-- Why a unit of code is rejected. -/
inductive CompileError
  /-- The code is no program. -/
  | parse (source : SyntaxError)
  /-- The structure of the program is broken. -/
  | image (source : ImageError)
  /-- An assignment to a name that is a function. -/
  | assignToFunction (name : String)
  /-- A function with the name of a variable that something assigns. -/
  | functionShadowsVariable (name : String)
  deriving DecidableEq

namespace CompileError

/-- The error text. -/
def message : CompileError → String
  | parse source => source.message
  | image source => source.message
  | assignToFunction name => "cannot assign to " ++ ticked name ++ ": it names a function"
  | functionShadowsVariable name =>
    "cannot define function " ++ ticked name ++ ": it is already a variable"

/-- Where the problem is, if it has a place in the code. -/
def position? : CompileError → Option Position
  | parse source => some source.position
  | _ => none

end CompileError

/-- How grave a diagnostic is. -/
inductive Severity
  | error | warning
  deriving Repr, DecidableEq

/-- A message about a compilation. -/
structure Diagnostic where
  severity : Severity
  message : String
  /-- The subtree whose code the message is about. -/
  subtree : Option SubtreeId
  position : Option Position
  deriving DecidableEq

namespace Diagnostic

/-- The diagnostic of an error. -/
def ofError (e : CompileError) (subtree : Option SubtreeId) : Diagnostic :=
  ⟨.error, e.message, subtree, e.position?⟩

/-- A warning. -/
def warning (message : String) (subtree : Option SubtreeId) : Diagnostic :=
  ⟨.warning, message, subtree, none⟩

/-- Whether a diagnostic makes the compilation fail. -/
def isError (d : Diagnostic) : Bool := d.severity = .error

/-- The text of a diagnostic: its severity, its subtree in brackets, and the message. -/
def text (d : Diagnostic) : String :=
  let level := match d.severity with
    | .error => "error"
    | .warning => "warning"
  let source := match d.subtree with
    | some id => " [" ++ id.text ++ "]"
    | none => ""
  level ++ source ++ ": " ++ d.message

end Diagnostic

end Reflow
