import Reflow.Compile.Diagnostic
import Reflow.Machine.Fault
import Reflow.Session.Phase
/-!
# Errors of a session

A failed batch is an error for the caller who asked for it. The session can be used on after an
error that is recoverable; a fatal one means that the session itself is broken.

## Main definitions

* `SessionError`: why a call failed.
* `SessionError.message`, `SessionError.isRecoverable`, `SessionError.isFatal`.
-/

namespace Reflow

/-- Why a call of a session failed. -/
inductive SessionError
  /-- The code was rejected; nothing was run. -/
  | compile (diagnostics : List Diagnostic)
  /-- The run of the batch ended in a fault. -/
  | execute (fault : Fault)
  /-- The session is not in the state that it should be in. -/
  | invariantViolation (reason : String)
  /-- A phase that cannot follow the present one. -/
  | illegalTransition (source target : Phase)
  /-- A call that the session's mode does not allow. -/
  | modeMismatch (operation : String) (interpreterMode : Bool)
  /-- The queue takes no more tasks. -/
  | workerStopped
  /-- A task that ended without an answer. -/
  | taskDropped (task : String)
  deriving DecidableEq

namespace SessionError

/-- The name of the kind of error; a fault keeps its own kind. -/
def kind : SessionError → String
  | compile _ => "Compile"
  | execute fault => "Execute." ++ fault.kind
  | invariantViolation _ => "InvariantViolation"
  | illegalTransition _ _ => "IllegalTransition"
  | modeMismatch _ _ => "ModeMismatch"
  | workerStopped => "WorkerStopped"
  | taskDropped _ => "TaskDropped"

/-- The errors among some diagnostics in one line. -/
def summary (diagnostics : List Diagnostic) : String :=
  match diagnostics.filter Diagnostic.isError with
  | [] => "no diagnostics"
  | errors => separated "; " (errors.map Diagnostic.text)

/-- The error text. -/
def message : SessionError → String
  | compile diagnostics => "compilation failed: " ++ summary diagnostics
  | execute fault => "execution failed: " ++ fault.message
  | invariantViolation reason => "invariant violated: " ++ reason
  | illegalTransition source target =>
    "illegal session transition " ++ source.name ++ " -> " ++ target.name
  | modeMismatch operation interpreterMode =>
    operation ++ " is not available when interpreter mode is "
      ++ if interpreterMode then "on" else "off"
  | workerStopped => "worker stopped"
  | taskDropped task => "task " ++ ticked task ++ " was dropped before completing"

/-- Whether the session can be used on after the error. -/
def isRecoverable : SessionError → Bool
  | compile _ => true
  | modeMismatch _ _ => true
  | execute fault => fault.isProgramFault
  | _ => false

/-- Whether the session itself is broken. -/
def isFatal : SessionError → Bool
  | invariantViolation _ => true
  | illegalTransition _ _ => true
  | taskDropped _ => true
  | execute fault => !fault.isProgramFault
  | _ => false

/-- The diagnostics of a rejected batch. -/
def diagnostics : SessionError → List Diagnostic
  | compile diagnostics => diagnostics
  | _ => []

end SessionError

end Reflow
