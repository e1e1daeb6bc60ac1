import Reflow.Machine.Exchange
import Reflow.Main
import Reflow.Proofs.Code.Limits
import Reflow.Proofs.Code.Traces
import Reflow.Proofs.Edit.Exchange
import Reflow.Proofs.Graph.Chains
import Reflow.Proofs.Graph.Closure
import Reflow.Proofs.Graph.Precedence
import Reflow.Proofs.Image.Forest
import Reflow.Proofs.Lang.Partition
import Reflow.Proofs.Lang.RoundTrip
import Reflow.Proofs.Memory.Exactness
import Reflow.Proofs.Program.Awaiting
import Reflow.Proofs.Program.Exclusion
import Reflow.Proofs.Queue.Linearity
import Reflow.Proofs.Session.Admission
import Reflow.Proofs.Session.Agreement
import Reflow.Proofs.Session.Chronicle
import Reflow.Proofs.Session.Clearing
import Reflow.Proofs.Session.Copying
import Reflow.Proofs.Session.Cycles
import Reflow.Proofs.Session.Events
import Reflow.Proofs.Session.FunctionValues
import Reflow.Proofs.Session.Independence
import Reflow.Proofs.Session.Indirection
import Reflow.Proofs.Session.Recovery
import Reflow.Proofs.Session.Rejection
import Reflow.Proofs.Session.Relabelling
import Reflow.Proofs.Session.Reporting
import Reflow.Proofs.Session.Rollback
import Reflow.Proofs.Session.Snapshots
import Reflow.Session.Live
