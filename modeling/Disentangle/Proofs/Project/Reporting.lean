import Disentangle.Command.Perform
import Disentangle.Proofs.Project.RunFaults
import Disentangle.Proofs.Settings

/-!
How a run reports what becomes of it. A failure is told and comes back as `false`; what is not told
is a fault. A request reports in the same way, once it has been understood.
-/

namespace Disentangle

section Running

end Running

namespace Command.BreakRequest

variable {request : BreakRequest} {before after : Workspace}

end Command.BreakRequest

end Disentangle
