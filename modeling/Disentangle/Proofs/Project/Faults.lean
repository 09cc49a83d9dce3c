import Disentangle.Proofs.Index.Bindings
import Disentangle.Proofs.Project.Collecting
import Disentangle.Proofs.Project.Reading

/-!
Where the stages of a run can meet a fault. A fault of two inquiries, one behind the other, is one
of the first, or one of the second when the first has succeeded, so the faults of a stage are found
by going along its steps. No relative path that is asked for is a fault, for it leads to a path that
is not
empty. -/

namespace Disentangle

variable {α β : Type}

namespace Inquiry

variable {scene : Scene} {before : List Event} {fault : Fault}

end Inquiry

open Inquiry

section Reading

variable {scene : Scene} {before : List Event} {fault : Fault}

end Reading

section Collecting

variable {scene : Scene} {before : List Event} {fault : Fault} {options : BreakOptions}

end Collecting

section Planning

variable {scene : Scene} {before after : List Event} {fault : Fault} {table table' : SymbolTable}
  {records : List FileRecord} {record : FileRecord}

end Planning

end Disentangle
