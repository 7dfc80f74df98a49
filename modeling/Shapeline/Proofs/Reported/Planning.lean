import Shapeline.Proofs.Planning
import Shapeline.Proofs.Reported.Resolution

/-!
# What planning reports

Planning looks up the layer types of all uses. If they are in scope, which resolution has checked,
and no override is a list, it returns a plan or reports what is wrong with the overrides and with
the numbers of the nodes.
-/

namespace Shapeline

variable {model : ResolvedModel} {node : Int} {spec : NodeSpec} {done : Nat}

end Shapeline
