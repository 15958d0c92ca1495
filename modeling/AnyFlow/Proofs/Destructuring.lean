import AnyFlow.Proofs.Matching
import AnyFlow.Proofs.Pattern
import AnyFlow.Proofs.Recorded
import AnyFlow.Tree.Builder

namespace AnyFlow

namespace Tree

variable {t : Tree} {k m : Nat} {s d leaf : Node}

end Tree

namespace Context

variable {t : Tree} {T : TypeTable} {o : Options} {n : Node}

instance : Decidable (T.RecordsAny n) := decidable_of_iff _ TypeTable.exposure_eq_any

end Context

end AnyFlow
