import AnyFlow.Analysis
import AnyFlow.Proofs.Allowance
import AnyFlow.Proofs.Ancestry
import AnyFlow.Proofs.Annotating
import AnyFlow.Proofs.Building
import AnyFlow.Proofs.DamagedDump
import AnyFlow.Proofs.Declarator
import AnyFlow.Proofs.DepthFirst
import AnyFlow.Proofs.Destructuring
import AnyFlow.Proofs.Dropped
import AnyFlow.Proofs.Ending
import AnyFlow.Proofs.Failing
import AnyFlow.Proofs.Filling
import AnyFlow.Proofs.FindingDump
import AnyFlow.Proofs.InnerType
import AnyFlow.Proofs.MoreTypes
import AnyFlow.Proofs.NumericLike
import AnyFlow.Proofs.OptionForms
import AnyFlow.Proofs.Order
import AnyFlow.Proofs.Rendering
import AnyFlow.Proofs.Renumbered
import AnyFlow.Proofs.Roots
import AnyFlow.Proofs.SparseDump
import AnyFlow.Proofs.TreeDump
import AnyFlow.Proofs.TypeDump
import AnyFlow.Proofs.TypeView
import AnyFlow.Proofs.ValueFlow
import AnyFlow.Proofs.Workload
import AnyFlow.Rule.Info
import AnyFlow.Tree.Builder
import AnyFlow.Tree.Codec
