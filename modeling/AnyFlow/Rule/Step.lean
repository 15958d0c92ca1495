import AnyFlow.Finding.Basic
import AnyFlow.Rule.Basic
import AnyFlow.Types.Table

namespace AnyFlow

inductive Failure
  | missingChild (kind : Kind) (node : Nat) (role : Role)
  | namelessReference (node : Nat)
  | namelessBinding (node : Nat)
  | strayDeclarator (node : Nat) (parent : Option Kind)
  | returnsNothing (node : Nat) (kind : Kind)
  | noAssignment (node : Nat)
  | noUpdate (node : Nat)
deriving DecidableEq

namespace Failure

def parentText : Option Kind → String
  | none => "None"
  | some kind => "Some(" ++ kind.label ++ ")"

def message : Failure → String
  | .missingChild kind node role =>
    kind.label ++ " node " ++ node.repr ++ " has no " ++ role.label ++ " child"
  | .namelessReference node => "type reference " ++ node.repr ++ " carries no source text"
  | .namelessBinding node => "binding identifier " ++ node.repr ++ " has no name"
  | .strayDeclarator node parent =>
    "declarator " ++ node.repr ++ " sits under " ++ parentText parent
  | .returnsNothing node kind =>
    "node " ++ node.repr ++ " of kind " ++ kind.label ++ " returns nothing"
  | .noAssignment node => "node " ++ node.repr ++ " is not an assignment"
  | .noUpdate node => "node " ++ node.repr ++ " is not an update expression"

end Failure

inductive Step
  | unresolved (cause : Unresolved)
  | found (finding : Finding)
  | skipped (rule : Rule) (node : Nat) (failure : Failure)
deriving DecidableEq

namespace Step

def finding? : Step → Option Finding
  | .found f => some f
  | _ => none

end Step

end AnyFlow
