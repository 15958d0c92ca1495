import AnyFlow.Analysis
import AnyFlow.Tree.Loop

namespace AnyFlow

namespace Tree

variable (t : Tree)

/-- The parent of a node, if it is a pattern that has the node in the place where it binds. -/
def patternParent? (n : Node) : Option Node := (t.parent? n.id).filter fun p ↦ isPatternLink n p

/-- The climb from `leaf` moves to `moves` one after the other and ends. -/
def ClimbYields (leaf : Node) (moves : List Node) : Prop :=
  Loop.Yields (Loop.follow t.patternParent?) (t.patternParent? leaf) moves

def declaratorAbove? (leaf top : Node) : Option Node :=
  (t.parent? top.id).filter fun p ↦ p.kind = .variableDeclarator ∧ top.role = some .id ∧
    top.id ≠ leaf.id ∧ (t.childIn? p.id .init).isSome

def FindsDeclarator (leaf : Node) (d : Option Node) : Prop :=
  if leaf.kind ≠ .identifier then d = none
  else ∃ moves, t.ClimbYields leaf moves ∧ d = t.declaratorAbove? leaf (moves.getLastD leaf)

end Tree

/-- The rules that apply to `n` are found, and are `rules`. Only an identifier needs a search. -/
def Rule.Matched (t : Tree) (n : Node) (rules : List Rule) : Prop :=
  match n.kind with
  | .identifier => ∃ d, t.FindsDeclarator n d ∧ rules = if d.isSome then [.patternBinding] else []
  | _ => rules = Rule.matching t n

namespace Context

variable (cx : Context)

def Visited (n : Node) (steps : List Step) : Prop :=
  ∃ rules, Rule.Matched cx.tree n rules ∧ steps = rules.flatMap (cx.stepsOfRule n)

def Ends (steps : List Step) : Prop :=
  Loop.Gathers cx.tree.nextVisit? cx.Visited (Tree.pushAll [] cx.tree.roots.reverse) steps

end Context

end AnyFlow
