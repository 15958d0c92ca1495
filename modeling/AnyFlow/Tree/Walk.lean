import AnyFlow.Tree.Basic

namespace AnyFlow.Tree

variable (t : Tree)

def ancestorsUpTo : Nat → Nat → List Node
  | 0, _ => []
  | n + 1, id => match t.parent? id with
    | some p => p :: ancestorsUpTo n p.id
    | none => []

/-- The way up meets a node twice only if it never ends. -/
def ancestors (id : Nat) : List Node := t.ancestorsUpTo (t.size + 1) id

def walkPending : Nat → List Node → List Node
  | 0, _ => []
  | _ + 1, [] => []
  | n + 1, x :: pending => x :: walkPending n (t.childrenOf x ++ pending)

def preorderUpTo (n : Nat) : List Node := t.walkPending n (t.roots.filterMap t.node?)

/-- The number of ways down from a node that follow at most `depth` links. -/
def waysDown : Nat → Node → Nat
  | 0, _ => 1
  | depth + 1, x => 1 + ((t.childrenOf x).map (waysDown depth)).foldr (· + ·) 0

/-- Every visit is told by the way down to it, and in a walk that ends no node lies below itself,
so that no way has more than `size` links. -/
def walkBound : Nat :=
  ((t.roots.filterMap t.node?).map (t.waysDown t.size)).foldr (· + ·) 0

/-- The nodes below the roots in document order. -/
def preorder : List Node := t.preorderUpTo t.walkBound

/-- A node and all that lies at most `depth` levels below it, children after their parent. -/
def subtree : Nat → Node → List Node
  | 0, x => [x]
  | depth + 1, x => x :: (t.childrenOf x).flatMap (subtree depth)

inductive Reachable : Nat → Prop
  | root {r : Nat} (hr : r ∈ t.roots) : Reachable r
  | child {p c : Nat} {n : Node} (hp : Reachable p) (hn : t.node? p = some n)
      (hc : c ∈ n.children) : Reachable c

end AnyFlow.Tree
