import AnyFlow.Loop
import AnyFlow.Tree.Walk

namespace AnyFlow.Tree

/-- Lays ids on a stack one after the other. A stack has its top in front. -/
def pushAll (stack ids : List Nat) : List Nat := ids.foldl (fun s i ↦ i :: s) stack

variable (t : Tree)

/-- Takes the next node off the stack, past ids without a node, and lays its children on the
stack, the last one first. -/
def nextVisit? : List Nat → Option (Node × List Nat)
  | [] => none
  | i :: stack => match t.node? i with
    | some n => some (n, pushAll stack n.children.reverse)
    | none => nextVisit? stack

def WalkYields (ns : List Node) : Prop := Loop.Yields t.nextVisit? (pushAll [] t.roots.reverse) ns

def AscentYields (id : Nat) (as : List Node) : Prop :=
  Loop.Yields (Loop.follow fun n ↦ t.parent? n.id) (t.parent? id) as

theorem pushAll_reverse (stack ids : List Nat) : pushAll stack ids.reverse = ids ++ stack := by
  rw [pushAll, List.foldl_reverse]
  induction ids with
  | nil => rfl
  | cons i ids ih => rw [List.foldr_cons, ih, List.cons_append]

variable {t}

theorem nextVisit?_of_node? {i : Nat} {stack : List Nat} {n : Node} (h : t.node? i = some n) :
    t.nextVisit? (i :: stack) = some (n, n.children ++ stack) := by
  simp only [nextVisit?, h, pushAll_reverse]

theorem nextVisit?_of_not_node? {i : Nat} {stack : List Nat} (h : t.node? i = none) :
    t.nextVisit? (i :: stack) = t.nextVisit? stack := by
  simp only [nextVisit?, h]

theorem nextVisit?_append (u v : List Nat) : t.nextVisit? (u ++ v) =
    ((t.nextVisit? u).map fun r ↦ (r.1, r.2 ++ v)).or (t.nextVisit? v) := by
  induction u with
  | nil => rfl
  | cons i u ih =>
    rw [List.cons_append]
    cases hi : t.node? i with
    | none => rw [nextVisit?_of_not_node? hi, nextVisit?_of_not_node? hi, ih]
    | some n =>
      rw [nextVisit?_of_node? hi, nextVisit?_of_node? hi, ← List.append_assoc]
      rfl

end AnyFlow.Tree
