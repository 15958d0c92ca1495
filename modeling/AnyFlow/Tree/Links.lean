import AnyFlow.Tree.Basic

namespace AnyFlow

inductive LinkError
  | misplaced (position id : Nat)
  | missingChild (node child : Nat)
  | foreignChild (node child : Nat) (parent : Option Nat)
  | repeatedChild (child : Nat)
  | missingRoot (root : Nat)
  | rootWithParent (root : Nat)
  | repeatedRoot (root : Nat)
  | unlistedChild (node : Nat)
deriving DecidableEq

namespace LinkError

def parentText : Option Nat → String
  | none => "None"
  | some p => "Some(" ++ p.repr ++ ")"

def message : LinkError → String
  | .misplaced position id => "node at position " ++ position.repr ++ " has id " ++ id.repr
  | .missingChild node child => "node " ++ node.repr ++ " references missing child " ++ child.repr
  | .foreignChild node child parent =>
    "child " ++ child.repr ++ " of node " ++ node.repr ++ " points to parent " ++ parentText parent
  | .repeatedChild child => "node " ++ child.repr ++ " is listed as a child more than once"
  | .missingRoot root => "missing root node " ++ root.repr
  | .rootWithParent root => "root " ++ root.repr ++ " has a parent"
  | .repeatedRoot root => "root " ++ root.repr ++ " is listed more than once"
  | .unlistedChild node => "node " ++ node.repr ++ " is not listed among its parent's children"

end LinkError

structure Slots (α : Type) (size : Nat) where
  places : Vector (Option α) size

namespace Slots

variable {α : Type} {size : Nat}

def empty : Slots α size := ⟨.replicate size none⟩

def look? (s : Slots α size) (i : Nat) : Option (Option α) := s.places[i]?

def fill? (s : Slots α size) (i : Nat) (a : α) : Option (Option α × Slots α size) :=
  if h : i < size then some (s.places[i], ⟨s.places.set i (some a) h⟩) else none

end Slots

/-- The outcome of a check: `none` means that a place past the end of a table was used. -/
abbrev Check (α : Type) := Option (Except LinkError α)

def Check.andThen {α β : Type} (f : α → Check β) : Check α → Check β
  | some (.ok a) => f a
  | some (.error e) => some (.error e)
  | none => none

namespace Tree

def allChildren (t : Tree) : List Nat := t.nodes.toList.flatMap (·.children)

/-- Every id is its position, and `p` is the parent of `c` exactly when `c` stands among the
children of `p`, and then once. The listed roots exist, have no parent and differ. -/
structure WellLinked (t : Tree) : Prop where
  id_eq {i : Nat} {n : Node} (hn : t.node? i = some n) : n.id = i
  parent_of_mem {i c : Nat} {n : Node} (hn : t.node? i = some n) (hc : c ∈ n.children) :
    ∃ m, t.node? c = some m ∧ m.parent = some i
  mem_of_parent {i p : Nat} {n : Node} (hn : t.node? i = some n) (hp : n.parent = some p) :
    ∃ m, t.node? p = some m ∧ i ∈ m.children
  nodup_children : t.allChildren.Nodup
  root_parent {r : Nat} (hr : r ∈ t.roots) : ∃ n, t.node? r = some n ∧ n.parent = none
  nodup_roots : t.roots.Nodup

/-- Checks the remaining children of one node. The owner of a child is the node that lists it. -/
def checkChildren (t : Tree) (node : Nat) :
    List Nat → Slots Nat t.size → Check (Slots Nat t.size)
  | [], owners => some (.ok owners)
  | c :: cs, owners => match t.node? c with
    | none => some (.error (.missingChild node c))
    | some n =>
      if n.parent ≠ some node then some (.error (.foreignChild node c n.parent))
      else match owners.fill? c node with
        | none => none
        | some (some _, _) => some (.error (.repeatedChild c))
        | some (none, owners) => checkChildren t node cs owners

def checkNodes (t : Tree) : Nat → List Node → Slots Nat t.size → Check (Slots Nat t.size)
  | _, [], owners => some (.ok owners)
  | i, n :: ns, owners =>
    if n.id ≠ i then some (.error (.misplaced i n.id))
    else (t.checkChildren i n.children owners).andThen (checkNodes t (i + 1) ns)

def checkRoots (t : Tree) : List Nat → Slots Unit t.size → Check Unit
  | [], _ => some (.ok ())
  | r :: rs, listed => match t.node? r with
    | none => some (.error (.missingRoot r))
    | some n =>
      if n.parent.isSome then some (.error (.rootWithParent r))
      else match listed.fill? r () with
        | none => none
        | some (some _, _) => some (.error (.repeatedRoot r))
        | some (none, listed) => checkRoots t rs listed

def checkOwned {size : Nat} (owners : Slots Nat size) : Nat → List Node → Check Unit
  | _, [] => some (.ok ())
  | i, n :: ns =>
    if n.parent.isNone then checkOwned owners (i + 1) ns
    else match owners.look? i with
      | none => none
      | some none => some (.error (.unlistedChild i))
      | some (some _) => checkOwned owners (i + 1) ns

def tabledCheck (t : Tree) : Check Unit :=
  (t.checkNodes 0 t.nodes.toList .empty).andThen fun owners ↦
    (t.checkRoots t.roots .empty).andThen fun _ ↦ checkOwned owners 0 t.nodes.toList

variable {t : Tree}

theorem lt_size_of_node? {i : Nat} {n : Node} (h : t.node? i = some n) : i < t.size :=
  (Array.getElem?_eq_some_iff.mp h).1

theorem checkChildren_ne_none {node : Nat} {cs : List Nat} {owners : Slots Nat t.size} :
    t.checkChildren node cs owners ≠ none := by
  fun_induction checkChildren t node cs owners with
  | case4 c cs owners n hn hp hf => simp [Slots.fill?, lt_size_of_node? hn] at hf
  | case6 c cs owners n hn hp owners' hf ih => exact ih
  | _ => simp

theorem checkNodes_ne_none {i : Nat} {ns : List Node} {owners : Slots Nat t.size} :
    t.checkNodes i ns owners ≠ none := by
  induction ns generalizing i owners with
  | nil => simp [checkNodes]
  | cons n ns ih =>
    rw [checkNodes]
    split
    · simp
    · match hc : t.checkChildren i n.children owners with
      | none => exact absurd hc checkChildren_ne_none
      | some (.error e) => simp [Check.andThen]
      | some (.ok owners') => exact ih

theorem checkRoots_ne_none {rs : List Nat} {listed : Slots Unit t.size} :
    t.checkRoots rs listed ≠ none := by
  fun_induction checkRoots t rs listed with
  | case4 r rs listed n hn hp hf => simp [Slots.fill?, lt_size_of_node? hn] at hf
  | case6 r rs listed n hn hp listed' hf ih => exact ih
  | _ => simp

theorem checkOwned_ne_none {size i : Nat} {owners : Slots Nat size} {ns : List Node}
    (h : i + ns.length ≤ size) : checkOwned owners i ns ≠ none := by
  fun_induction checkOwned owners i ns with
  | case1 => simp
  | case2 i n ns hp ih => exact ih (by simp only [List.length_cons] at h; omega)
  | case3 i n ns hp hl =>
    simp only [List.length_cons] at h
    simp [Slots.look?] at hl
    omega
  | case4 => simp
  | case5 i n ns hp a hl ih => exact ih (by simp only [List.length_cons] at h; omega)

/-- No pass uses a place past the end of its table. -/
theorem isSome_tabledCheck (t : Tree) : t.tabledCheck.isSome := by
  rw [Option.isSome_iff_ne_none, tabledCheck]
  match hn : t.checkNodes 0 t.nodes.toList .empty with
  | none => exact absurd hn checkNodes_ne_none
  | some (.error e) => simp [Check.andThen]
  | some (.ok owners) =>
    match hr : t.checkRoots t.roots .empty with
    | none => exact absurd hr checkRoots_ne_none
    | some (.error e) => simp [Check.andThen]
    | some (.ok ()) =>
      simpa [Check.andThen, hr] using checkOwned_ne_none (by simp [size])

def checkLinks (t : Tree) : Except LinkError Unit := t.tabledCheck.get t.isSome_tabledCheck

end Tree

end AnyFlow
