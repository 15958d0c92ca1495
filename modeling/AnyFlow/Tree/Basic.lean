import AnyFlow.Tree.Node

namespace AnyFlow

/-- The nodes refer to each other by their positions in the array. -/
structure Tree where
  file : String
  roots : List Nat
  nodes : Array Node
deriving Inhabited

namespace Tree

def size (t : Tree) : Nat := t.nodes.size

def isEmpty (t : Tree) : Bool := t.nodes.isEmpty

def node? (t : Tree) (id : Nat) : Option Node := t.nodes[id]?

def parent? (t : Tree) (id : Nat) : Option Node :=
  (t.node? id).bind fun n ↦ n.parent.bind t.node?

/-- The children of a node that exist, in their order. -/
def childrenOf (t : Tree) (n : Node) : List Node := n.children.filterMap t.node?

def children (t : Tree) (id : Nat) : List Node :=
  match t.node? id with
  | some n => t.childrenOf n
  | none => []

def childrenIn (t : Tree) (id : Nat) (r : Role) : List Node :=
  (t.children id).filter (·.role == some r)

def childIn? (t : Tree) (id : Nat) (r : Role) : Option Node :=
  (t.children id).find? (·.role == some r)

variable {t : Tree} {n c : Node} {id k : Nat} {r : Role}

theorem children_of_node? (h : t.node? id = some n) : t.children id = t.childrenOf n := by
  rw [children, h]

theorem mem_childrenOf : c ∈ t.childrenOf n ↔ ∃ i ∈ n.children, t.node? i = some c :=
  List.mem_filterMap

theorem getElem?_childrenOf (h : ∀ i ∈ n.children, (t.node? i).isSome) :
    (t.childrenOf n)[k]? = n.children[k]?.bind t.node? := by
  rw [childrenOf]
  generalize n.children = is at h
  induction is generalizing k with
  | nil => rfl
  | cons i is ih =>
    obtain ⟨hi, his⟩ := List.forall_mem_cons.mp h
    obtain ⟨c, hc⟩ := Option.isSome_iff_exists.mp hi
    rw [List.filterMap_cons_some hc]
    cases k with
    | zero => exact hc.symm
    | succ k => exact ih his

theorem mem_childrenIn : c ∈ t.childrenIn id r ↔ c ∈ t.children id ∧ c.role = some r := by
  rw [childrenIn, List.mem_filter, beq_iff_eq]

/-- Before the child at the place `k` of a role stand `k` others of the role. -/
theorem getElem?_childrenIn : (t.childrenIn id r)[k]? = some c ↔
    c.role = some r ∧ ∃ before after, t.children id = before ++ c :: after ∧
      before.countP (·.role == some r) = k := by
  rw [childrenIn]
  constructor
  · intro h
    obtain ⟨hk, hc⟩ := List.getElem?_eq_some_iff.mp h
    have hsplit := List.take_append_drop k ((t.children id).filter (·.role == some r))
    rw [← List.getElem_cons_drop hk, hc, eq_comm, List.filter_eq_append_iff] at hsplit
    obtain ⟨left, right, he, hleft, hright⟩ := hsplit
    obtain ⟨skipped, after, rfl, hskipped, hrole, -⟩ := List.filter_eq_cons_iff.mp hright
    refine ⟨beq_iff_eq.mp hrole, left ++ skipped, after, by rw [he, List.append_assoc], ?_⟩
    rw [List.countP_append, List.countP_eq_zero.mpr hskipped, List.countP_eq_length_filter, hleft,
      List.length_take_of_le (Nat.le_of_lt hk)]
    rfl
  · rintro ⟨hrole, before, after, he, rfl⟩
    rw [he, List.filter_append, List.filter_cons, if_pos (beq_iff_eq.mpr hrole),
      List.countP_eq_length_filter, List.getElem?_append_right (Nat.le_refl _), Nat.sub_self]
    rfl

theorem childIn?_eq_some_iff : t.childIn? id r = some c ↔ c.role = some r ∧
    ∃ before after, t.children id = before ++ c :: after ∧ ∀ b ∈ before, b.role ≠ some r := by
  simp [childIn?, List.find?_eq_some_iff_append]

theorem childIn?_eq_none_iff : t.childIn? id r = none ↔ ∀ c ∈ t.children id, c.role ≠ some r := by
  simp [childIn?]

theorem head?_childrenIn : (t.childrenIn id r).head? = t.childIn? id r := List.head?_filter

end Tree

end AnyFlow
