import AnyFlow.Proofs.Resemblance

namespace AnyFlow

structure Leaf where
  kind : Kind
  role : Role
  value : Json.Value
  location : Location

def Leaf.node (x : Leaf) (id parent : Nat) : Node :=
  ⟨id, some parent, x.kind, some x.role, x.value, [], x.location⟩

namespace Node

def listing (i c : Nat) (n : Node) : Node :=
  if n.id = i then { n with children := n.children ++ [c] } else n

variable {i c c' : Nat} {n : Node}

theorem id_listing : (n.listing i c).id = n.id := by
  rw [listing]
  split <;> rfl

theorem parent_listing : (n.listing i c).parent = n.parent := by
  rw [listing]
  split <;> rfl

theorem kind_listing : (n.listing i c).kind = n.kind := by
  rw [listing]
  split <;> rfl

theorem role_listing : (n.listing i c).role = n.role := by
  rw [listing]
  split <;> rfl

theorem value_listing : (n.listing i c).value = n.value := by
  rw [listing]
  split <;> rfl

theorem location_listing : (n.listing i c).location = n.location := by
  rw [listing]
  split <;> rfl

theorem children_listing :
    (n.listing i c).children = n.children ++ if n.id = i then [c] else [] := by
  rw [listing]
  split
  · rfl
  · exact (List.append_nil _).symm

theorem mem_children_listing :
    c' ∈ (n.listing i c).children ↔ c' ∈ n.children ∨ n.id = i ∧ c' = c := by
  rw [children_listing, List.mem_append]
  split <;> simp [*]

end Node

namespace Tree

def withLeaf (t : Tree) (i : Nat) (x : Leaf) : Tree :=
  let listed := t.nodes.modify i fun n ↦ { n with children := n.children ++ [t.size] }
  { t with nodes := listed.push (x.node t.size i) }

variable {t : Tree} {i j c : Nat} {x : Leaf} {n m : Node} {r : Role} (h : t.WellLinked)

theorem size_withLeaf : (t.withLeaf i x).size = t.size + 1 := by
  rw [withLeaf, size, Array.size_push, Array.size_modify]
  rfl

theorem node?_withLeaf_size : (t.withLeaf i x).node? t.size = some (x.node t.size i) := by
  rw [withLeaf, node?, Array.getElem?_push, Array.size_modify]
  exact if_pos rfl

include h

theorem node?_withLeaf (hj : j ≠ t.size) :
    (t.withLeaf i x).node? j = (t.node? j).map (Node.listing i t.size) := by
  have hne : j ≠ t.nodes.size := hj
  rw [withLeaf, node?, Array.getElem?_push, Array.size_modify, if_neg hne, Array.getElem?_modify,
    ← node?]
  cases hn : t.node? j with
  | none => simp
  | some n =>
    rw [Option.map_some, Option.map_some, Node.listing, h.id_eq hn]
    simp only [eq_comm (a := i)]
    split <;> rfl

theorem node?_withLeaf_of_node? (hn : t.node? j = some n) :
    (t.withLeaf i x).node? j = some (n.listing i t.size) := by
  rw [node?_withLeaf h (lt_size_of_node? hn).ne, hn, Option.map_some]

theorem node?_withLeaf_eq_some (hm : (t.withLeaf i x).node? j = some m) :
    (j = t.size ∧ m = x.node t.size i) ∨ ∃ n, t.node? j = some n ∧ m = n.listing i t.size := by
  by_cases hj : j = t.size
  · rw [hj, node?_withLeaf_size] at hm
    exact .inl ⟨hj, (Option.some.inj hm).symm⟩
  · rw [node?_withLeaf h hj] at hm
    obtain ⟨n, hn, rfl⟩ := Option.map_eq_some_iff.mp hm
    exact .inr ⟨n, hn, rfl⟩

omit h in
theorem childrenOf_leaf : (t.withLeaf i x).childrenOf (x.node t.size i) = [] := rfl

theorem parent_of_mem_withLeaf (hm : (t.withLeaf i x).node? j = some m) (hc : c ∈ m.children) :
    ∃ m', (t.withLeaf i x).node? c = some m' ∧ m'.parent = some j := by
  rcases node?_withLeaf_eq_some h hm with ⟨rfl, rfl⟩ | ⟨n, hn, rfl⟩
  · cases hc
  · rcases Node.mem_children_listing.mp hc with hc | ⟨rfl, rfl⟩
    · obtain ⟨m', hm', hp⟩ := h.parent_of_mem hn hc
      exact ⟨_, node?_withLeaf_of_node? h hm', Node.parent_listing.trans hp⟩
    · exact ⟨_, node?_withLeaf_size, congrArg some (h.id_eq hn)⟩

theorem WellLinked.withLeaf (hi : i < t.size) : (t.withLeaf i x).WellLinked where
  id_eq {j m} hm := by
    rcases node?_withLeaf_eq_some h hm with ⟨rfl, rfl⟩ | ⟨n, hn, rfl⟩
    · rfl
    · rw [Node.id_listing, h.id_eq hn]
  parent_of_mem := parent_of_mem_withLeaf h
  mem_of_parent {j p m} hm hp := by
    rcases node?_withLeaf_eq_some h hm with ⟨rfl, rfl⟩ | ⟨n, hn, rfl⟩
    · cases Option.some.inj hp
      obtain ⟨n, hn⟩ := exists_node?_of_lt hi
      exact ⟨_, node?_withLeaf_of_node? h hn,
        Node.mem_children_listing.mpr (.inr ⟨h.id_eq hn, rfl⟩)⟩
    · rw [Node.parent_listing] at hp
      obtain ⟨m, hm, hc⟩ := h.mem_of_parent hn hp
      exact ⟨_, node?_withLeaf_of_node? h hm, Node.mem_children_listing.mpr (.inl hc)⟩
  nodup_children := by
    refine nodup_allChildren (fun _ _ hm _ ↦ parent_of_mem_withLeaf h hm) fun j m hm ↦ ?_
    rcases node?_withLeaf_eq_some h hm with ⟨rfl, rfl⟩ | ⟨n, hn, rfl⟩
    · exact List.nodup_nil
    · rw [Node.children_listing]
      have hnodup := h.nodup_children_of_node? hn
      split
      · refine List.nodup_append.mpr ⟨hnodup, List.nodup_singleton _, fun c hc c' hc' ↦ ?_⟩
        obtain ⟨k, hk, -⟩ := h.parent_of_mem hn hc
        rw [List.mem_singleton.mp hc']
        exact (lt_size_of_node? hk).ne
      · rwa [List.append_nil]
  root_parent {r} hr := by
    obtain ⟨n, hn, hp⟩ := h.root_parent hr
    exact ⟨_, node?_withLeaf_of_node? h hn, Node.parent_listing.trans hp⟩
  nodup_roots := h.nodup_roots

theorem childrenOf_withLeaf (hn : t.Has n) :
    (t.withLeaf i x).childrenOf (n.listing i t.size) =
      (t.childrenOf n).map (Node.listing i t.size) ++
        if n.id = i then [x.node t.size i] else [] := by
  have hold : n.children.filterMap (t.withLeaf i x).node? =
      (t.childrenOf n).map (Node.listing i t.size) := by
    rw [childrenOf, List.map_filterMap]
    refine List.filterMap_congr fun c hc ↦ ?_
    obtain ⟨m, hm, -⟩ := h.parent_of_mem hn hc
    exact node?_withLeaf h (lt_size_of_node? hm).ne
  rw [childrenOf, Node.children_listing, List.filterMap_append, hold]
  congr 1
  split
  · rw [List.filterMap_cons_some node?_withLeaf_size]
    rfl
  · rfl

theorem children_withLeaf (hn : t.Has n) : (t.withLeaf i x).children n.id =
    (t.children n.id).map (Node.listing i t.size) ++
      if n.id = i then [x.node t.size i] else [] := by
  rw [children, node?_withLeaf_of_node? h hn, hn.children]
  exact childrenOf_withLeaf h hn

theorem childIn?_withLeaf (hn : t.Has n) : (t.withLeaf i x).childIn? n.id r =
    ((t.childIn? n.id r).map (Node.listing i t.size)).or
      (if n.id = i ∧ x.role = r then some (x.node t.size i) else none) := by
  rw [childIn?, children_withLeaf h hn, List.find?_append, List.find?_map, childIn?]
  simp only [Function.comp_def, Node.role_listing]
  congr 1
  by_cases hi : n.id = i
  · by_cases hr : x.role = r <;> simp [hi, hr, Leaf.node]
  · simp [hi]

theorem childrenIn_withLeaf (hn : t.Has n) : (t.withLeaf i x).childrenIn n.id r =
    (t.childrenIn n.id r).map (Node.listing i t.size) ++
      if n.id = i ∧ x.role = r then [x.node t.size i] else [] := by
  rw [childrenIn, children_withLeaf h hn, List.filter_append, List.filter_map, childrenIn]
  simp only [Function.comp_def, Node.role_listing]
  congr 1
  by_cases hi : n.id = i
  · by_cases hr : x.role = r <;> simp [hi, hr, Leaf.node]
  · simp [hi]

theorem parent?_withLeaf (hn : t.Has n) :
    (t.withLeaf i x).parent? n.id = (t.parent? n.id).map (Node.listing i t.size) := by
  rw [parent?, parent?, node?_withLeaf_of_node? h hn, hn, Option.bind_some, Option.bind_some,
    Node.parent_listing]
  cases hp : n.parent with
  | none => rfl
  | some p =>
    obtain ⟨m, hm, -⟩ := h.mem_of_parent hn hp
    exact node?_withLeaf h (lt_size_of_node? hm).ne

theorem flatMap_subtree_withLeaf {α : Type} {f : Node → List α} (hf : f (x.node t.size i) = [])
    (k : Nat) (hn : t.Has n) :
    ((t.withLeaf i x).subtree k (n.listing i t.size)).flatMap f =
      (t.subtree k n).flatMap fun m ↦ f (m.listing i t.size) := by
  induction k generalizing n with
  | zero => rfl
  | succ k ih =>
    have hleaf : ((t.withLeaf i x).subtree k (x.node t.size i)).flatMap f = [] := by
      cases k with
      | zero => exact (List.flatMap_singleton ..).trans hf
      | succ k =>
        rw [subtree, childrenOf_leaf]
        exact (List.flatMap_singleton ..).trans hf
    have hnew : ((if n.id = i then [x.node t.size i] else []).flatMap
        ((t.withLeaf i x).subtree k)).flatMap f = [] := by
      split
      · rw [List.flatMap_singleton, hleaf]
      · rfl
    have hold : (((t.childrenOf n).map (Node.listing i t.size)).flatMap
        ((t.withLeaf i x).subtree k)).flatMap f =
          ((t.childrenOf n).flatMap (t.subtree k)).flatMap fun m ↦ f (m.listing i t.size) := by
      rw [List.flatMap_map, List.flatMap_assoc, List.flatMap_assoc]
      exact List.flatMap_congr fun c hc ↦ ih (h.child hn hc).1
    rw [subtree, subtree, List.flatMap_cons, List.flatMap_cons, childrenOf_withLeaf h hn,
      List.flatMap_append, List.flatMap_append, hold, hnew, List.append_nil]

theorem topNodes_withLeaf : (t.withLeaf i x).topNodes = t.topNodes.map (Node.listing i t.size) := by
  rw [topNodes, topNodes, List.map_filterMap]
  refine List.filterMap_congr fun r hr ↦ ?_
  obtain ⟨n, hn, -⟩ := h.root_parent hr
  exact node?_withLeaf h (lt_size_of_node? hn).ne

/-- Where nothing comes of the leaf, the walk over the tree with it yields the same. -/
theorem flatMap_preorder_withLeaf {α : Type} {f : Node → List α} (hi : i < t.size)
    (hf : f (x.node t.size i) = []) :
    (t.withLeaf i x).preorder.flatMap f = t.preorder.flatMap fun n ↦ f (n.listing i t.size) := by
  rw [preorder_eq (h.withLeaf hi), preorder_eq h, List.flatMap_assoc, List.flatMap_assoc,
    topNodes_withLeaf h, List.flatMap_map]
  refine List.flatMap_congr fun r hr ↦ ?_
  rw [flatMap_subtree_withLeaf h hf _ (h.top hr).1, size_withLeaf,
    subtree_succ_of_short (shallow_of_mem_topNodes h hr)]

/-- The rules see no leaf in the role of a type annotation, unless they ask for one. -/
theorem resembles_withLeaf (hx : x.role = .typeAscription) :
    t.Resembles (t.withLeaf i x) (Node.listing i t.size) where
  kind_eq _ := Node.kind_listing
  role_eq _ := Node.role_listing
  value_eq _ := Node.value_listing
  injective _ _ he := by rwa [Node.id_listing, Node.id_listing] at he
  parent?_map hn := by
    rw [Node.id_listing]
    exact parent?_withLeaf h (has_of_mem_preorder h hn)
  childIn?_map {n r} hn hr := by
    have hne : ¬(n.id = i ∧ x.role = r) := fun he ↦ hr (he.2.symm.trans hx)
    rw [Node.id_listing, childIn?_withLeaf h (has_of_mem_preorder h hn), if_neg hne,
      Option.or_none]
  childrenIn_map {n r} hn hr := by
    have hne : ¬(n.id = i ∧ x.role = r) := fun he ↦ hr (he.2.symm.trans hx)
    rw [Node.id_listing, childrenIn_withLeaf h (has_of_mem_preorder h hn), if_neg hne,
      List.append_nil]

end Tree

end AnyFlow
