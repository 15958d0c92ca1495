import AnyFlow.Proofs.Bounds

namespace AnyFlow.Tree

variable {t : Tree} {n : Node} {ids : List Nat}

theorem walkYields_iff_of_wellLinked (h : t.WellLinked) {ns : List Node} :
    t.WalkYields ns ↔ ns = t.preorder := by
  rw [walkYields_iff, and_iff_right]
  exact fun x hx ↦ shallow_of_mem_topNodes h hx

theorem exists_atLevel_of_reachable (h : t.WellLinked) {i : Nat} (hi : t.Reachable i) :
    ∃ n k, t.node? i = some n ∧ t.AtLevel k n := by
  induction hi with
  | root hr =>
    obtain ⟨n, hn, -⟩ := h.root_parent hr
    exact ⟨n, 0, hn, n, List.mem_filterMap.mpr ⟨_, hr, hn⟩, .refl⟩
  | child hp hn hc ih =>
    obtain ⟨p, k, hpn, hk⟩ := ih
    cases Option.some.inj (hn.symm.trans hpn)
    obtain ⟨c, hcn, -⟩ := h.parent_of_mem hn hc
    exact ⟨c, k + 1, hcn, hk.child (mem_childrenOf.mpr ⟨_, hc, hcn⟩)⟩

theorem AtLevel.reachable (h : t.WellLinked) {k : Nat} (hn : t.AtLevel k n) :
    t.Reachable n.id := by
  induction k generalizing n with
  | zero =>
    obtain ⟨r, hr, hb⟩ := hn
    cases hb
    obtain ⟨i, hi, hin⟩ := List.mem_filterMap.mp hr
    rw [h.id_eq hin]
    exact .root hi
  | succ k ih =>
    obtain ⟨p, hp, hc⟩ := hn.parent
    obtain ⟨i, hi, hin⟩ := mem_childrenOf.mp hc
    rw [h.id_eq hin]
    exact .child (ih hp) (hp.has h) hi

theorem mem_map_preorder_iff (h : t.WellLinked) {i : Nat} :
    i ∈ t.preorder.map Node.id ↔ t.Reachable i := by
  rw [List.mem_map]
  constructor
  · intro hi
    obtain ⟨n, hn, rfl⟩ := hi
    obtain ⟨k, hk⟩ := (mem_preorder h).mp hn
    exact hk.reachable h
  · intro hi
    obtain ⟨n, k, hn, hk⟩ := exists_atLevel_of_reachable h hi
    exact ⟨n, (mem_preorder h).mpr ⟨k, hk⟩, h.id_eq hn⟩

theorem nodup_map_preorder (h : t.WellLinked) : (t.preorder.map Node.id).Nodup := by
  refine (nodup_preorder h).map_on fun x hx y hy he ↦ ?_
  exact (has_of_mem_preorder h hx).eq_of_id (has_of_mem_preorder h hy) he

theorem filterMap_id_preorder (h : t.WellLinked) :
    (t.preorder.map Node.id).filterMap t.node? = t.preorder := by
  have hself (n : Node) (hn : n ∈ t.preorder) : (t.node? ∘ Node.id) n = some n :=
    has_of_mem_preorder h hn
  rw [List.filterMap_map, List.filterMap_congr hself, List.filterMap_some]

theorem length_preorder_le (h : t.WellLinked) : t.preorder.length ≤ t.size := by
  have hsub : t.preorder.map Node.id ⊆ List.range t.size := by
    intro i hi
    obtain ⟨n, hn, rfl⟩ := List.mem_map.mp hi
    exact List.mem_range.mpr (lt_size_of_node? (has_of_mem_preorder h hn))
  have hle := (List.subperm_of_subset (nodup_map_preorder h) hsub).length_le
  rwa [List.length_map, List.length_range] at hle

def VisitedBefore (t : Tree) (x y : Node) : Prop :=
  ∃ i j : Nat, i < j ∧ t.preorder[i]? = some x ∧ t.preorder[j]? = some y

theorem subtree_infix_of_child (h : t.WellLinked) {k : Nat} {p c : Node} (hp : t.AtLevel k p)
    (hc : c ∈ t.childrenOf p) : t.subtree t.size c <:+: t.subtree t.size p := by
  rw [subtree_size h hp, List.flatMap_def]
  have hmem := List.mem_map_of_mem (f := t.subtree t.size) hc
  exact (List.infix_of_mem_flatten hmem).trans (List.suffix_cons _ _).isInfix

/-- What lies below a visited node is visited without a break. -/
theorem subtree_infix_preorder (h : t.WellLinked) {k : Nat} (hn : t.AtLevel k n) :
    t.subtree t.size n <:+: t.preorder := by
  obtain ⟨r, hr, hb⟩ := hn
  induction hb with
  | refl =>
    rw [preorder_eq h, List.flatMap_def]
    exact List.infix_of_mem_flatten (List.mem_map_of_mem hr)
  | child hp hc ih => exact (subtree_infix_of_child h ⟨r, hr, hp⟩ hc).trans ih

theorem AtLevel.mem_subtree (h : t.WellLinked) {j k : Nat} {x y : Node} (hx : t.AtLevel k x)
    (hy : Below t.childrenOf x j y) : y ∈ t.subtree t.size x := by
  have := (hx.below hy).lt_size h
  exact Tree.mem_subtree.mpr ⟨j, by omega, hy⟩

theorem visitedBefore_below (h : t.WellLinked) {j k : Nat} {x y : Node} (hx : t.AtLevel k x)
    (hy : Below t.childrenOf x (j + 1) y) : t.VisitedBefore x y := by
  obtain ⟨u, v, he⟩ := subtree_infix_preorder h hx
  rw [subtree_size h hx] at he
  have hmem : y ∈ (t.childrenOf x).flatMap (t.subtree t.size) := by
    obtain ⟨c, hc, hb⟩ := hy.exists_head
    exact List.mem_flatMap.mpr ⟨c, hc, (hx.child hc).mem_subtree h hb⟩
  obtain ⟨i, hi⟩ := List.mem_iff_getElem?.mp hmem
  have hlt := (List.getElem?_eq_some_iff.mp hi).1
  refine ⟨u.length, u.length + (i + 1), by omega, ?_, ?_⟩
  · rw [← he]
    simp
  · rw [← he, List.append_assoc, List.getElem?_append_right (by omega), Nat.add_sub_cancel_left,
      List.cons_append, List.getElem?_cons_succ, List.getElem?_append_left hlt]
    exact hi

theorem visitedBefore_child (h : t.WellLinked) {k : Nat} {p c : Node} (hp : t.AtLevel k p)
    (hc : c ∈ t.childrenOf p) : t.VisitedBefore p c := visitedBefore_below h hp (.child .refl hc)

theorem WellLinked.map_id_filterMap (h : t.WellLinked)
    (hids : ∀ i ∈ ids, ∃ n, t.node? i = some n) :
    (ids.filterMap t.node?).map Node.id = ids := by
  induction ids with
  | nil => rfl
  | cons i ids ih =>
    obtain ⟨n, hn⟩ := hids i List.mem_cons_self
    have hlater := ih fun j hj ↦ hids j (List.mem_cons_of_mem i hj)
    rw [List.filterMap_cons_some hn, List.map_cons, h.id_eq hn, hlater]

/-- The walk with a stack over an accepted tree ends after at most as many visits as there are
nodes, none of them made twice. It visits exactly what can be reached, in the order of the
recursive walk, although the check also accepts trees with rings. -/
theorem walk_exact {t : Tree} (h : t.checkLinks = .ok ()) :
    (∀ ns, t.WalkYields ns ↔ ns = t.preorder) ∧
    t.preorder.length ≤ t.size ∧
    (t.preorder.map Node.id).Nodup ∧
    (∀ n ∈ t.preorder, t.node? n.id = some n) ∧
    (∀ i, i ∈ t.preorder.map Node.id ↔ t.Reachable i) ∧
    (t.topNodes.map Node.id = t.roots ∧ t.preorder = t.topNodes.flatMap (t.subtree t.size)) ∧
    (∀ n ∈ t.preorder, (t.childrenOf n).map Node.id = n.children ∧
      t.subtree t.size n = n :: (t.childrenOf n).flatMap (t.subtree t.size)) ∧
    ∃ t' : Tree, t'.checkLinks = .ok () ∧ ∃ n, OnRing t'.childrenOf n := by
  have hw := checkLinks_eq_ok_iff.mp h
  have hroots : t.topNodes.map Node.id = t.roots := by
    refine hw.map_id_filterMap fun i hi ↦ ?_
    obtain ⟨n, hn, -⟩ := hw.root_parent hi
    exact ⟨n, hn⟩
  refine ⟨fun ns ↦ walkYields_iff_of_wellLinked hw, length_preorder_le hw, nodup_map_preorder hw,
    fun n hn ↦ has_of_mem_preorder hw hn, fun i ↦ mem_map_preorder_iff hw,
    ⟨hroots, preorder_eq hw⟩, fun n hn ↦ ?_,
    ringSample, checkLinks_ringSample, _, onRing_ringSample⟩
  obtain ⟨k, hk⟩ := (mem_preorder hw).mp hn
  refine ⟨hw.map_id_filterMap fun i hi ↦ ?_, subtree_size hw hk⟩
  obtain ⟨c, hc, -⟩ := hw.parent_of_mem (hk.has hw) hi
  exact ⟨c, hc⟩

theorem walk_exact_beside_ring : ringSample.checkLinks = .ok () ∧
    OnRing ringSample.childrenOf ringSample.nodes[5]! ∧
    ringSample.WalkYields ringSample.preorder ∧
    ringSample.preorder.map Node.id = [0, 1, 2, 3, 4] := by
  have hwalk := (walk_exact checkLinks_ringSample).1
  exact ⟨checkLinks_ringSample, onRing_ringSample, (hwalk _).mpr rfl, by decide⟩

end AnyFlow.Tree
