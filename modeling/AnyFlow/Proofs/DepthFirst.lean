import AnyFlow.Proofs.Ancestry
import AnyFlow.Proofs.Building

namespace AnyFlow

namespace Tree

variable {t t' : Tree} {q : Option Nat} {b c i k p : Nat} {n r x : Node}

def path (t : Tree) (i : Nat) : List Nat := i :: (t.ancestors i).map Node.id

/-- Each child hangs below the node before it or below an ancestor of that node. -/
def DepthFirst (t : Tree) : Prop := ∀ c p, t.parentOf c = some p → p ∈ t.path (c - 1)

theorem node?_of_parentOf (hp : t.parentOf c = some p) :
    ∃ n, t.node? c = some n ∧ n.parent = some p := by
  obtain ⟨l, hl, hlp⟩ := Option.bind_eq_some_iff.mp hp
  obtain ⟨n, hn, rfl⟩ := exists_node?_of_links? hl
  exact ⟨n, hn, hlp⟩

theorem pairwise_offspring : (t.offspring q).Pairwise (· < ·) :=
  List.pairwise_lt_range.filter _

theorem exists_split_of_lt {l : List Node} (hl : (l.map Node.id).Pairwise (· < ·)) (hr : r ∈ l)
    (hx : x ∈ l) (hlt : r.id < x.id) : ∃ xs ys, l = xs ++ x :: ys ∧ r ∈ xs := by
  obtain ⟨xs, ys, rfl⟩ := List.append_of_mem hx
  refine ⟨xs, ys, rfl, (List.mem_append.mp hr).resolve_right fun hy ↦ ?_⟩
  rw [List.map_append, List.pairwise_append, List.map_cons, List.pairwise_cons] at hl
  rcases List.mem_cons.mp hy with rfl | hy
  · exact Nat.lt_irrefl _ hlt
  · exact Nat.lt_asymm hlt (hl.2.1.1 r.id (List.mem_map_of_mem hy))

namespace Grown

theorem has_parent (h : t.Grown) (hn : t.node? c = some n) (hp : n.parent = some p) :
    ∃ m, t.node? p = some m ∧ n ∈ t.childrenOf m := by
  obtain ⟨m, hm, hc⟩ := h.wellLinked.mem_of_parent hn hp
  exact ⟨m, hm, mem_childrenOf.mpr ⟨c, hc, hn⟩⟩

theorem atLevel (h : t.Grown) (hn : t.node? i = some n) : ∃ k, t.AtLevel k n :=
  (Tree.mem_preorder h.wellLinked).mp (h.mem_preorder (h.wellLinked.has hn))

theorem path_eq (h : t.Grown) (hi : i < t.size) :
    t.path i = i :: (t.parentOf i).elim [] t.path := by
  obtain ⟨has, -⟩ := h.ascent_ancestors hi
  obtain ⟨n, hn⟩ := exists_node?_of_lt hi
  have hup : t.parent? i = n.parent.bind t.node? := by rw [parent?, hn, Option.bind_some]
  rw [parentOf_of_node? hn]
  cases hp : n.parent with
  | none =>
    rw [hp, Option.bind_none] at hup
    have hnil : t.AscentYields i [] := Loop.yields_follow_nil_iff.mpr hup
    rw [path, hnil.ancestors_eq]
    rfl
  | some p =>
    obtain ⟨m, hm, -⟩ := h.has_parent hn hp
    have hmp := h.wellLinked.id_eq hm
    rw [hp, Option.bind_some, hm] at hup
    have hpt := lt_size_of_node? hm
    obtain ⟨hlater, -⟩ := h.ascent_ancestors hpt
    have hall : t.AscentYields i (m :: t.ancestors p) :=
      Loop.yields_follow_cons_iff.mpr ⟨hup, hmp.symm ▸ hlater⟩
    rw [path, hall.ancestors_eq, List.map_cons, hmp]
    rfl

theorem path_congr (h : t.Grown) (h' : t'.Grown) (hb : b ≤ t.size) (hb' : b ≤ t'.size)
    (hpar : ∀ i < b, t'.parentOf i = t.parentOf i) (hi : i < b) : t'.path i = t.path i := by
  induction i using Nat.strong_induction_on with
  | _ i ih =>
    rw [h.path_eq (hi.trans_le hb), h'.path_eq (hi.trans_le hb'), hpar i hi]
    cases hp : t.parentOf i with
    | none => rfl
    | some p =>
      have hlt := h.parent_lt hp
      exact congrArg (i :: ·) (ih p hlt (hlt.trans hi))

theorem mem_path_iff (h : t.Grown) {m : Node} (hn : t.node? i = some n) (hm : t.node? p = some m) :
    p ∈ t.path i ↔ ∃ j, Below t.childrenOf m j n := by
  have hw := h.wellLinked
  have hni := hw.id_eq hn
  obtain ⟨k, hk⟩ := h.atLevel hn
  have hhas : ∀ a, a = n ∨ a ∈ t.ancestors i → t.Has a := by
    intro a ha
    rw [← hni] at ha
    exact ((hk.eq_or_mem_ancestors_iff hw).mp ha).1
  have hmem : p ∈ t.path i ↔ m = n ∨ m ∈ t.ancestors i := by
    rw [path, ← hw.id_eq hm, ← hni, ← List.map_cons, List.mem_map, hni]
    constructor
    · intro hx
      obtain ⟨a, ha, he⟩ := hx
      rw [List.mem_cons] at ha
      cases (hhas a ha).eq_of_id (hw.has hm) he
      exact ha
    · intro hx
      exact ⟨m, List.mem_cons.mpr hx, rfl⟩
  rw [hmem, ← hni, hk.eq_or_mem_ancestors_iff hw]
  exact and_iff_right (hw.has hm)

theorem id_childrenOf (h : t.Grown) (hn : t.node? p = some n) :
    (t.childrenOf n).map Node.id = t.offspring (some p) := by
  rw [← h.children hn]
  refine h.wellLinked.map_id_filterMap fun i hi ↦ ?_
  obtain ⟨c, hc, -⟩ := h.wellLinked.parent_of_mem hn hi
  exact ⟨c, hc⟩

theorem id_topNodes (h : t.Grown) : t.topNodes.map Node.id = t.offspring none := by
  rw [← h.roots_eq]
  refine h.wellLinked.map_id_filterMap fun i hi ↦ ?_
  obtain ⟨c, hc, -⟩ := h.wellLinked.root_parent hi
  exact ⟨c, hc⟩

/-- What lies below an earlier root is visited before a root. -/
theorem place_lt_root (h : t.Grown) (hc : t.node? c = some x) (hp : x.parent = none) {m : Node}
    (hm : t.node? i = some m) (hlt : i < c) : t.place i < t.place c := by
  have hw := h.wellLinked
  have hic := hw.id_eq hc
  have him := hw.id_eq hm
  obtain ⟨k, hk⟩ := h.atLevel hm
  obtain ⟨r, hr, hb⟩ := hk
  have hrt : t.AtLevel 0 r := ⟨r, hr, .refl⟩
  have hri := h.id_add_le_of_below (hrt.has hw) hb
  have hx : x ∈ t.topNodes := by
    refine List.mem_filterMap.mpr ⟨c, ?_, hc⟩
    rw [h.roots_eq]
    exact mem_offspring.mpr ⟨lt_size_of_node? hc, (parentOf_of_node? hc).trans hp⟩
  have hsorted : (t.topNodes.map Node.id).Pairwise (· < ·) := h.id_topNodes ▸ pairwise_offspring
  obtain ⟨xs, ys, hsplit, hrx⟩ := exists_split_of_lt hsorted hr hx (by omega)
  have he := preorder_eq hw
  rw [hsplit, List.flatMap_append] at he
  rw [← hic, ← him]
  refine place_lt_of_append hw he (List.mem_flatMap.mpr ⟨r, hrx, hrt.mem_subtree hw hb⟩) ?_
  have hxt : t.AtLevel 0 x := ⟨x, hx, .refl⟩
  exact List.mem_flatMap.mpr ⟨x, List.mem_cons_self, hxt.mem_subtree hw .refl⟩

/-- What lies at the parent or below an earlier child of the parent is visited before a child. -/
theorem place_lt_child (h : t.Grown) (hc : t.node? c = some x) (hp : x.parent = some p) {m : Node}
    (hm : t.node? i = some m) (hlt : i < c) (hi : p ∈ t.path i) : t.place i < t.place c := by
  have hw := h.wellLinked
  have hic := hw.id_eq hc
  have him := hw.id_eq hm
  obtain ⟨q, hq, hxq⟩ := h.has_parent hc hp
  obtain ⟨k, hk⟩ := h.atLevel hq
  obtain ⟨j, hb⟩ := (h.mem_path_iff hm hq).mp hi
  rw [← hic, ← him]
  have hsorted : ((t.childrenOf q).map Node.id).Pairwise (· < ·) :=
    h.id_childrenOf hq ▸ pairwise_offspring
  cases j with
  | zero =>
    cases hb
    obtain ⟨xs, ys, hsplit⟩ := List.append_of_mem hxq
    obtain ⟨u, v, he⟩ := exists_preorder_split hw hk hsplit
    rw [List.append_cons] at he
    exact place_lt_of_append hw he (by simp) (by simp)
  | succ j =>
    obtain ⟨y, hy, hby⟩ := hb.exists_head
    have hyi := h.id_add_le_of_below (hw.child (hk.has hw) hy).1 hby
    obtain ⟨xs, ys, hsplit, hyx⟩ := exists_split_of_lt hsorted hy hxq (by omega)
    exact (place_of_below_earlier hw hk hsplit hyx hby).2

theorem place_lt_of_depthFirst (h : t.Grown) (hd : t.DepthFirst) (hc : c + 1 < t.size) :
    t.place c < t.place (c + 1) := by
  obtain ⟨m, hm⟩ := exists_node?_of_lt (Nat.lt_of_succ_lt hc)
  obtain ⟨x, hx⟩ := exists_node?_of_lt hc
  cases hp : x.parent with
  | none => exact h.place_lt_root hx hp hm (Nat.lt_succ_self c)
  | some p =>
    have hmem := hd (c + 1) p ((parentOf_of_node? hx).trans hp)
    exact h.place_lt_child hx hp hm (Nat.lt_succ_self c) hmem

theorem place_lt (h : t.Grown) (hd : t.DepthFirst) (hic : i < c) (hc : c < t.size) :
    t.place i < t.place c := by
  induction c, hic using Nat.le_induction with
  | base => exact h.place_lt_of_depthFirst hd hc
  | succ c hic ih => exact (ih (Nat.lt_of_succ_lt hc)).trans (h.place_lt_of_depthFirst hd hc)

theorem preorder_of_depthFirst (h : t.Grown) (hd : t.DepthFirst) :
    t.preorder.map Node.id = List.range t.size := by
  refine h.perm_preorder.eq_of_pairwise (fun a b _ _ hab hba ↦ absurd hab (Nat.lt_asymm hba)) ?_
    List.pairwise_lt_range
  rw [List.pairwise_iff_getElem]
  intro i j hi hj hij
  have hlt : (t.preorder.map Node.id)[i] < t.size :=
    List.mem_range.mp (h.perm_preorder.subset (List.getElem_mem hi))
  rw [List.getElem_map] at hlt ⊢
  rw [List.getElem_map]
  have hpi := place_getElem h.wellLinked (List.length_map Node.id ▸ hi)
  have hpj := place_getElem h.wellLinked (List.length_map Node.id ▸ hj)
  -- a smaller id at the later visit would have been visited before
  refine Nat.lt_of_not_le fun hle ↦ ?_
  rcases Nat.lt_or_eq_of_le hle with hji | hji
  · have := h.place_lt hd hji hlt
    omega
  · rw [hji] at hpj
    omega

theorem id_of_preorder_eq (he : t.preorder.map Node.id = List.range t.size)
    (hn : t.preorder[i]? = some n) : n.id = i := by
  have hi : (List.range t.size)[i]? = some n.id := by
    rw [← he, List.getElem?_map, hn, Option.map_some]
  obtain ⟨hlt, hget⟩ := List.getElem?_eq_some_iff.mp hi
  rw [← hget, List.getElem_range]

theorem depthFirst_of_preorder (h : t.Grown) (he : t.preorder.map Node.id = List.range t.size) :
    t.DepthFirst := by
  intro c p hp
  have hw := h.wellLinked
  have hpc := h.parent_lt hp
  obtain ⟨x, hx, hxp⟩ := node?_of_parentOf hp
  obtain ⟨q, hq, hxq⟩ := h.has_parent hx hxp
  obtain ⟨k, hk⟩ := h.atLevel hq
  obtain ⟨hhead, hblock⟩ := hk.block_eq hw
  have hqp : t.place q.id = p := (id_of_preorder_eq he hhead).symm.trans (hw.id_eq hq)
  have hvisit (j : Nat) (hj : j < (t.subtree t.size q).length) :
      (t.subtree t.size q)[j]? = t.preorder[p + j]? := by
    rw [← hblock, block, hqp, List.getElem?_take_of_lt hj, List.getElem?_drop]
  -- the child is in the block of its parent and not the first there
  have hmem : x ∈ t.subtree t.size q := hk.mem_subtree hw (.child .refl hxq)
  obtain ⟨j, hj⟩ := List.mem_iff_getElem?.mp hmem
  obtain ⟨hjlt, -⟩ := List.getElem?_eq_some_iff.mp hj
  have hxj : x.id = p + j := id_of_preorder_eq he ((hvisit j hjlt).symm.trans hj)
  rw [hw.id_eq hx] at hxj
  have hlt : j - 1 < (t.subtree t.size q).length := by omega
  obtain ⟨m, hm⟩ : ∃ m, (t.subtree t.size q)[j - 1]? = some m :=
    ⟨_, List.getElem?_eq_getElem hlt⟩
  have hmp := (hvisit (j - 1) hlt).symm.trans hm
  have hmid : m.id = c - 1 := by
    have := id_of_preorder_eq he hmp
    omega
  have hmn : t.node? (c - 1) = some m :=
    hmid ▸ has_of_mem_preorder hw (List.mem_of_getElem? hmp)
  exact (h.mem_path_iff hmn hq).mpr ((hk.mem_subtree_iff hw).mp (List.mem_of_getElem? hm))

theorem preorder_eq_iff_depthFirst (h : t.Grown) :
    t.preorder.map Node.id = List.range t.size ↔ t.DepthFirst :=
  ⟨h.depthFirst_of_preorder, h.preorder_of_depthFirst⟩

end Grown

theorem lt_size_of_parentOf (hp : t.parentOf c = some p) : c < t.size := by
  obtain ⟨n, hn, -⟩ := node?_of_parentOf hp
  exact lt_size_of_node? hn

theorem SameLinks.depthFirst_iff (h : SameLinks t t') (ht : t.Grown) :
    t'.DepthFirst ↔ t.DepthFirst := by
  have hpar (i : Nat) : t'.parentOf i = t.parentOf i := by rw [parentOf, parentOf, h.links_eq]
  have hpath {c p : Nat} (hp : t.parentOf c = some p) : t'.path (c - 1) = t.path (c - 1) := by
    have hc := lt_size_of_parentOf hp
    exact ht.path_congr (h.grown ht) le_rfl h.size_eq.ge (fun i _ ↦ hpar i) (by omega)
  constructor
  · intro hd c p hp
    rw [← hpath hp]
    exact hd c p ((hpar c).trans hp)
  · intro hd c p hp
    rw [hpar] at hp
    rw [hpath hp]
    exact hd c p hp

/-- The way up from the newest node tells where the next child keeps the order. -/
theorem Grows.depthFirst_iff (h : Grows q t t') (ht : t.Grown) :
    t'.DepthFirst ↔ t.DepthFirst ∧ ∀ p, q = some p → p ∈ t.path (t.size - 1) := by
  have hpath {i : Nat} (hi : i < t.size) : t'.path i = t.path i :=
    ht.path_congr (h.grown ht) le_rfl (h.size_eq ▸ Nat.le_succ _) (fun _ ↦ h.parentOf_old) hi
  constructor
  · intro hd
    constructor
    · intro c p hp
      have hc := lt_size_of_parentOf hp
      rw [← hpath (by omega)]
      exact hd c p ((h.parentOf_old hc).trans hp)
    · intro p hq
      have hp := h.parent_lt hq
      rw [← hpath (by omega)]
      exact hd t.size p (h.parentOf_new.trans hq)
  · intro hd c p hp
    obtain ⟨hold, hnew⟩ := hd
    have hpc := (h.grown ht).parent_lt hp
    have hc := lt_size_of_parentOf hp
    rw [h.size_eq] at hc
    rw [hpath (by omega)]
    rcases Nat.lt_succ_iff_lt_or_eq.mp hc with hlt | rfl
    · rw [h.parentOf_old hlt] at hp
      exact hold c p hp
    · rw [h.parentOf_new] at hp
      exact hnew p hp

end Tree

namespace Builder

variable {b : Builder}

/-- A child that the step adds hangs below the newest node or below an ancestor of that node. -/
def StaysOnPath (b : Builder) (s : BuildStep) : Prop := ∀ p role kind b',
  s = .child p role kind → b.child p role kind = .ok b' → p ∈ b.tree.path (b.nextId - 1)

theorem staysOnPath_iff {s : BuildStep} : b.StaysOnPath s ↔
    ∀ p, b.adds? s = some (some p) → p ∈ b.tree.path (b.tree.size - 1) := by
  cases s with
  | child parent role kind =>
    constructor
    · intro hs p hp
      have hlt : parent < b.tree.size := by
        by_contra hle
        simp [adds?, hle] at hp
      obtain rfl : parent = p := by simpa [adds?, hlt] using hp
      exact hs parent role kind _ rfl (child_known hlt role kind)
    · intro hs p role' kind' b' he hb
      cases he
      have hlt : parent < b.tree.size := by
        by_contra hle
        rw [(child_unknown (Nat.le_of_not_lt hle) role kind).1] at hb
        cases hb
      exact hs parent (if_pos hlt)
  | _ => simp [StaysOnPath, adds?]

theorem depthFirst_perform_iff (h : b.tree.Grown) (s : BuildStep) :
    (b.perform s).tree.DepthFirst ↔ b.tree.DepthFirst ∧ b.StaysOnPath s := by
  rw [staysOnPath_iff]
  rcases perform_cases b s with ⟨q, hadds, hq⟩ | ⟨hadds, hs⟩
  · rw [hq.depthFirst_iff h, hadds]
    simp only [Option.some.injEq]
  · rw [hs.depthFirst_iff h, hadds]
    simp

theorem depthFirst_performAll_iff (h : b.tree.Grown) (steps : List BuildStep) :
    (b.performAll steps).tree.DepthFirst ↔ b.tree.DepthFirst ∧
      ∀ before s after, steps = before ++ s :: after → (b.performAll before).StaysOnPath s := by
  induction steps generalizing b with
  | nil => simp [performAll]
  | cons s steps ih =>
    have hlater := ih (grown_perform h s)
    rw [depthFirst_perform_iff h s, and_assoc] at hlater
    refine hlater.trans (and_congr_right fun _ ↦ ?_)
    constructor
    · intro hs before s' after he
      cases before with
      | nil =>
        cases he
        exact hs.1
      | cons s₀ before =>
        cases he
        exact hs.2 before s' after rfl
    · intro hs
      exact ⟨hs [] s steps rfl, fun before s' after he ↦
        hs (s :: before) s' after (congrArg (s :: ·) he)⟩

theorem depthFirst_new (file : String) : (Builder.new file).tree.DepthFirst := by
  intro c p hp
  exact absurd (Tree.lt_size_of_parentOf hp) (Nat.not_lt_zero c)

/-- The walk over a built tree visits the nodes in the order in which they were added exactly if
each child that was added hangs below the node that was the newest then, or below an ancestor that
this node had then. Top-level nodes may come at any time. -/
theorem preorder_eq_range_iff (file : String) (steps : List BuildStep) :
    let t := ((Builder.new file).performAll steps).tree
    t.WalkYields t.preorder ∧
    (t.preorder.map Node.id = List.range t.size ↔
      ∀ before s after, steps = before ++ s :: after →
        ((Builder.new file).performAll before).StaysOnPath s) := by
  intro t
  have h : t.Grown := grown_performAll (grown_new file) steps
  refine ⟨(Tree.walkYields_iff_of_wellLinked h.wellLinked).mpr rfl, ?_⟩
  rw [h.preorder_eq_iff_depthFirst, depthFirst_performAll_iff (grown_new file) steps]
  exact and_iff_right (depthFirst_new file)

/-- Two branches that grow in turn are visited one after the other. -/
example : (Builder.performAll (.new "two.ts") [.root .program, .root .program,
    .child 0 .body .expressionStatement, .child 1 .body .returnStatement]).tree.preorder.map
      Node.id = [0, 2, 1, 3] := rfl

end Builder

end AnyFlow
