import AnyFlow.Proofs.Order

namespace AnyFlow.Tree

variable {t : Tree} {k : Nat} {a n : Node} {as : List Node}

/-- The visits from the node `a` on, as many as there are nodes at and below it. -/
def block (t : Tree) (a : Node) : List Node :=
  (t.preorder.drop (t.place a.id)).take (t.subtree t.size a).length

theorem AscentYields.mem_iff (h : t.WellLinked) (hn : t.Has n) (has : t.AscentYields n.id as) :
    a ∈ as ↔ t.Has a ∧ ∃ k, Below t.childrenOf a (k + 1) n := by
  induction as generalizing n with
  | nil =>
    have hnone := Loop.yields_follow_nil_iff.mp has
    refine iff_of_false List.not_mem_nil fun hx ↦ ?_
    obtain ⟨ha, k, hb⟩ := hx
    obtain _ | ⟨hp, hc⟩ := hb
    simp [h.parent?_child (hp.has h ha) hc] at hnone
  | cons p as ih =>
    obtain ⟨hpar, hlater⟩ := Loop.yields_follow_cons_iff.mp has
    obtain ⟨hp, hc⟩ := ((upward_parent? h).up_eq_some_iff hn).mp hpar
    rw [List.mem_cons, ih hp hlater]
    constructor
    · intro hx
      rcases hx with rfl | ⟨ha, k, hb⟩
      · exact ⟨hp, 0, .child .refl hc⟩
      · exact ⟨ha, k + 1, hb.child hc⟩
    · intro hx
      obtain ⟨ha, k, hb⟩ := hx
      obtain _ | ⟨hq, hc'⟩ := hb
      -- the last step down comes from the only parent there is
      cases Option.some.inj (hpar.symm.trans (h.parent?_child (hq.has h ha) hc'))
      cases k with
      | zero =>
        cases hq
        exact .inl rfl
      | succ k => exact .inr ⟨ha, k, hq⟩

theorem AtLevel.ascent_ancestors (h : t.WellLinked) (hn : t.AtLevel k n) :
    t.AscentYields n.id (t.ancestors n.id) ∧ ((t.ancestors n.id).getLastD n).id ∈ t.roots := by
  obtain ⟨as, has, hroot⟩ := hn.exists_ascent h
  rw [has.ancestors_eq]
  exact ⟨has, hroot⟩

theorem AtLevel.eq_or_mem_ancestors_iff (h : t.WellLinked) (hn : t.AtLevel k n) :
    a = n ∨ a ∈ t.ancestors n.id ↔ t.Has a ∧ ∃ j, Below t.childrenOf a j n := by
  rw [(hn.ascent_ancestors h).1.mem_iff h (hn.has h)]
  constructor
  · intro hx
    rcases hx with rfl | ⟨ha, j, hb⟩
    · exact ⟨hn.has h, 0, .refl⟩
    · exact ⟨ha, j + 1, hb⟩
  · intro hx
    obtain ⟨ha, j, hb⟩ := hx
    cases j with
    | zero =>
      cases hb
      exact .inl rfl
    | succ j => exact .inr ⟨ha, j, hb⟩

theorem AtLevel.of_below (h : t.WellLinked) {j : Nat} (ha : t.Has a) (hn : t.AtLevel k n)
    (hb : Below t.childrenOf a j n) : ∃ i, t.AtLevel i a := by
  induction hb generalizing k with
  | refl => exact ⟨k, hn⟩
  | child hp hc ih =>
    obtain ⟨i, -, hi, -⟩ := hn.up h (h.parent?_child (hp.has h ha) hc)
    exact ih hi

theorem AtLevel.mem_subtree_iff (h : t.WellLinked) (ha : t.AtLevel k a) :
    n ∈ t.subtree t.size a ↔ ∃ j, Below t.childrenOf a j n := by
  constructor
  · intro hn
    obtain ⟨j, -, hb⟩ := Tree.mem_subtree.mp hn
    exact ⟨j, hb⟩
  · intro hn
    obtain ⟨j, hb⟩ := hn
    exact ha.mem_subtree h hb

/-- The block of a node begins with the node and holds what lies at and below it. -/
theorem AtLevel.block_eq (h : t.WellLinked) (ha : t.AtLevel k a) :
    t.preorder[t.place a.id]? = some a ∧ t.block a = t.subtree t.size a := by
  obtain ⟨u, v, he⟩ := subtree_infix_preorder h ha
  have hsplit : t.preorder = u ++ (t.subtree t.size a ++ v) := by rw [← he, List.append_assoc]
  have hhead : (t.subtree t.size a ++ v)[0]? = some a := by
    rw [subtree_size h ha]
    rfl
  have hat : t.preorder[u.length]? = some a := by
    rw [hsplit, List.getElem?_append_right le_rfl, Nat.sub_self, hhead]
  have hplace : t.place a.id = u.length := by
    obtain ⟨hlt, hget⟩ := List.getElem?_eq_some_iff.mp hat
    rw [← hget]
    exact place_getElem h hlt
  refine ⟨hplace ▸ hat, ?_⟩
  rw [block, hplace, hsplit, List.drop_left, List.take_left]

/-- The way up from a visited node ends at a listed root, over nodes that are visited before. A
node is met on it, or is where it starts, exactly if the block of visits that begins with that
node holds the start. -/
theorem ancestors_iff_block {t : Tree} (h : t.checkLinks = .ok ()) :
    t.WalkYields t.preorder ∧
    (∀ n ∈ t.preorder, t.AscentYields n.id (t.ancestors n.id) ∧
      ((t.ancestors n.id).getLastD n).id ∈ t.roots ∧
      ∀ a ∈ t.ancestors n.id, t.VisitedBefore a n) ∧
    ∀ a ∈ t.preorder,
      (t.subtree t.size a).Nodup ∧
      (∀ y, y ∈ t.subtree t.size a ↔ ∃ k, Below t.childrenOf a k y) ∧
      t.preorder[t.place a.id]? = some a ∧ t.block a = t.subtree t.size a ∧
      ∀ n ∈ t.preorder, a = n ∨ a ∈ t.ancestors n.id ↔ n ∈ t.block a := by
  have hw := checkLinks_eq_ok_iff.mp h
  refine ⟨(walkYields_iff_of_wellLinked hw).mpr rfl, fun n hn ↦ ?_, fun a ha ↦ ?_⟩
  · obtain ⟨k, hk⟩ := (mem_preorder hw).mp hn
    obtain ⟨has, hroot⟩ := hk.ascent_ancestors hw
    refine ⟨has, hroot, fun a ha ↦ ?_⟩
    obtain ⟨hah, j, hb⟩ := (has.mem_iff hw (hk.has hw)).mp ha
    obtain ⟨i, hi⟩ := hk.of_below hw hah hb
    exact visitedBefore_below hw hi hb
  · obtain ⟨i, hi⟩ := (mem_preorder hw).mp ha
    obtain ⟨hat, hblock⟩ := hi.block_eq hw
    refine ⟨nodup_subtree hw hi _, fun y ↦ hi.mem_subtree_iff hw, hat, hblock, fun n hn ↦ ?_⟩
    obtain ⟨k, hk⟩ := (mem_preorder hw).mp hn
    rw [hk.eq_or_mem_ancestors_iff hw, hblock, hi.mem_subtree_iff hw]
    exact and_iff_right (hi.has hw)

theorem ancestors_iff_block_ringSample : ringSample.checkLinks = .ok () ∧
    (ringSample.block ringSample.nodes[2]!).map Node.id = [2, 3] ∧
    ringSample.nodes[2]! ∈ ringSample.ancestors 3 ∧
    ringSample.nodes[2]! ∉ ringSample.ancestors 4 := by
  obtain ⟨-, -, hblocks⟩ := ancestors_iff_block checkLinks_ringSample
  have hvisited (i : Nat) (n : Node) (hn : ringSample.preorder[i]? = some n) :
      n ∈ ringSample.preorder := List.mem_of_getElem? hn
  obtain ⟨-, -, -, -, hpattern⟩ := hblocks ringSample.nodes[2]! (hvisited 2 _ rfl)
  refine ⟨checkLinks_ringSample, rfl, ?_, fun hx ↦ ?_⟩
  · have hne : ringSample.nodes[2]! ≠ ringSample.nodes[3]! := fun he ↦
      absurd (congrArg Node.id he) (by decide)
    refine ((hpattern ringSample.nodes[3]! (hvisited 3 _ rfl)).mpr ?_).resolve_left hne
    exact List.mem_of_getElem? (i := 1) rfl
  · have hin := (hpattern ringSample.nodes[4]! (hvisited 4 _ rfl)).mp (.inr hx)
    exact absurd (List.mem_map_of_mem (f := Node.id) hin) (by decide)

end AnyFlow.Tree
