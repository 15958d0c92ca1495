import AnyFlow.Proofs.Ascent
import AnyFlow.Proofs.Matching

namespace AnyFlow

namespace Tree

variable {t : Tree} {k : Nat} {n c x y : Node} {u v xs ys : List Node}

/-- The number of visits before the walk comes to the node. -/
def place (t : Tree) (id : Nat) : Nat := (t.preorder.map Node.id).idxOf id

/-- The node of the id is `x` or lies below it. -/
def Holds (t : Tree) (x : Node) (id : Nat) : Prop := ∃ y k, Below t.childrenOf x k y ∧ y.id = id

theorem place_lt_of_append (h : t.WellLinked) (he : t.preorder = u ++ v) (hx : x ∈ u)
    (hy : y ∈ v) : t.place x.id < t.place y.id := by
  have hnd := nodup_map_preorder h
  rw [he, List.map_append, List.nodup_append'] at hnd
  have hyu : y.id ∉ u.map Node.id := fun hu ↦ hnd.2.2 hu (List.mem_map_of_mem hy)
  have hlt := List.idxOf_lt_length_iff.mpr (List.mem_map_of_mem (f := Node.id) hx)
  rw [place, place, he, List.map_append, List.idxOf_append_of_mem (List.mem_map_of_mem hx),
    List.idxOf_append_of_notMem hyu]
  omega

theorem place_getElem (h : t.WellLinked) {i : Nat} (hi : i < t.preorder.length) :
    t.place t.preorder[i].id = i := by
  have hlen : i < (t.preorder.map Node.id).length := by rwa [List.length_map]
  rw [place, ← List.getElem_map Node.id (h := hlen)]
  exact (nodup_map_preorder h).idxOf_getElem i hlen

theorem eq_of_place_eq (h : t.WellLinked) (hx : x ∈ t.preorder) (hy : y ∈ t.preorder)
    (he : t.place x.id = t.place y.id) : x = y := by
  have hid := (List.idxOf_inj (List.mem_map_of_mem hx)).mp he
  exact (has_of_mem_preorder h hx).eq_of_id (has_of_mem_preorder h hy) hid

theorem mem_between {w : List Node} {z : Node} (h : t.WellLinked)
    (he : t.preorder = u ++ x :: (w ++ y :: v)) (hz : z ∈ t.preorder)
    (hxz : t.place x.id < t.place z.id) (hzy : t.place z.id < t.place y.id) : z ∈ w := by
  have he' : t.preorder = (u ++ x :: w) ++ y :: v := by rw [he, List.append_assoc, List.cons_append]
  have hz' := he ▸ hz
  rw [List.mem_append, List.mem_cons, List.mem_append, List.mem_cons] at hz'
  rcases hz' with hz | rfl | hz | rfl | hz
  · have := place_lt_of_append h he hz List.mem_cons_self
    omega
  · omega
  · exact hz
  · omega
  · rw [List.append_cons] at he'
    have := place_lt_of_append h he' (List.mem_append_right _ (List.mem_singleton_self y)) hz
    omega

/-- Between a node and its child `c` the walk visits what lies at and below the earlier children. -/
theorem exists_preorder_split (h : t.WellLinked) (hn : t.AtLevel k n)
    (hc : t.childrenOf n = xs ++ c :: ys) :
    ∃ u v, t.preorder = u ++ n :: (xs.flatMap (t.subtree t.size) ++ c :: v) := by
  obtain ⟨u, w, he⟩ := subtree_infix_preorder h hn
  have hmem : c ∈ t.childrenOf n := hc ▸ List.mem_append_right xs List.mem_cons_self
  rw [subtree_size h hn, hc, List.flatMap_append, List.flatMap_cons,
    subtree_size h (hn.child hmem)] at he
  refine ⟨u, (t.childrenOf c).flatMap (t.subtree t.size) ++ ys.flatMap (t.subtree t.size) ++ w, ?_⟩
  rw [← he]
  simp only [List.append_assoc, List.cons_append]

theorem place_of_below_earlier (h : t.WellLinked) (hn : t.AtLevel k n)
    (hc : t.childrenOf n = xs ++ c :: ys) (hx : x ∈ xs) {j : Nat}
    (hy : Below t.childrenOf x j y) :
    t.place n.id < t.place y.id ∧ t.place y.id < t.place c.id := by
  obtain ⟨u, v, hp⟩ := exists_preorder_split h hn hc
  have hxn : x ∈ t.childrenOf n := hc ▸ List.mem_append_left _ hx
  have hmid : y ∈ xs.flatMap (t.subtree t.size) :=
    List.mem_flatMap.mpr ⟨x, hx, (hn.child hxn).mem_subtree h hy⟩
  constructor
  · rw [List.append_cons] at hp
    exact place_lt_of_append h hp (by simp) (List.mem_append_left _ hmid)
  · rw [← List.cons_append, ← List.append_assoc] at hp
    exact place_lt_of_append h hp (by simp [hmid]) List.mem_cons_self

end Tree

/-- The place of the findings on a node: the node itself, or one of its children. -/
def Rule.anchorAt? (t : Tree) (n : Node) : Option Node :=
  match n.kind with
  | .forOfStatement => t.childIn? n.id .left
  | .arrowFunctionExpression => t.childIn? n.id .body
  | .ifStatement | .whileStatement | .doWhileStatement | .forStatement | .conditionalExpression
  | .switchCase => t.childIn? n.id .test
  | .switchStatement => t.childIn? n.id .discriminant
  | _ => some n

theorem Rule.Applies.anchor?_eq {t : Tree} {n : Node} {rule : Rule} (h : rule.Applies t n) :
    rule.anchor? t n = anchorAt? t n := by
  cases rule with
  | uninitializedLet =>
    obtain ⟨k, p, hd, -⟩ := h
    simp [anchor?, anchorAt?, hd.1]
  | nullishLet | unsafeInitializer | implicitAnyArray =>
    obtain ⟨k, p, init, hd, -⟩ := h
    simp [anchor?, anchorAt?, hd.1]
  | assignedValue =>
    obtain ⟨operator, hk⟩ := h
    simp [anchor?, anchorAt?, hk]
  | updatedValue =>
    obtain ⟨operator, leading, hk⟩ := h
    simp [anchor?, anchorAt?, hk]
  | returnValue => rcases h with ⟨hk, -⟩ | ⟨hk, -⟩ <;> simp [anchor?, anchorAt?, hk]
  | callArguments => rcases h with hk | hk <;> simp [anchor?, anchorAt?, hk]
  | booleanTest =>
    obtain ⟨hk, -⟩ := h
    simp only [List.mem_cons, List.not_mem_nil, or_false] at hk
    rcases hk with hk | hk | hk | hk | hk <;> simp [anchor?, anchorAt?, hk]
  | patternBinding | switchCaseTest => simp [anchor?, anchorAt?, h.1]
  | typeReference | loopBinding | switchDiscriminant =>
    simp [anchor?, anchorAt?, show n.kind = _ from h]

theorem Rule.anchorAt?_eq {t : Tree} {n a : Node} (h : anchorAt? t n = some a) :
    a = n ∨ ∃ r, t.childIn? n.id r = some a := by
  unfold anchorAt? at h
  split at h
  case h_10 => exact .inl (Option.some.inj h).symm
  all_goals exact .inr ⟨_, h⟩

namespace Context

variable {cx : Context} {n m c : Node} {f g : Finding}

theorem exists_anchorAt (hf : f ∈ cx.foundAt n) :
    ∃ a, Rule.anchorAt? cx.tree n = some a ∧ f.anchor = a.id := by
  obtain ⟨rule, ha, hf⟩ := mem_foundAt.mp hf
  obtain ⟨a, m, data, hanchor, -, -, -, rfl⟩ := found_form ha hf
  exact ⟨a, ha.anchor?_eq.symm.trans hanchor, rfl⟩

theorem anchor_eq_of_foundAt (hf : f ∈ cx.foundAt n) (hg : g ∈ cx.foundAt n) :
    f.anchor = g.anchor := by
  obtain ⟨a, ha, hfa⟩ := exists_anchorAt hf
  obtain ⟨b, hb, hgb⟩ := exists_anchorAt hg
  cases Option.some.inj (ha.symm.trans hb)
  exact hfa.trans hgb.symm

theorem anchor_of_foundAt (hn : cx.tree.Has n) (hf : f ∈ cx.foundAt n) :
    f.anchor = n.id ∨ ∃ c ∈ cx.tree.childrenOf n, f.anchor = c.id := by
  obtain ⟨a, ha, hfa⟩ := exists_anchorAt hf
  rcases Rule.anchorAt?_eq ha with rfl | ⟨r, hc⟩
  · exact .inl hfa
  · exact .inr ⟨a, Tree.mem_childrenOf_of_childIn? hn hc, hfa⟩

def made (cx : Context) : List (Node × Finding) :=
  cx.tree.preorder.flatMap fun n ↦ (cx.foundAt n).map fun f ↦ (n, f)

theorem mem_made {x : Node × Finding} :
    x ∈ cx.made ↔ x.1 ∈ cx.tree.preorder ∧ x.2 ∈ cx.foundAt x.1 := by
  simp only [made, List.mem_flatMap, List.mem_map]
  constructor
  · intro hx
    obtain ⟨n, hn, f, hf, rfl⟩ := hx
    exact ⟨hn, hf⟩
  · intro hx
    exact ⟨x.1, hx.1, x.2, hx.2, rfl⟩

theorem map_made : cx.made.map Prod.snd = cx.tree.preorder.flatMap cx.foundAt := by
  simp only [made, List.map_flatMap, List.map_map, Function.comp_def, List.map_id']

theorem pairwise_made (h : cx.tree.WellLinked) :
    cx.made.Pairwise fun x y ↦ cx.tree.place x.1.id ≤ cx.tree.place y.1.id := by
  rw [made, List.pairwise_flatMap]
  constructor
  · intro n hn
    rw [List.pairwise_map]
    exact List.pairwise_of_forall fun _ _ ↦ Nat.le_refl _
  · rw [List.pairwise_iff_getElem]
    intro i j hi hj hlt x hx y hy
    obtain ⟨f, -, rfl⟩ := List.mem_map.mp hx
    obtain ⟨g, -, rfl⟩ := List.mem_map.mp hy
    rw [Tree.place_getElem h hi, Tree.place_getElem h hj]
    exact hlt.le

theorem exists_made (cx : Context) :
    ∃ xs : List (Node × Finding), xs.Sublist cx.made ∧ xs.map Prod.snd = cx.findings := by
  obtain ⟨gs, hgs, he⟩ := Report.exists_findings_addAll .empty (cx.tree.preorder.flatMap cx.foundAt)
  rw [← map_made] at hgs
  obtain ⟨xs, hxs, rfl⟩ := List.sublist_map_iff.mp hgs
  refine ⟨xs, hxs, ?_⟩
  rw [findings_eq, he]
  rfl

/-- A rule puts a finding on a child of its node, and there is one at or below an earlier child. -/
def Overtakes (cx : Context) : Prop :=
  ∃ n ∈ cx.tree.preorder, ∃ f ∈ cx.foundAt n, ∃ before c after,
    cx.tree.childrenOf n = before ++ c :: after ∧ f.anchor = c.id ∧
      ∃ x ∈ before, ∃ g ∈ cx.findings, cx.tree.Holds x g.anchor

theorem place_le_anchor (h : cx.tree.WellLinked) (hn : n ∈ cx.tree.preorder)
    (hf : f ∈ cx.foundAt n) : cx.tree.place n.id ≤ cx.tree.place f.anchor := by
  obtain ⟨k, hk⟩ := (Tree.mem_preorder h).mp hn
  rcases anchor_of_foundAt (hk.has h) hf with he | ⟨c, hc, he⟩
  · rw [he]
  · obtain ⟨xs, ys, hsplit⟩ := List.append_of_mem hc
    obtain ⟨u, v, hp⟩ := Tree.exists_preorder_split h hk hsplit
    rw [List.append_cons] at hp
    rw [he]
    exact (Tree.place_lt_of_append h hp (by simp) (by simp)).le

/-- What a later node finds comes before a child of `n` only at or below its earlier children. -/
theorem overtakes_of_place_lt (h : cx.tree.WellLinked) (hn : n ∈ cx.tree.preorder)
    (hm : m ∈ cx.tree.preorder) (hf : f ∈ cx.foundAt n) (hg : g ∈ cx.foundAt m)
    (hgf : g ∈ cx.findings) (hle : cx.tree.place n.id ≤ cx.tree.place m.id)
    (hlt : cx.tree.place g.anchor < cx.tree.place f.anchor) : cx.Overtakes := by
  have hma := place_le_anchor h hm hg
  obtain ⟨k, hk⟩ := (Tree.mem_preorder h).mp hn
  obtain ⟨c, hc, hfc⟩ : ∃ c ∈ cx.tree.childrenOf n, f.anchor = c.id := by
    refine (anchor_of_foundAt (hk.has h) hf).resolve_left fun he ↦ ?_
    rw [he] at hlt
    omega
  have hne : cx.tree.place n.id ≠ cx.tree.place m.id := by
    intro he
    cases Tree.eq_of_place_eq h hn hm he
    rw [anchor_eq_of_foundAt hf hg] at hlt
    exact Nat.lt_irrefl _ hlt
  obtain ⟨before, after, hsplit⟩ := List.append_of_mem hc
  obtain ⟨u, v, hp⟩ := Tree.exists_preorder_split h hk hsplit
  have hmid := Tree.mem_between h hp hm (by omega) (hfc ▸ hma.trans_lt hlt)
  obtain ⟨x, hx, hmx⟩ := List.mem_flatMap.mp hmid
  obtain ⟨j, -, hb⟩ := Tree.mem_subtree.mp hmx
  refine ⟨n, hn, f, hf, before, c, after, hsplit, hfc, x, hx, g, hgf, ?_⟩
  rcases anchor_of_foundAt (Tree.has_of_mem_preorder h hm) hg with he | ⟨d, hd, he⟩
  · exact ⟨m, j, hb, he.symm⟩
  · exact ⟨d, j + 1, hb.child hd, he.symm⟩

theorem findings_split (h : cx.tree.WellLinked) (hn : n ∈ cx.tree.preorder)
    (hf : f ∈ cx.foundAt n) : ∃ early late : List Finding, cx.findings = early ++ late ∧
      (∃ r ∈ early, r.anchor = f.anchor) ∧
      ∀ g ∈ early, ∃ m ∈ cx.tree.preorder,
        cx.tree.place m.id ≤ cx.tree.place n.id ∧ g ∈ cx.foundAt m := by
  obtain ⟨u, w, he⟩ := List.append_of_mem hn
  have hbefore (m : Node) (hm : m ∈ u ++ [n]) : cx.tree.place m.id ≤ cx.tree.place n.id := by
    rcases List.mem_append.mp hm with hm | hm
    · exact (Tree.place_lt_of_append h he hm List.mem_cons_self).le
    · rw [List.mem_singleton.mp hm]
  rw [List.append_cons] at he
  let report := Report.empty.addAll ((u ++ [n]).flatMap cx.foundAt)
  obtain ⟨late, -, hlate⟩ := report.exists_findings_addAll (w.flatMap cx.foundAt)
  refine ⟨report.findings, late, ?_, ?_, fun g hg ↦ ?_⟩
  · rw [findings_eq, he, List.flatMap_append, Report.addAll, List.foldl_append]
    exact hlate
  · have hmem : f.key ∈ report.keys := by
      refine Report.mem_keys_addAll.mpr (.inr (List.mem_map_of_mem ?_))
      exact List.mem_flatMap.mpr ⟨n, by simp, hf⟩
    obtain ⟨r, hr, hk⟩ := List.mem_map.mp hmem
    exact ⟨r, hr, congrArg Prod.fst hk⟩
  · obtain ⟨gs, hgs, hsub⟩ :=
      Report.empty.exists_findings_addAll ((u ++ [n]).flatMap cx.foundAt)
    have hg' : g ∈ gs := by
      rw [show report.findings = gs from hsub] at hg
      exact hg
    obtain ⟨m, hm, hgm⟩ := List.mem_flatMap.mp (hgs.subset hg')
    exact ⟨m, he ▸ List.mem_append_left _ hm, hbefore m hm, hgm⟩

theorem below_of_holds (h : cx.tree.WellLinked) {k : Nat} {x : Node} (hn : cx.tree.AtLevel k n)
    (hx : x ∈ cx.tree.childrenOf n) (hm : cx.tree.Has m) (hg : g ∈ cx.foundAt m)
    (hxg : cx.tree.Holds x g.anchor) :
    (m = n ∧ x.id = g.anchor) ∨ ∃ j, Tree.Below cx.tree.childrenOf x j m := by
  obtain ⟨y, j, hb, hy⟩ := hxg
  have hyh := hb.has h ((hn.child hx).has h)
  rcases anchor_of_foundAt hm hg with he | ⟨d, hd, he⟩
  · cases hyh.eq_of_id hm (hy.trans he)
    exact .inr ⟨j, hb⟩
  · cases hyh.eq_of_id (h.child hm hd).1 (hy.trans he)
    have hpm := h.parent?_child hm hd
    cases hb with
    | refl =>
      have hpn := h.parent?_child (hn.has h) hx
      exact .inl ⟨Option.some.inj (hpm.symm.trans hpn), hy⟩
    | @child i p _ hp hc =>
      have hpp := h.parent?_child (hp.has h ((hn.child hx).has h)) hc
      cases Option.some.inj (hpm.symm.trans hpp)
      exact .inr ⟨i, hp⟩

theorem not_ordered_of_overtakes (h : cx.tree.WellLinked) (ho : cx.Overtakes) :
    ¬ cx.findings.Pairwise fun f g ↦ cx.tree.place f.anchor ≤ cx.tree.place g.anchor := by
  intro hord
  obtain ⟨n, hn, f, hf, before, c, after, hsplit, hfc, x, hx, g, hg, hxg⟩ := ho
  obtain ⟨k, hk⟩ := (Tree.mem_preorder h).mp hn
  have hplace {y : Node} {j : Nat} (hy : Tree.Below cx.tree.childrenOf x j y) :=
    Tree.place_of_below_earlier h hk hsplit hx hy
  obtain ⟨early, late, he, ⟨r, hr, hra⟩, hearly⟩ := findings_split h hn hf
  rw [he, List.pairwise_append] at hord
  rcases List.mem_append.mp (he ▸ hg) with hg | hg
  -- found no later than at `n`, which is before all that lies below its child `x`
  · obtain ⟨m, hm, hmn, hgm⟩ := hearly g hg
    have hxn : x ∈ cx.tree.childrenOf n := hsplit ▸ List.mem_append_left _ hx
    rcases below_of_holds h hk hxn (Tree.has_of_mem_preorder h hm) hgm hxg with
      ⟨rfl, hxa⟩ | ⟨j, hj⟩
    · have hxc := (hplace .refl).2
      rw [hxa, ← anchor_eq_of_foundAt hf hgm, hfc] at hxc
      exact Nat.lt_irrefl _ hxc
    · have hnm := (hplace hj).1
      omega
  -- found later, so it stands after the finding on `c`
  · obtain ⟨y, j, hb, hy⟩ := hxg
    have hle := hord.2.2 r hr g hg
    rw [hra, hfc, ← hy] at hle
    have hyc := (hplace hb).2
    omega

theorem ordered_of_not_overtakes (h : cx.tree.WellLinked) (ho : ¬ cx.Overtakes) :
    cx.findings.Pairwise fun f g ↦ cx.tree.place f.anchor ≤ cx.tree.place g.anchor := by
  obtain ⟨xs, hxs, he⟩ := exists_made cx
  rw [← he, List.pairwise_map]
  refine ((pairwise_made h).sublist hxs).imp_of_mem fun {x y} hx hy hle ↦ ?_
  obtain ⟨hxn, hxf⟩ := mem_made.mp (hxs.subset hx)
  obtain ⟨hyn, hyf⟩ := mem_made.mp (hxs.subset hy)
  have hyfound : y.2 ∈ cx.findings := he ▸ List.mem_map_of_mem hy
  by_contra hlt
  exact ho (overtakes_of_place_lt h hxn hyn hxf hyf hyfound hle (Nat.not_le.mp hlt))

end Context

/-- The findings come in the order in which the walk visits the nodes whose rules made them, each
on its node or on a child. So their anchors come in document order unless a finding on a child of
a node overtakes one that is at or below an earlier child. -/
theorem findings_ordered_iff {t : Tree} (o : Oracle) (options : Options)
    (h : t.checkLinks = .ok ()) :
    let cx := Context.mk t o options
    (∃ xs : List (Node × Finding), xs.map Prod.snd = analyze t o options ∧
      (xs.Pairwise fun x y ↦ t.place x.1.id ≤ t.place y.1.id) ∧
      ∀ x ∈ xs, x.1 ∈ t.preorder ∧ x.2 ∈ cx.foundAt x.1 ∧
        (x.2.anchor = x.1.id ∨ ∃ c ∈ t.childrenOf x.1, x.2.anchor = c.id)) ∧
    (((analyze t o options).Pairwise fun r s ↦ t.place r.anchor ≤ t.place s.anchor) ↔
      ¬ cx.Overtakes) := by
  intro cx
  have hw : cx.tree.WellLinked := Tree.checkLinks_eq_ok_iff.mp h
  constructor
  · obtain ⟨xs, hxs, he⟩ := cx.exists_made
    refine ⟨xs, he, (Context.pairwise_made hw).sublist hxs, fun x hx ↦ ?_⟩
    obtain ⟨hn, hf⟩ := Context.mem_made.mp (hxs.subset hx)
    exact ⟨hn, hf, Context.anchor_of_foundAt (Tree.has_of_mem_preorder hw hn) hf⟩
  · exact ⟨fun hord ho ↦ Context.not_ordered_of_overtakes hw ho hord,
      Context.ordered_of_not_overtakes hw⟩

/-- The loop `do { x = a } while (b)`, where `a` and `b` have the type `any`. -/
def doWhileSample : Tree :=
  (Builder.performAll (.new "loop.ts")
    [.root .doWhileStatement, .child 0 .body .blockStatement, .child 1 .body .expressionStatement,
      .child 2 .expression (.assignmentExpression .set), .child 3 .left .identifier,
      .value 4 (.text "x"), .child 3 .right .identifier, .value 5 (.text "a"),
      .child 0 .test .identifier, .value 6 (.text "b")]).tree

def doWhileTypes : TypeTable := .ofList [(4, .number), (5, .any), (6, .any)]

theorem checkLinks_doWhileSample : doWhileSample.checkLinks = .ok () := rfl

theorem analyze_doWhileSample : analyze doWhileSample doWhileTypes.oracle .defaults =
    [.ofNode doWhileSample.nodes[6]! .booleanTest [],
      .ofNode doWhileSample.nodes[3]! .assigned [("operator", "=")]] := rfl

/-- The condition of the loop is visited after the body, and its finding comes first. -/
theorem condition_before_body : doWhileSample.checkLinks = .ok () ∧
    ¬ (analyze doWhileSample doWhileTypes.oracle .defaults).Pairwise fun r s ↦
      doWhileSample.place r.anchor ≤ doWhileSample.place s.anchor := by
  refine ⟨checkLinks_doWhileSample, ?_⟩
  rw [analyze_doWhileSample]
  decide

theorem findings_ordered_iff_doWhile : doWhileSample.checkLinks = .ok () ∧
    (Context.mk doWhileSample doWhileTypes.oracle .defaults).Overtakes ∧
    ¬ (Context.mk doWhileSample (TypeTable.ofList [(6, .any)]).oracle .defaults).Overtakes := by
  refine ⟨checkLinks_doWhileSample, ?_, ?_⟩
  · by_contra ho
    have hord :=
      (findings_ordered_iff doWhileTypes.oracle .defaults checkLinks_doWhileSample).2.mpr ho
    rw [analyze_doWhileSample] at hord
    exact absurd hord (by decide)
  · refine (findings_ordered_iff _ .defaults checkLinks_doWhileSample).2.mp ?_
    exact List.pairwise_singleton _ (Finding.ofNode doWhileSample.nodes[6]! .booleanTest [])

end AnyFlow
