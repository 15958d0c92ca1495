import AnyFlow.Analysis.Loop
import AnyFlow.Proofs.Ring

namespace AnyFlow

namespace Tree

variable {t : Tree} {k m : Nat} {x y : Node} {ids u v : List Nat} {ns as bs : List Node}

theorem yields_append (hu : Loop.Yields t.nextVisit? u as) (hv : Loop.Yields t.nextVisit? v bs) :
    Loop.Yields t.nextVisit? (u ++ v) (as ++ bs) := by
  induction hu with
  | done hn =>
    cases hv with
    | done hn' => exact .done (by rw [nextVisit?_append, hn, hn']; rfl)
    | more hn' hv => exact .more (by rw [nextVisit?_append, hn, hn']; rfl) hv
  | more hn has ih => exact .more (by rw [nextVisit?_append, hn]; rfl) ih

theorem exists_yields_of_append (h : Loop.Yields t.nextVisit? (u ++ v) ns) :
    ∃ as bs, ns = as ++ bs ∧ Loop.Yields t.nextVisit? u as ∧ Loop.Yields t.nextVisit? v bs := by
  -- the upper part of the stack is used up, visit by visit, before the walk comes to `v`
  generalize hs : u ++ v = s at h
  induction h generalizing u with
  | @done s hn =>
    rw [← hs, nextVisit?_append, Option.or_eq_none_iff, Option.map_eq_none_iff] at hn
    exact ⟨[], [], rfl, .done hn.1, .done hn.2⟩
  | @more s s' n ns hn has ih =>
    subst hs
    cases hu : t.nextVisit? u with
    | none => exact ⟨[], n :: ns, rfl, .done hu, .more (by rwa [nextVisit?_append, hu] at hn) has⟩
    | some r =>
      rw [nextVisit?_append, hu] at hn
      obtain ⟨rfl, rfl⟩ := Prod.mk.inj (Option.some.inj hn)
      obtain ⟨as, bs, rfl, has, hbs⟩ := ih rfl
      exact ⟨_ :: as, bs, rfl, .more hu has, hbs⟩

theorem exists_yields_of_mem (h : Loop.Yields t.nextVisit? ids ns)
    (hx : x ∈ ids.filterMap t.node?) :
    ∃ as, as.length < ns.length ∧ Loop.Yields t.nextVisit? x.children as := by
  obtain ⟨i, hi, hxi⟩ := List.mem_filterMap.mp hx
  obtain ⟨u, v, rfl⟩ := List.append_of_mem hi
  obtain ⟨as, bs, rfl, -, hbs⟩ := exists_yields_of_append h
  cases hbs with
  | done hn => simp [nextVisit?_of_node? hxi] at hn
  | more hn hbs =>
    rw [nextVisit?_of_node? hxi] at hn
    obtain ⟨rfl, rfl⟩ := Prod.mk.inj (Option.some.inj hn)
    obtain ⟨cs, ds, rfl, hcs, -⟩ := exists_yields_of_append hbs
    refine ⟨cs, ?_, hcs⟩
    simp only [List.length_append, List.length_cons]
    omega

/-- A walk that ends visits less below a node than below the nodes above it. -/
theorem exists_yields_below (h : Loop.Yields t.nextVisit? x.children as)
    (hy : Below t.childrenOf x k y) :
    ∃ bs, bs.length + k ≤ as.length ∧ Loop.Yields t.nextVisit? y.children bs := by
  induction hy with
  | refl => exact ⟨as, le_rfl, h⟩
  | child hp hc ih =>
    obtain ⟨bs, hle, hbs⟩ := ih
    obtain ⟨cs, hlt, hcs⟩ := exists_yields_of_mem hbs hc
    exact ⟨cs, by omega, hcs⟩

theorem not_onRing_of_yields (h : Loop.Yields t.nextVisit? x.children as) :
    ¬ OnRing t.childrenOf x := by
  intro hr
  obtain ⟨k, hk⟩ := hr
  obtain ⟨bs, hle, hbs⟩ := exists_yields_below h hk
  rw [hbs.unique h] at hle
  omega

theorem yields_flatMap {f : Node → List Node}
    (h : ∀ i ∈ ids, ∀ x, t.node? i = some x → Loop.Yields t.nextVisit? [i] (f x)) :
    Loop.Yields t.nextVisit? ids ((ids.filterMap t.node?).flatMap f) := by
  induction ids with
  | nil => exact .done rfl
  | cons i ids ih =>
    have hlater := ih fun j hj ↦ h j (List.mem_cons_of_mem i hj)
    cases hi : t.node? i with
    | none =>
      rw [List.filterMap_cons_none hi]
      exact yields_append (u := [i]) (.done (nextVisit?_of_not_node? hi)) hlater
    | some x =>
      rw [List.filterMap_cons_some hi, List.flatMap_cons]
      exact yields_append (h i List.mem_cons_self x hi) hlater

/-- If no way down has `k` links, the walk is the recursive one to the depth `k`. -/
theorem yields_flatMap_subtree
    (hids : ∀ x ∈ ids.filterMap t.node?, ∀ y, ¬ Below t.childrenOf x k y) :
    Loop.Yields t.nextVisit? ids ((ids.filterMap t.node?).flatMap (t.subtree k)) := by
  induction k generalizing ids with
  | zero =>
    refine yields_flatMap fun i hi x hx ↦ ?_
    exact absurd .refl (hids x (List.mem_filterMap.mpr ⟨i, hi, hx⟩) x)
  | succ k ih =>
    refine yields_flatMap fun i hi x hx ↦ .more (nextVisit?_of_node? hx) ?_
    rw [List.append_nil]
    refine ih fun c hc y hb ↦ ?_
    exact hids x (List.mem_filterMap.mpr ⟨i, hi, hx⟩) y (hb.head hc)

/-- A walk ends exactly if no way down has as many links as the tree has nodes. -/
theorem yields_nextVisit?_iff : Loop.Yields t.nextVisit? ids ns ↔
    (∀ x ∈ ids.filterMap t.node?, t.Shallow x) ∧
      ns = (ids.filterMap t.node?).flatMap (t.subtree t.size) := by
  constructor
  · intro h
    have hids (x : Node) (hx : x ∈ ids.filterMap t.node?) : t.Shallow x := by
      intro y hy
      obtain ⟨i, -, hxi⟩ := List.mem_filterMap.mp hx
      -- such a way comes by a ring, and the walk would go round it
      obtain ⟨z, hz, ⟨j, hj⟩, -⟩ :=
        exists_ring_between (fun _ ↦ List.Subset.refl _) (mem_nodes_of_node? hxi) hy
      obtain ⟨as, -, has⟩ := exists_yields_of_mem h hx
      obtain ⟨bs, -, hbs⟩ := exists_yields_below has hj
      exact not_onRing_of_yields hbs hz
    exact ⟨hids, h.unique (yields_flatMap_subtree hids)⟩
  · intro h
    obtain ⟨hids, rfl⟩ := h
    exact yields_flatMap_subtree hids

theorem walkYields_iff : t.WalkYields ns ↔
    (∀ x ∈ t.topNodes, t.Shallow x) ∧ ns = t.preorder := by
  rw [WalkYields, pushAll_reverse, List.append_nil, yields_nextVisit?_iff]
  refine and_congr_right fun hr ↦ ?_
  rw [preorder_eq_of_shallow hr]
  rfl

variable {id : Nat} {n p leaf : Node} {moves : List Node}

theorem mem_nodes_of_parent? (hp : t.parent? id = some p) : p ∈ t.nodes.toList := by
  obtain ⟨n, -, hn⟩ := Option.bind_eq_some_iff.mp hp
  obtain ⟨i, -, hi⟩ := Option.bind_eq_some_iff.mp hn
  exact mem_nodes_of_node? hi

theorem AscentYields.length_le (has : t.AscentYields id as) : as.length ≤ t.size := by
  have hle := Loop.length_le_of_follow (l := t.nodes.toList) (fun p hp ↦ mem_nodes_of_parent? hp)
    (fun n p hp ↦ mem_nodes_of_parent? hp) has
  rwa [Array.length_toList] at hle

theorem ancestorsUpTo_of_ascent (has : t.AscentYields id as) (hm : as.length ≤ m) :
    t.ancestorsUpTo m id = as := by
  induction as generalizing id m with
  | nil =>
    have hp := Loop.yields_follow_nil_iff.mp has
    cases m with
    | zero => rfl
    | succ m => simp only [ancestorsUpTo, hp]
  | cons p as ih =>
    obtain ⟨hp, hlater⟩ := Loop.yields_follow_cons_iff.mp has
    cases m with
    | zero => simp at hm
    | succ m =>
      simp only [ancestorsUpTo, hp]
      rw [ih hlater (Nat.le_of_succ_le_succ hm)]

theorem AscentYields.ancestors_eq (has : t.AscentYields id as) : t.ancestors id = as :=
  ancestorsUpTo_of_ascent has (Nat.le_succ_of_le has.length_le)

theorem patternParent?_eq_some_iff :
    t.patternParent? n = some p ↔ t.parent? n.id = some p ∧ isPatternLink n p := by
  rw [patternParent?, Option.filter_eq_some_iff]

theorem ClimbYields.length_le (hm : t.ClimbYields leaf moves) : moves.length ≤ t.size := by
  have hup (n p : Node) (hp : t.patternParent? n = some p) : p ∈ t.nodes.toList :=
    mem_nodes_of_parent? (patternParent?_eq_some_iff.mp hp).1
  have hle := Loop.length_le_of_follow (fun p hp ↦ hup leaf p hp) hup hm
  rwa [Array.length_toList] at hle

/-- The first link that does not belong to the pattern is the one above the end of the climb. -/
theorem find?_of_climb (hc : t.ClimbYields leaf moves) (hm : moves.length < m) :
    ((leaf :: t.ancestorsUpTo m leaf.id).zip (t.ancestorsUpTo m leaf.id)).find?
        (fun l ↦ !isPatternLink l.1 l.2) =
      (t.parent? (moves.getLastD leaf).id).map fun p ↦ (moves.getLastD leaf, p) := by
  obtain ⟨m, rfl⟩ : ∃ i, m = i + 1 := ⟨m - 1, by omega⟩
  induction moves generalizing leaf m with
  | nil =>
    have hnone := Loop.yields_follow_nil_iff.mp hc
    rw [List.getLastD_nil, ancestorsUpTo]
    cases hp : t.parent? leaf.id with
    | none => rfl
    | some p =>
      have hlink : isPatternLink leaf p = false := by
        simpa [patternParent?, hp] using hnone
      simp [hlink]
  | cons p moves ih =>
    obtain ⟨hpp, hlater⟩ := Loop.yields_follow_cons_iff.mp hc
    obtain ⟨hp, hlink⟩ := patternParent?_eq_some_iff.mp hpp
    obtain ⟨m, rfl⟩ : ∃ i, m = i + 1 := ⟨m - 1, by simp only [List.length_cons] at hm; omega⟩
    have hlen : moves.length < m + 1 := by
      simp only [List.length_cons] at hm
      omega
    rw [List.getLastD_cons, ← ih hlater m hlen, ancestorsUpTo, hp]
    simp [hlink]

theorem patternExit?_of_climb (hc : t.ClimbYields leaf moves) : t.patternExit? leaf =
    (t.parent? (moves.getLastD leaf).id).map fun p ↦ (moves.getLastD leaf, p) :=
  find?_of_climb hc (Nat.lt_succ_of_le hc.length_le)

theorem FindsDeclarator.eq {d : Option Node} (hd : t.FindsDeclarator leaf d) :
    t.destructuringDeclarator? leaf = d := by
  unfold FindsDeclarator at hd
  unfold destructuringDeclarator?
  split at hd
  · rename_i hk
    rw [if_pos hk, hd]
  · rename_i hk
    obtain ⟨moves, hm, rfl⟩ := hd
    rw [if_neg hk, patternExit?_of_climb hm, declaratorAbove?]
    cases t.parent? (moves.getLastD leaf).id with
    | none => rfl
    | some p => simp [Option.filter_some]

end Tree

theorem Rule.Matched.eq {t : Tree} {n : Node} {rules : List Rule} (hr : Rule.Matched t n rules) :
    rules = Rule.matching t n := by
  unfold Rule.Matched at hr
  split at hr
  · rename_i hk
    obtain ⟨d, hd, rfl⟩ := hr
    rw [Rule.matching, hk, hd.eq]
  · exact hr

namespace Context

variable {cx : Context} {n : Node} {steps : List Step}

theorem Visited.eq (hv : cx.Visited n steps) : steps = cx.stepsOfNode n := by
  obtain ⟨rules, hr, rfl⟩ := hv
  rw [hr.eq, stepsOfNode]

/-- An analysis that ends takes the steps of the analysis with bounds, on a tree of any links. -/
theorem Ends.eq (h : cx.Ends steps) : steps = cx.steps := by
  obtain ⟨ns, hns, rfl⟩ := h.exists_yields fun _ _ hv ↦ hv.eq
  rw [(Tree.walkYields_iff.mp hns).2, Context.steps]

end Context

end AnyFlow
