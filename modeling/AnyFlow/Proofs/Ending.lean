import Mathlib.Data.List.Chain
import AnyFlow.Proofs.Ascent

namespace AnyFlow

namespace Tree

variable {t : Tree} {k : Nat} {n p leaf : Node} {moves : List Node}

theorem climb_backwards (h : t.WellLinked) (hn : t.AtLevel k leaf)
    (hm : t.ClimbYields leaf moves) : moves.length ≤ k ∧
      (leaf :: moves).IsChain fun x y ↦ t.VisitedBefore y x := by
  -- every move costs a level, and what stands a level higher was visited before
  induction moves generalizing leaf k with
  | nil => exact ⟨Nat.zero_le k, List.isChain_singleton leaf⟩
  | cons p moves ih =>
    obtain ⟨hup, hlater⟩ := Loop.yields_follow_cons_iff.mp hm
    obtain ⟨j, rfl, hp, hc⟩ := hn.up h (patternParent?_eq_some_iff.mp hup).1
    obtain ⟨hlen, hchain⟩ := ih hp hlater
    refine ⟨Nat.succ_le_succ hlen, List.isChain_cons_cons.mpr ⟨?_, hchain⟩⟩
    exact visitedBefore_child h hp hc

theorem AtLevel.not_belowRing (h : t.WellLinked) (hn : t.AtLevel k n) :
    ¬ BelowRing t.childrenOf n := by
  obtain ⟨as, has, -⟩ := hn.exists_ascent h
  exact (exists_ascent_iff h (hn.has h)).mp ⟨as, has⟩

theorem AtLevel.exists_climb (h : t.WellLinked) (hn : t.AtLevel k n) :
    ∃ moves, t.ClimbYields n moves := by
  have hu := upward_patternParent? h
  exact (hu.yields_iff h (hn.has h)).mpr fun hr ↦ hn.not_belowRing h (hr.mono hu.subset)

end Tree

namespace Context

variable {cx : Context} {n : Node}

theorem visited_stepsOfNode (h : cx.tree.WellLinked) (hn : n ∈ cx.tree.preorder) :
    cx.Visited n (cx.stepsOfNode n) := by
  obtain ⟨k, hk⟩ := (Tree.mem_preorder h).mp hn
  obtain ⟨rules, hr⟩ := Tree.exists_matched h (hk.has h) (hk.not_belowRing h)
  refine ⟨rules, hr, ?_⟩
  rw [hr.eq, stepsOfNode]

theorem ends_steps (h : cx.tree.WellLinked) : cx.Ends cx.steps :=
  ((Tree.walkYields_iff_of_wellLinked h).mpr rfl).gathers fun _ hn ↦ visited_stepsOfNode h hn

theorem ends_iff (h : cx.tree.WellLinked) {steps : List Step} :
    cx.Ends steps ↔ steps = cx.steps := by
  constructor
  · exact Ends.eq
  · rintro rfl
    exact ends_steps h

theorem mem_steps_of_failure {rule : Rule} {failure : Failure} (hn : n ∈ cx.tree.preorder)
    (hr : rule ∈ Rule.matching cx.tree n) (hf : rule.apply cx n = .error failure) :
    .skipped rule n.id failure ∈ cx.steps := by
  refine List.mem_flatMap.mpr ⟨n, hn, List.mem_flatMap.mpr ⟨rule, hr, ?_⟩⟩
  rw [stepsOfRule, hf]
  exact List.mem_singleton_self _

end Context

/-- The analysis of an accepted tree ends for every oracle and all options, and a rule that fails
is passed over. From a visited node the search for its declarator goes on less often than the tree
has nodes, because each time it moves to a node visited before. -/
theorem analysis_ends {t : Tree} (o : Oracle) (options : Options) (h : t.checkLinks = .ok ()) :
    (∀ steps, (Context.mk t o options).Ends steps ↔ steps = (Context.mk t o options).steps) ∧
    (∀ n ∈ t.preorder, ∀ rule ∈ Rule.matching t n, ∀ failure,
      rule.apply ⟨t, o, options⟩ n = .error failure →
        .skipped rule n.id failure ∈ (Context.mk t o options).steps) ∧
    ∀ n ∈ t.preorder, ∃ moves, t.ClimbYields n moves ∧ moves.length < t.size ∧
      (n :: moves).IsChain fun x y ↦ t.VisitedBefore y x := by
  have hw := Tree.checkLinks_eq_ok_iff.mp h
  refine ⟨fun steps ↦ Context.ends_iff hw,
    fun n hn rule hr failure hf ↦ Context.mem_steps_of_failure hn hr hf, fun n hn ↦ ?_⟩
  obtain ⟨k, hk⟩ := (Tree.mem_preorder hw).mp hn
  obtain ⟨moves, hm⟩ := hk.exists_climb hw
  obtain ⟨hlen, hchain⟩ := Tree.climb_backwards hw hk hm
  exact ⟨moves, hm, hlen.trans_lt (hk.lt_size hw), hchain⟩

/-- With an oracle that knows no type, and beside a ring of patterns. -/
theorem analysis_ends_beside_ring :
    let cx := Context.mk Tree.ringSample (fun n ↦ .error ⟨n.id, n.kind⟩) .defaults
    Tree.ringSample.checkLinks = .ok () ∧ cx.Ends cx.steps ∧
      ∃ moves, Tree.ringSample.ClimbYields Tree.ringSample.nodes[3]! moves ∧ moves.length < 7 := by
  intro cx
  obtain ⟨hends, -, hclimb⟩ := analysis_ends (fun n ↦ .error ⟨n.id, n.kind⟩) .defaults
    Tree.checkLinks_ringSample
  have hmem : Tree.ringSample.nodes[3]! ∈ Tree.ringSample.preorder :=
    List.mem_iff_getElem?.mpr ⟨3, rfl⟩
  obtain ⟨moves, hm, hlt, -⟩ := hclimb _ hmem
  exact ⟨Tree.checkLinks_ringSample, (hends _).mpr rfl, moves, hm, hlt⟩

end AnyFlow
