import AnyFlow.Analysis.Loop
import AnyFlow.Proofs.Pattern
import AnyFlow.Proofs.Preorder

namespace AnyFlow

theorem Rule.exists_matched_iff {t : Tree} {n : Node} : (∃ rules, Rule.Matched t n rules) ↔
    (n.kind = .identifier → ∃ moves, t.ClimbYields n moves) := by
  unfold Rule.Matched
  -- only the climb of an identifier can keep the rules from being found
  split
  · rename_i hk
    constructor
    · intro hr _
      obtain ⟨rules, d, hd, -⟩ := hr
      rw [Tree.FindsDeclarator, if_neg (not_not.mpr hk)] at hd
      obtain ⟨moves, hm, -⟩ := hd
      exact ⟨moves, hm⟩
    · intro hc
      obtain ⟨moves, hm⟩ := hc hk
      refine ⟨_, t.declaratorAbove? n (moves.getLastD n), ?_, rfl⟩
      rw [Tree.FindsDeclarator, if_neg (not_not.mpr hk)]
      exact ⟨moves, hm, rfl⟩
  · rename_i hk
    exact ⟨fun _ h ↦ absurd h hk, fun _ ↦ ⟨_, rfl⟩⟩

namespace Tree

variable {t : Tree} {k : Nat} {n x : Node} {as : List Node}

theorem WellLinked.parent_eq_none_iff (h : t.WellLinked) (hx : t.Has x) :
    x.parent = none ↔ t.parent? x.id = none := by
  rw [parent?, hx, Option.bind_some]
  cases hp : x.parent with
  | none => simp
  | some i =>
    obtain ⟨m, hm, -⟩ := h.mem_of_parent hx hp
    simp [hm]

theorem AtLevel.up {p : Node} (h : t.WellLinked) (hn : t.AtLevel k n)
    (hp : t.parent? n.id = some p) : ∃ j, k = j + 1 ∧ t.AtLevel j p ∧ n ∈ t.childrenOf p := by
  cases k with
  | zero => simp [parent?_of_top h hn] at hp
  | succ j =>
    obtain ⟨q, hq, hc⟩ := hn.parent
    cases Option.some.inj (hp.symm.trans (h.parent?_child (hq.has h) hc))
    exact ⟨j, rfl, hq, hc⟩

theorem upward_patternParent? (h : t.WellLinked) :
    Upward t t.patternChildren t.patternParent? where
  subset _ := List.filter_subset_self _
  up_eq_some_iff hn := by
    rw [patternParent?_eq_some_iff, mem_patternChildren, (upward_parent? h).up_eq_some_iff hn,
      and_assoc]

theorem AscentYields.exists_top (h : t.WellLinked) (hn : t.Has n) (has : t.AscentYields n.id as) :
    t.Has (as.getLastD n) ∧ (as.getLastD n).parent = none ∧
      ∃ k, Below t.childrenOf (as.getLastD n) k n := by
  have hu := upward_parent? h
  have hring := (hu.yields_iff h hn).mp ⟨as, has⟩
  obtain ⟨x, k, hx, hup, hb⟩ := (hu.ends_or_belowRing hn).resolve_right hring
  obtain ⟨as', has', hlast⟩ := hu.ends h hx hup hb
  cases has.unique has'
  rw [hlast]
  exact ⟨hx, (h.parent_eq_none_iff hx).mpr hup, k, hb⟩

theorem AtLevel.mem_roots (h : t.WellLinked) (hx : t.AtLevel 0 x) : x.id ∈ t.roots := by
  obtain ⟨r, hr, hb⟩ := hx
  cases hb
  obtain ⟨i, hi, hx⟩ := List.mem_filterMap.mp hr
  rwa [h.id_eq hx]

theorem atLevel_of_mem_roots (hx : t.Has x) (hr : x.id ∈ t.roots) : t.AtLevel 0 x :=
  ⟨x, List.mem_filterMap.mpr ⟨x.id, hr, hx⟩, .refl⟩

theorem AtLevel.exists_ascent (h : t.WellLinked) (hn : t.AtLevel k n) :
    ∃ as, t.AscentYields n.id as ∧ (as.getLastD n).id ∈ t.roots := by
  obtain ⟨r, hr, hb⟩ := hn
  have htop : t.AtLevel 0 r := ⟨r, hr, .refl⟩
  have hnone := (h.parent_eq_none_iff (htop.has h)).mp (htop.top_parent h)
  obtain ⟨as, has, hlast⟩ := (upward_parent? h).ends h (htop.has h) hnone hb
  exact ⟨as, has, hlast.symm ▸ htop.mem_roots h⟩

theorem mem_preorder_iff_ascent (h : t.WellLinked) (hn : t.Has n) :
    n ∈ t.preorder ↔ ∃ as, t.AscentYields n.id as ∧ (as.getLastD n).id ∈ t.roots := by
  rw [mem_preorder h]
  constructor
  · intro hx
    obtain ⟨k, hk⟩ := hx
    exact hk.exists_ascent h
  · intro hx
    obtain ⟨as, has, hroot⟩ := hx
    obtain ⟨hx, -, k, hb⟩ := has.exists_top h hn
    exact ⟨0 + k, (atLevel_of_mem_roots hx hroot).below hb⟩

theorem mem_preorder_of_no_ring (h : t.WellLinked)
    (hroots : ∀ x, t.Has x → x.parent = none → x.id ∈ t.roots)
    (hring : ∀ x, ¬ OnRing t.childrenOf x) (hn : t.Has n) : n ∈ t.preorder := by
  rcases (upward_parent? h).ends_or_belowRing hn with ⟨x, k, hx, hup, hb⟩ | ⟨x, hx, -⟩
  · have hroot := hroots x hx ((h.parent_eq_none_iff hx).mpr hup)
    exact (mem_preorder h).mpr ⟨0 + k, (atLevel_of_mem_roots hx hroot).below hb⟩
  · exact absurd hx (hring x)

theorem AtLevel.mem_roots_of_parent (h : t.WellLinked) (hn : t.AtLevel k n)
    (hp : n.parent = none) : n.id ∈ t.roots := by
  cases k with
  | zero => exact hn.mem_roots h
  | succ k =>
    obtain ⟨p, hpk, hc⟩ := hn.parent
    simp [(h.child (hpk.has h) hc).2] at hp

/-- The walk down an accepted tree visits the nodes whose way up ends at a listed root. So it
visits all nodes exactly if those without a parent are listed and there is no ring. -/
theorem preorder_complete_iff {t : Tree} (h : t.checkLinks = .ok ()) :
    (∀ i n, t.node? i = some n →
      (n ∈ t.preorder ↔ ∃ as, t.AscentYields i as ∧ (as.getLastD n).id ∈ t.roots)) ∧
    ((∀ i n, t.node? i = some n → n ∈ t.preorder) ↔
      (∀ i n, t.node? i = some n → n.parent = none → i ∈ t.roots) ∧
        ∀ n, ¬ OnRing t.childrenOf n) := by
  have hw := checkLinks_eq_ok_iff.mp h
  refine ⟨fun i n hn ↦ ?_, fun hall ↦ ⟨fun i n hn hp ↦ ?_, fun n hr ↦ ?_⟩, fun hx i n hn ↦ ?_⟩
  · rw [← hw.id_eq hn]
    exact mem_preorder_iff_ascent hw (hw.has hn)
  · obtain ⟨k, hk⟩ := (mem_preorder hw).mp (hall i n hn)
    rw [← hw.id_eq hn]
    exact hk.mem_roots_of_parent hw hp
  · obtain ⟨k, hk⟩ := (mem_preorder hw).mp (hall n.id n (hr.has hw))
    exact hk.not_onRing hw hr
  · obtain ⟨hroots, hring⟩ := hx
    exact mem_preorder_of_no_ring hw (fun x hx ↦ hroots x.id x hx) hring (hw.has hn)

theorem preorder_complete_iff_ringSample : ringSample.checkLinks = .ok () ∧
    (∃ as, ringSample.AscentYields 3 as ∧ (as.getLastD ringSample.nodes[3]!).id ∈ [0]) ∧
    ¬ ∀ i n, ringSample.node? i = some n → n ∈ ringSample.preorder := by
  obtain ⟨hnode, hall⟩ := preorder_complete_iff checkLinks_ringSample
  have hmem : ringSample.nodes[3]! ∈ ringSample.preorder :=
    List.mem_iff_getElem?.mpr ⟨3, rfl⟩
  exact ⟨checkLinks_ringSample, (hnode 3 _ rfl).mp hmem,
    fun hx ↦ (hall.mp hx).2 _ onRing_ringSample⟩

/-- A reference to a type, which is neither a root nor a child. -/
def straySample : Tree where
  file := "stray.ts"
  roots := []
  nodes := #[⟨0, none, .typeReference, none, .text "T", [], ⟨"stray.ts", 1, 1, Span.zero⟩⟩]

/-- The check accepts a tree with a stray node. The walk does not come to it, and the analysis is
silent about its type. -/
theorem stray_not_visited : straySample.checkLinks = .ok () ∧
    straySample.node? 0 = some straySample.nodes[0]! ∧
    straySample.nodes[0]! ∉ straySample.preorder ∧
    analyze straySample (TypeTable.ofList [(0, .any)]).oracle .defaults = [] ∧
    analyze { straySample with roots := [0] } (TypeTable.ofList [(0, .any)]).oracle .defaults =
      [.ofNode straySample.nodes[0]! .typeReference [("typeName", "T")]] :=
  ⟨rfl, rfl, List.not_mem_nil, rfl, rfl⟩

theorem exists_ascent_iff (h : t.WellLinked) (hn : t.Has n) :
    (∃ as, t.AscentYields n.id as) ↔ ¬ BelowRing t.childrenOf n :=
  (upward_parent? h).yields_iff h hn

theorem exists_matched_iff_not_belowRing (h : t.WellLinked) (hn : t.Has n) :
    (∃ rules, Rule.Matched t n rules) ↔
      ¬ (n.kind = .identifier ∧ BelowRing t.patternChildren n) := by
  rw [Rule.exists_matched_iff, not_and]
  exact imp_congr_right fun _ ↦ (upward_patternParent? h).yields_iff h hn

theorem exists_matched (h : t.WellLinked) (hn : t.Has n) (hr : ¬ BelowRing t.childrenOf n) :
    ∃ rules, Rule.Matched t n rules :=
  (exists_matched_iff_not_belowRing h hn).mpr fun hx ↦
    hr (hx.2.mono (upward_patternParent? h).subset)

/-- In an accepted tree a way up ends at a node without a parent, unless it starts below a ring,
and the rules of a node are found, unless it is an identifier below a ring of patterns. So all
ways up end and all rules are found exactly if there is no ring. -/
theorem ways_up_end_iff {t : Tree} (h : t.checkLinks = .ok ()) :
    (∀ i n, t.node? i = some n →
      (∀ as, t.AscentYields i as → t.ancestors i = as ∧ (as.getLastD n).parent = none) ∧
      ((∃ as, t.AscentYields i as) ↔ ¬ BelowRing t.childrenOf n) ∧
      (∀ rules, Rule.Matched t n rules → rules = Rule.matching t n) ∧
      ((∃ rules, Rule.Matched t n rules) ↔
        ¬ (n.kind = .identifier ∧ BelowRing t.patternChildren n))) ∧
    ((∀ i n, t.node? i = some n →
        (∃ as, t.AscentYields i as ∧ (as.getLastD n).parent = none) ∧
          ∃ rules, Rule.Matched t n rules) ↔
      ∀ n, ¬ OnRing t.childrenOf n) := by
  have hw := checkLinks_eq_ok_iff.mp h
  constructor
  · intro i n hi
    have hn := hw.has hi
    rw [← hw.id_eq hi]
    exact ⟨fun as has ↦ ⟨has.ancestors_eq, (has.exists_top hw hn).2.1⟩,
      exists_ascent_iff hw hn, fun rules hr ↦ hr.eq, exists_matched_iff_not_belowRing hw hn⟩
  · constructor
    · intro hall n hr
      have hn := hr.has hw
      obtain ⟨⟨as, has, -⟩, -⟩ := hall n.id n hn
      exact (exists_ascent_iff hw hn).mp ⟨as, has⟩ hr.below
    · intro hring i n hi
      have hn := hw.has hi
      rw [← hw.id_eq hi]
      have hup : ¬ BelowRing t.childrenOf n := by
        intro hb
        obtain ⟨x, hx, -⟩ := hb
        exact hring x hx
      obtain ⟨as, has⟩ := (exists_ascent_iff hw hn).mpr hup
      exact ⟨⟨as, has, (has.exists_top hw hn).2.1⟩, exists_matched hw hn hup⟩

theorem ways_up_end_iff_ringSample : ringSample.checkLinks = .ok () ∧
    (ringSample.ancestors 3).map Node.id = [2, 1, 0] ∧
    (∃ as, ringSample.AscentYields 3 as ∧ (as.getLastD ringSample.nodes[3]!).parent = none) ∧
    ¬ ∃ as, ringSample.AscentYields 5 as := by
  obtain ⟨hnode, -⟩ := ways_up_end_iff checkLinks_ringSample
  have has : ringSample.AscentYields 3
      [ringSample.nodes[2]!, ringSample.nodes[1]!, ringSample.nodes[0]!] :=
    .more rfl (.more rfl (.more rfl (.done rfl)))
  obtain ⟨hanc, hlast⟩ := (hnode 3 _ rfl).1 _ has
  refine ⟨checkLinks_ringSample, ?_, ⟨_, has, hlast⟩, fun hx ↦ ?_⟩
  · rw [hanc]
    rfl
  · exact (hnode 5 ringSample.nodes[5]! rfl).2.1.mp hx onRing_ringSample.below

/-- The check accepts a tree with a ring of patterns. The way up from the ring never ends, and the
rules for the identifier in it are never found. -/
theorem ring_never_left : ringSample.checkLinks = .ok () ∧
    (∃ n, ringSample.node? 5 = some n) ∧ (∀ as, ¬ ringSample.AscentYields 5 as) ∧
    ∃ leaf, ringSample.node? 6 = some leaf ∧ ∀ rules, ¬ Rule.Matched ringSample leaf rules := by
  have hw := checkLinks_eq_ok_iff.mp checkLinks_ringSample
  have hring : OnRing ringSample.patternChildren ringSample.nodes[5]! :=
    ⟨0, .child .refl List.mem_cons_self⟩
  have hleaf : BelowRing ringSample.patternChildren ringSample.nodes[6]! :=
    ⟨_, hring, 1, .child .refl (List.mem_cons_of_mem _ List.mem_cons_self)⟩
  refine ⟨checkLinks_ringSample, ⟨_, rfl⟩, fun as has ↦ ?_, _, rfl, fun rules hr ↦ ?_⟩
  · exact (exists_ascent_iff hw (n := ringSample.nodes[5]!) rfl).mp ⟨as, has⟩
      onRing_ringSample.below
  · exact (exists_matched_iff_not_belowRing hw (n := ringSample.nodes[6]!) rfl).mp ⟨rules, hr⟩
      ⟨rfl, hleaf⟩

end Tree

end AnyFlow
