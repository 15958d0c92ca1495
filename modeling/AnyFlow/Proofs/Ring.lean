import Mathlib.Data.List.Perm.Subperm
import AnyFlow.Proofs.Walk
import AnyFlow.Tree.Builder
import AnyFlow.Tree.Loop

namespace AnyFlow.Tree

variable {t : Tree} {next : Node → List Node} {up : Node → Option Node} {k : Nat} {n p x y : Node}

/-- The node lies below itself. -/
def OnRing (next : Node → List Node) (x : Node) : Prop := ∃ k, Below next x (k + 1) x

def BelowRing (next : Node → List Node) (y : Node) : Prop :=
  ∃ x, OnRing next x ∧ ∃ k, Below next x k y

theorem OnRing.mono {next' : Node → List Node} (hn : ∀ x, next x ⊆ next' x)
    (hx : OnRing next x) : OnRing next' x := by
  obtain ⟨k, hk⟩ := hx
  exact ⟨k, hk.mono hn⟩

theorem BelowRing.mono {next' : Node → List Node} (hn : ∀ x, next x ⊆ next' x)
    (hy : BelowRing next y) : BelowRing next' y := by
  obtain ⟨x, hx, k, hk⟩ := hy
  exact ⟨x, hx.mono hn, k, hk.mono hn⟩

theorem OnRing.below (hx : OnRing next x) : BelowRing next x := ⟨x, hx, 0, .refl⟩

theorem WellLinked.has_of_below (h : t.WellLinked) (hy : Below t.childrenOf x (k + 1) y) :
    t.Has y := by
  obtain _ | ⟨-, hc⟩ := hy
  obtain ⟨i, -, hi⟩ := mem_childrenOf.mp hc
  exact h.has hi

theorem OnRing.has (h : t.WellLinked) (hx : OnRing t.childrenOf x) : t.Has x := by
  obtain ⟨k, hk⟩ := hx
  exact h.has_of_below hk

theorem AtLevel.not_onRing (h : t.WellLinked) (hx : t.AtLevel k x) : ¬ OnRing t.childrenOf x := by
  intro hr
  obtain ⟨j, hj⟩ := hr
  -- once round the ring the node would stand at a second level
  have := hx.unique h (hx.below hj)
  omega

theorem mem_nodes_of_node? {i : Nat} (hx : t.node? i = some x) : x ∈ t.nodes.toList := by
  refine List.mem_iff_getElem?.mpr ⟨i, ?_⟩
  rwa [Array.getElem?_toList]

/-- The nodes on a way down differ from each other, or else the way comes by a ring. -/
theorem Below.exists_nodup_or_ring (hy : Below next x k y) :
    (∃ l : List Node, l.Nodup ∧ l.length = k + 1 ∧
      ∀ z ∈ l, (∃ i, Below next x i z) ∧ ∃ j, Below next z j y) ∨
    ∃ z, OnRing next z ∧ (∃ i, Below next x i z) ∧ ∃ j, Below next z j y := by
  induction hy with
  | refl =>
    refine .inl ⟨[x], List.nodup_singleton x, rfl, fun z hz ↦ ?_⟩
    cases List.mem_singleton.mp hz
    exact ⟨⟨0, .refl⟩, 0, .refl⟩
  | @child k p c hp hc ih =>
    rcases ih with ⟨l, hnd, hlen, hl⟩ | ⟨z, hz, hxz, j, hj⟩
    · by_cases hmem : c ∈ l
      · obtain ⟨hxc, j, hj⟩ := hl c hmem
        exact .inr ⟨c, ⟨j, hj.child hc⟩, hxc, 0, .refl⟩
      · refine .inl ⟨c :: l, List.nodup_cons.mpr ⟨hmem, hnd⟩, congrArg (· + 1) hlen, ?_⟩
        intro z hz
        rcases List.mem_cons.mp hz with rfl | hz
        · exact ⟨⟨k + 1, hp.child hc⟩, 0, .refl⟩
        · obtain ⟨hxz, j, hj⟩ := hl z hz
          exact ⟨hxz, j + 1, hj.child hc⟩
    · exact .inr ⟨z, hz, hxz, j + 1, hj.child hc⟩

/-- A way down with as many links as the tree has nodes comes by a ring. -/
theorem exists_ring_between (hn : ∀ z, next z ⊆ t.childrenOf z) (hx : x ∈ t.nodes.toList)
    (hy : Below next x t.size y) :
    ∃ z, OnRing next z ∧ (∃ i, Below next x i z) ∧ ∃ j, Below next z j y := by
  refine hy.exists_nodup_or_ring.resolve_left fun hl ↦ ?_
  obtain ⟨l, hnd, hlen, hl⟩ := hl
  have hsub : l ⊆ t.nodes.toList := by
    intro z hz
    obtain ⟨⟨i, hi⟩, -⟩ := hl z hz
    cases hi with
    | refl => exact hx
    | child hp hc =>
      obtain ⟨j, -, hj⟩ := mem_childrenOf.mp (hn _ hc)
      exact mem_nodes_of_node? hj
  have hle := (List.subperm_of_subset hnd hsub).length_le
  rw [hlen, Array.length_toList] at hle
  exact Nat.not_succ_le_self _ hle

/-- The function `up` undoes the steps down to `next` nodes, which are children. -/
structure Upward (t : Tree) (next : Node → List Node) (up : Node → Option Node) : Prop where
  subset (x : Node) : next x ⊆ t.childrenOf x
  up_eq_some_iff {n p : Node} (hn : t.Has n) : up n = some p ↔ t.Has p ∧ n ∈ next p

theorem upward_parent? (h : t.WellLinked) : Upward t t.childrenOf fun n ↦ t.parent? n.id where
  subset _ := List.Subset.refl _
  up_eq_some_iff {n p} hn := by
    constructor
    · intro hp
      rw [parent?, hn, Option.bind_some] at hp
      obtain ⟨i, hi, hp⟩ := Option.bind_eq_some_iff.mp hp
      obtain ⟨m, hm, hc⟩ := h.mem_of_parent hn hi
      cases Option.some.inj (hp.symm.trans hm)
      exact ⟨h.has hp, mem_childrenOf.mpr ⟨n.id, hc, hn⟩⟩
    · intro hp
      exact h.parent?_child hp.1 hp.2

namespace Upward

theorem below (hu : Upward t next up) (hy : Below next x k y) : Below t.childrenOf x k y :=
  hy.mono hu.subset

theorem ends (hu : Upward t next up) (h : t.WellLinked) (hx : t.Has x) (hup : up x = none)
    (hn : Below next x k n) : ∃ as, Loop.Yields (Loop.follow up) (up n) as ∧ as.getLastD n = x := by
  induction hn with
  | refl => exact ⟨[], Loop.yields_follow_nil_iff.mpr hup, rfl⟩
  | @child k p c hp hc ih =>
    obtain ⟨as, has, hlast⟩ := ih
    have hph := (hu.below hp).has h hx
    have hch := (h.child hph (hu.subset p hc)).1
    have hcp := (hu.up_eq_some_iff hch).mpr ⟨hph, hc⟩
    refine ⟨p :: as, Loop.yields_follow_cons_iff.mpr ⟨hcp, has⟩, ?_⟩
    rw [List.getLastD_cons, hlast]

theorem exists_up (hu : Upward t next up) (h : t.WellLinked) (hn : BelowRing next n) :
    ∃ p, up n = some p ∧ BelowRing next p := by
  obtain ⟨r, ⟨j, hj⟩, k, hk⟩ := hn
  have hr := h.has_of_below (hu.below hj)
  -- on the ring itself the way up goes round it once more
  obtain ⟨p, i, hp, hn⟩ : ∃ p i, Below next r i p ∧ n ∈ next p := by
    cases hk with
    | refl =>
      obtain _ | ⟨hp, hc⟩ := hj
      exact ⟨_, _, hp, hc⟩
    | child hp hc => exact ⟨_, _, hp, hc⟩
  have hph := (hu.below hp).has h hr
  have hnh := (h.child hph (hu.subset p hn)).1
  exact ⟨p, (hu.up_eq_some_iff hnh).mpr ⟨hph, hn⟩, r, ⟨j, hj⟩, i, hp⟩

theorem not_yields (hu : Upward t next up) (h : t.WellLinked) (hn : BelowRing next n)
    (as : List Node) : ¬ Loop.Yields (Loop.follow up) (up n) as := by
  refine Loop.not_yields (P := fun s ↦ ∃ p, s = some p ∧ BelowRing next p) ?_
    (hu.exists_up h hn) as
  intro s hs
  obtain ⟨p, rfl, hp⟩ := hs
  exact ⟨p, up p, rfl, hu.exists_up h hp⟩

theorem ends_or_goes_on (hu : Upward t next up) (hn : t.Has n) (k : Nat) :
    (∃ x i, t.Has x ∧ up x = none ∧ Below next x i n) ∨ ∃ x, t.Has x ∧ Below next x k n := by
  induction k with
  | zero => exact .inr ⟨n, hn, .refl⟩
  | succ k ih =>
    rcases ih with ih | ⟨x, hx, hb⟩
    · exact .inl ih
    · cases hup : up x with
      | none => exact .inl ⟨x, k, hx, hup, hb⟩
      | some p =>
        obtain ⟨hp, hxp⟩ := (hu.up_eq_some_iff hx).mp hup
        exact .inr ⟨p, hp, hb.head hxp⟩

theorem ends_or_belowRing (hu : Upward t next up) (hn : t.Has n) :
    (∃ x i, t.Has x ∧ up x = none ∧ Below next x i n) ∨ BelowRing next n := by
  rcases hu.ends_or_goes_on hn t.size with he | ⟨x, hx, hb⟩
  · exact .inl he
  · obtain ⟨z, hz, -, j, hj⟩ := exists_ring_between hu.subset (mem_nodes_of_node? hx) hb
    exact .inr ⟨z, hz, j, hj⟩

/-- The way up ends exactly above the nodes that are below no ring. -/
theorem yields_iff (hu : Upward t next up) (h : t.WellLinked) (hn : t.Has n) :
    (∃ as, Loop.Yields (Loop.follow up) (up n) as) ↔ ¬ BelowRing next n := by
  constructor
  · intro hy hr
    obtain ⟨as, has⟩ := hy
    exact hu.not_yields h hr as has
  · intro hr
    obtain ⟨x, i, hx, hup, hb⟩ := (hu.ends_or_belowRing hn).resolve_right hr
    obtain ⟨as, has, -⟩ := hu.ends h hx hup hb
    exact ⟨as, has⟩

end Upward

/-- Beside a declaration that destructures an array there is an array pattern inside itself. -/
def ringSample : Tree :=
  let b := (Builder.performAll (.new "ring.ts")
    [.root (.variableDeclaration .constBound), .child 0 .declarations .variableDeclarator,
      .child 1 .id .arrayPattern, .child 2 .elements .identifier, .value 3 (.text "x"),
      .child 1 .init .identifier, .value 4 (.text "y")]).tree
  let ring : Node := ⟨5, some 5, .arrayPattern, some .elements, .null, [5, 6],
    ⟨"ring.ts", 2, 1, Span.zero⟩⟩
  let leaf : Node := ⟨6, some 5, .identifier, some .elements, .text "z", [],
    ⟨"ring.ts", 2, 2, Span.zero⟩⟩
  { b with nodes := b.nodes ++ #[ring, leaf] }

theorem checkLinks_ringSample : ringSample.checkLinks = .ok () := rfl

theorem onRing_ringSample : OnRing ringSample.childrenOf ringSample.nodes[5]! :=
  ⟨0, .child .refl List.mem_cons_self⟩

end AnyFlow.Tree
