import Mathlib.Data.Fintype.Card
import AnyFlow.Proofs.Links
import AnyFlow.Tree.Walk

namespace AnyFlow.Tree

variable {t : Tree}

def Has (t : Tree) (n : Node) : Prop := t.node? n.id = some n

theorem Has.eq_of_id {n m : Node} (hn : t.Has n) (hm : t.Has m) (h : n.id = m.id) : n = m :=
  Option.some.inj (hn.symm.trans ((congrArg t.node? h).trans hm))

theorem Has.children {n : Node} (hn : t.Has n) : t.children n.id = t.childrenOf n :=
  children_of_node? hn

namespace WellLinked

theorem has (h : t.WellLinked) {i : Nat} {n : Node} (hn : t.node? i = some n) : t.Has n := by
  rwa [Has, h.id_eq hn]

theorem child (h : t.WellLinked) {p c : Node} (hp : t.Has p) (hc : c ∈ t.childrenOf p) :
    t.Has c ∧ c.parent = some p.id := by
  obtain ⟨i, hi, hn⟩ := mem_childrenOf.mp hc
  obtain ⟨m, hm, hpar⟩ := h.parent_of_mem hp hi
  cases Option.some.inj (hn.symm.trans hm)
  exact ⟨h.has hn, hpar⟩

theorem parent?_child (h : t.WellLinked) {p c : Node} (hp : t.Has p)
    (hc : c ∈ t.childrenOf p) : t.parent? c.id = some p := by
  obtain ⟨hcs, hpar⟩ := h.child hp hc
  rw [parent?, hcs, Option.bind_some, hpar, Option.bind_some]
  exact hp

theorem nodup_nodes (h : t.WellLinked) {ids : List Nat} (hids : ids.Nodup) :
    (ids.filterMap t.node?).Nodup :=
  hids.filterMap fun _ _ _ ha ha' ↦ (h.id_eq ha).symm.trans (h.id_eq ha')

theorem nodup_childrenOf (h : t.WellLinked) {p : Node} (hp : t.Has p) :
    (t.childrenOf p).Nodup := h.nodup_nodes (h.nodup_children_of_node? hp)

end WellLinked

/-- The node `y` lies `k` steps below `x` on the way from nodes to `next` nodes. -/
inductive Below (next : Node → List Node) (x : Node) : Nat → Node → Prop
  | refl : Below next x 0 x
  | child {k : Nat} {p c : Node} (hp : Below next x k p) (hc : c ∈ next p) :
    Below next x (k + 1) c

namespace Below

variable {next next' : Node → List Node}

theorem head {x c y : Node} {k : Nat} (hc : c ∈ next x) (hy : Below next c k y) :
    Below next x (k + 1) y := by
  induction hy with
  | refl => exact .child .refl hc
  | child hp hc' ih => exact .child ih hc'

theorem exists_head {x y : Node} {k : Nat} (hy : Below next x (k + 1) y) :
    ∃ c ∈ next x, Below next c k y := by
  induction k generalizing y with
  | zero =>
    obtain _ | ⟨hp, hc⟩ := hy
    cases hp
    exact ⟨y, hc, .refl⟩
  | succ k ih =>
    obtain _ | ⟨hp, hc⟩ := hy
    obtain ⟨c, hcx, hb⟩ := ih hp
    exact ⟨c, hcx, .child hb hc⟩

theorem trans {x y z : Node} {j k : Nat} (hy : Below next x j y) (hz : Below next y k z) :
    Below next x (j + k) z := by
  induction hz with
  | refl => exact hy
  | child hp hc ih => exact .child ih hc

theorem mono (hn : ∀ x, next x ⊆ next' x) {x y : Node} {k : Nat} (hy : Below next x k y) :
    Below next' x k y := by
  induction hy with
  | refl => exact .refl
  | child hp hc ih => exact .child ih (hn _ hc)

theorem has (h : t.WellLinked) {x y : Node} {k : Nat} (hx : t.Has x)
    (hy : Below t.childrenOf x k y) : t.Has y := by
  induction hy with
  | refl => exact hx
  | child hp hc ih => exact (h.child ih hc).1

/-- Parents are unique, so a node lies at a given distance below one node only. -/
theorem start_unique (h : t.WellLinked) {x x' y : Node} {k : Nat} (hx : t.Has x)
    (hx' : t.Has x') (hy : Below t.childrenOf x k y) (hy' : Below t.childrenOf x' k y) :
    x = x' := by
  induction hy with
  | refl => cases hy'; rfl
  | child hp hc ih =>
    obtain _ | ⟨hp', hc'⟩ := hy'
    have he := (h.parent?_child (hp.has h hx) hc).symm.trans (h.parent?_child (hp'.has h hx') hc')
    cases Option.some.inj he
    exact ih hp'

end Below

theorem mem_subtree {x y : Node} {d : Nat} :
    y ∈ t.subtree d x ↔ ∃ k, k ≤ d ∧ Below t.childrenOf x k y := by
  induction d generalizing x with
  | zero =>
    rw [subtree, List.mem_singleton]
    constructor
    · intro hy
      cases hy
      exact ⟨0, le_rfl, .refl⟩
    · intro hx
      obtain ⟨k, hk, hb⟩ := hx
      obtain rfl : k = 0 := by omega
      cases hb
      rfl
  | succ d ih =>
    simp only [subtree, List.mem_cons, List.mem_flatMap, ih]
    constructor
    · intro hx
      rcases hx with rfl | ⟨c, hc, k, hk, hb⟩
      · exact ⟨0, by omega, .refl⟩
      · exact ⟨k + 1, by omega, hb.head hc⟩
    · intro hx
      obtain ⟨k, hk, hb⟩ := hx
      cases k with
      | zero => cases hb; exact .inl rfl
      | succ k =>
        obtain ⟨c, hc, hb⟩ := hb.exists_head
        exact .inr ⟨c, hc, k, by omega, hb⟩

theorem length_subtree (d : Nat) (x : Node) : (t.subtree d x).length = t.waysDown d x := by
  induction d generalizing x with
  | zero => rfl
  | succ d ih =>
    rw [subtree, waysDown, List.length_cons, List.length_flatMap, Nat.add_comm]
    simp only [ih]
    rfl

def topNodes (t : Tree) : List Node := t.roots.filterMap t.node?

/-- The node lies `k` levels below a root. -/
def AtLevel (t : Tree) (k : Nat) (n : Node) : Prop := ∃ r ∈ t.topNodes, Below t.childrenOf r k n

theorem WellLinked.top (h : t.WellLinked) {r : Node} (hr : r ∈ t.topNodes) :
    t.Has r ∧ r.parent = none := by
  obtain ⟨i, hi, hn⟩ := List.mem_filterMap.mp hr
  obtain ⟨m, hm, hp⟩ := h.root_parent hi
  cases Option.some.inj (hn.symm.trans hm)
  exact ⟨h.has hn, hp⟩

namespace AtLevel

theorem child {k : Nat} {p c : Node} (hp : t.AtLevel k p) (hc : c ∈ t.childrenOf p) :
    t.AtLevel (k + 1) c := by
  obtain ⟨r, hr, hb⟩ := hp
  exact ⟨r, hr, hb.child hc⟩

theorem below {j k : Nat} {x y : Node} (hx : t.AtLevel k x) (hy : Below t.childrenOf x j y) :
    t.AtLevel (k + j) y := by
  obtain ⟨r, hr, hb⟩ := hx
  exact ⟨r, hr, hb.trans hy⟩

theorem has (h : t.WellLinked) {k : Nat} {n : Node} (hn : t.AtLevel k n) : t.Has n := by
  obtain ⟨r, hr, hb⟩ := hn
  exact hb.has h (h.top hr).1

theorem parent {k : Nat} {n : Node} (hn : t.AtLevel (k + 1) n) :
    ∃ p, t.AtLevel k p ∧ n ∈ t.childrenOf p := by
  obtain ⟨r, hr, hb⟩ := hn
  obtain _ | ⟨hp, hc⟩ := hb
  exact ⟨_, ⟨r, hr, hp⟩, hc⟩

theorem top_parent (h : t.WellLinked) {n : Node} (hn : t.AtLevel 0 n) : n.parent = none := by
  obtain ⟨r, hr, hb⟩ := hn
  cases hb
  exact (h.top hr).2

theorem unique (h : t.WellLinked) {j k : Nat} {n : Node} (hk : t.AtLevel k n)
    (hj : t.AtLevel j n) : k = j := by
  -- both levels are counted down along the parents, which are the same
  induction k generalizing j n with
  | zero =>
    cases j with
    | zero => rfl
    | succ j =>
      obtain ⟨p, hp, hc⟩ := hj.parent
      have := (h.child (hp.has h) hc).2
      simp [hk.top_parent h] at this
  | succ k ih =>
    obtain ⟨p, hp, hc⟩ := hk.parent
    have hpar := (h.child (hp.has h) hc).2
    cases j with
    | zero => simp [hj.top_parent h] at hpar
    | succ j =>
      obtain ⟨p', hp', hc'⟩ := hj.parent
      have he := (h.parent?_child (hp.has h) hc).symm.trans (h.parent?_child (hp'.has h) hc')
      cases Option.some.inj he
      rw [ih hp hp']

theorem exists_at {k : Nat} {n : Node} (hn : t.AtLevel k n) {i : Nat} (hi : i ≤ k) :
    ∃ m, t.AtLevel i m := by
  induction k generalizing n with
  | zero =>
    obtain rfl : i = 0 := by omega
    exact ⟨n, hn⟩
  | succ k ih =>
    by_cases he : i = k + 1
    · exact ⟨n, he ▸ hn⟩
    · obtain ⟨p, hp, -⟩ := hn.parent
      exact ih hp (by omega)

theorem lt_size (h : t.WellLinked) {k : Nat} {n : Node} (hn : t.AtLevel k n) : k < t.size := by
  -- one node of each level, and nodes of different levels differ
  choose f hf using fun i : Fin (k + 1) ↦ hn.exists_at (Nat.le_of_lt_succ i.isLt)
  let g (i : Fin (k + 1)) : Fin t.size := ⟨(f i).id, lt_size_of_node? ((hf i).has h)⟩
  have hg : Function.Injective g := by
    intro i j hij
    have he : f i = f j := ((hf i).has h).eq_of_id ((hf j).has h) (Fin.mk.inj hij)
    exact Fin.ext ((hf i).unique h (he ▸ hf j))
  have hc := Fintype.card_le_of_injective g hg
  simp only [Fintype.card_fin] at hc
  omega

end AtLevel

theorem subtree_succ_of_short {d : Nat} {x : Node} (hx : ∀ y, ¬ Below t.childrenOf x d y) :
    t.subtree (d + 1) x = t.subtree d x := by
  induction d generalizing x with
  | zero => exact absurd .refl (hx x)
  | succ d ih =>
    rw [subtree, subtree]
    congr 1
    exact List.flatMap_congr fun c hc ↦ ih fun y hy ↦ hx y (hy.head hc)

/-- No way down from the node has as many links as the tree has nodes. -/
def Shallow (t : Tree) (x : Node) : Prop := ∀ y, ¬ Below t.childrenOf x t.size y

theorem AtLevel.shallow (h : t.WellLinked) {k : Nat} {x : Node} (hx : t.AtLevel k x) :
    t.Shallow x := by
  intro y hy
  have := (hx.below hy).lt_size h
  omega

namespace Shallow

variable {x c : Node}

theorem child (hx : t.Shallow x) (hc : c ∈ t.childrenOf x) : t.Shallow c := by
  intro y hy
  obtain _ | ⟨hp, -⟩ := hy.head hc
  exact hx _ hp

theorem subtree_eq (hx : t.Shallow x) :
    t.subtree t.size x = x :: (t.childrenOf x).flatMap (t.subtree t.size) := by
  rw [← subtree_succ_of_short hx, subtree]

end Shallow

theorem subtree_size (h : t.WellLinked) {k : Nat} {x : Node} (hx : t.AtLevel k x) :
    t.subtree t.size x = x :: (t.childrenOf x).flatMap (t.subtree t.size) :=
  (hx.shallow h).subtree_eq

/-- The walk over pending nodes is the recursive walk over one after the other. -/
theorem walkPending_eq {n : Nat} {pending : List Node} (hp : ∀ x ∈ pending, t.Shallow x)
    (hn : (pending.flatMap (t.subtree t.size)).length = n) :
    t.walkPending n pending = pending.flatMap (t.subtree t.size) := by
  -- the bound is exactly the number of nodes that are still to come
  induction n generalizing pending with
  | zero => rw [walkPending, List.length_eq_zero_iff.mp hn]
  | succ n ih =>
    cases pending with
    | nil => simp at hn
    | cons x pending =>
      have hx := hp x List.mem_cons_self
      have he : (x :: pending).flatMap (t.subtree t.size) =
          x :: (t.childrenOf x ++ pending).flatMap (t.subtree t.size) := by
        rw [List.flatMap_cons, hx.subtree_eq, List.flatMap_append, List.cons_append]
      rw [he] at hn ⊢
      rw [walkPending, ih ?_ (Nat.succ.inj hn)]
      intro y hy
      rcases List.mem_append.mp hy with hy | hy
      · exact hx.child hy
      · exact hp y (List.mem_cons_of_mem _ hy)

theorem preorder_eq_of_shallow (hr : ∀ x ∈ t.topNodes, t.Shallow x) :
    t.preorder = t.topNodes.flatMap (t.subtree t.size) := by
  refine walkPending_eq hr ?_
  rw [walkBound, List.length_flatMap]
  simp only [length_subtree]
  rfl

theorem shallow_of_mem_topNodes (h : t.WellLinked) {x : Node} (hx : x ∈ t.topNodes) :
    t.Shallow x := AtLevel.shallow h ⟨x, hx, .refl⟩

theorem preorder_eq (h : t.WellLinked) :
    t.preorder = t.topNodes.flatMap (t.subtree t.size) :=
  preorder_eq_of_shallow fun _ hx ↦ shallow_of_mem_topNodes h hx

theorem mem_preorder (h : t.WellLinked) {n : Node} :
    n ∈ t.preorder ↔ ∃ k, t.AtLevel k n := by
  rw [preorder_eq h, List.mem_flatMap]
  constructor
  · intro hx
    obtain ⟨r, hr, hn⟩ := hx
    obtain ⟨k, -, hb⟩ := mem_subtree.mp hn
    exact ⟨k, r, hr, hb⟩
  · intro hx
    obtain ⟨k, hn⟩ := hx
    obtain ⟨r, hr, hb⟩ := hn
    have hk := AtLevel.lt_size h ⟨r, hr, hb⟩
    exact ⟨r, hr, mem_subtree.mpr ⟨k, hk.le, hb⟩⟩

theorem has_of_mem_preorder (h : t.WellLinked) {n : Node} (hn : n ∈ t.preorder) : t.Has n := by
  obtain ⟨k, hk⟩ := (mem_preorder h).mp hn
  exact hk.has h

theorem mem_childrenOf_of_childIn? {n c : Node} {r : Role} (hn : t.Has n)
    (hc : t.childIn? n.id r = some c) : c ∈ t.childrenOf n := by
  obtain ⟨-, before, after, he, -⟩ := childIn?_eq_some_iff.mp hc
  rw [← hn.children, he]
  exact List.mem_append_right _ List.mem_cons_self

theorem mem_preorder_of_mem_childrenOf (h : t.WellLinked) {n c : Node} (hn : n ∈ t.preorder)
    (hc : c ∈ t.childrenOf n) : c ∈ t.preorder := by
  obtain ⟨k, hk⟩ := (mem_preorder h).mp hn
  exact (mem_preorder h).mpr ⟨k + 1, hk.child hc⟩

/-- A node is the child of one node only. -/
theorem eq_of_childIn? (h : t.WellLinked) {n m c : Node} {r r' : Role} (hn : t.Has n)
    (hm : t.Has m) (hc : t.childIn? n.id r = some c) (hc' : t.childIn? m.id r' = some c) :
    n = m := by
  have hn' := h.parent?_child hn (mem_childrenOf_of_childIn? hn hc)
  have hm' := h.parent?_child hm (mem_childrenOf_of_childIn? hm hc')
  exact Option.some.inj (hn'.symm.trans hm')

theorem mem_preorder_of_childIn? (h : t.WellLinked) {n c : Node} {r : Role} (hn : n ∈ t.preorder)
    (hc : t.childIn? n.id r = some c) : c ∈ t.preorder :=
  mem_preorder_of_mem_childrenOf h hn
    (mem_childrenOf_of_childIn? (has_of_mem_preorder h hn) hc)

theorem mem_preorder_of_mem_childrenIn (h : t.WellLinked) {n c : Node} {r : Role}
    (hn : n ∈ t.preorder) (hc : c ∈ t.childrenIn n.id r) : c ∈ t.preorder := by
  refine mem_preorder_of_mem_childrenOf h hn ?_
  rw [← (has_of_mem_preorder h hn).children]
  exact (mem_childrenIn.mp hc).1

/-- Nodes of one level have nothing below them in common. -/
theorem nodup_flatMap_subtree (h : t.WellLinked) {k d : Nat} {xs : List Node} (hxs : xs.Nodup)
    (hk : ∀ x ∈ xs, t.AtLevel k x) (hd : ∀ x ∈ xs, (t.subtree d x).Nodup) :
    (xs.flatMap (t.subtree d)).Nodup := by
  refine List.nodup_flatMap.mpr ⟨hd, List.Pairwise.imp_of_mem ?_ hxs⟩
  intro x x' hx hx' hne y hy hy'
  obtain ⟨j, -, hb⟩ := mem_subtree.mp hy
  obtain ⟨j', -, hb'⟩ := mem_subtree.mp hy'
  have hj := ((hk x hx).below hb).unique h ((hk x' hx').below hb')
  obtain rfl : j = j' := by omega
  exact hne (hb.start_unique h ((hk x hx).has h) ((hk x' hx').has h) hb')

theorem nodup_subtree (h : t.WellLinked) {k : Nat} {x : Node} (hx : t.AtLevel k x) (d : Nat) :
    (t.subtree d x).Nodup := by
  induction d generalizing k x with
  | zero => simp [subtree]
  | succ d ih =>
    refine List.nodup_cons.mpr ⟨fun hm ↦ ?_, ?_⟩
    · obtain ⟨c, hc, hm⟩ := List.mem_flatMap.mp hm
      obtain ⟨j, -, hb⟩ := mem_subtree.mp hm
      have := hx.unique h (hx.below (hb.head hc))
      omega
    · exact nodup_flatMap_subtree h (h.nodup_childrenOf (hx.has h)) (fun c hc ↦ hx.child hc)
        fun c hc ↦ ih (hx.child hc)

theorem nodup_preorder (h : t.WellLinked) : t.preorder.Nodup := by
  rw [preorder_eq h]
  have htop (r : Node) (hr : r ∈ t.topNodes) : t.AtLevel 0 r := ⟨r, hr, .refl⟩
  exact nodup_flatMap_subtree h (h.nodup_nodes h.nodup_roots) htop
    fun r hr ↦ nodup_subtree h (htop r hr) t.size

end AnyFlow.Tree
