import Mathlib.Data.List.Chain
import AnyFlow.Proofs.Ascent

namespace AnyFlow

structure Links where
  id : Nat
  parent : Option Nat
  children : List Nat

def Node.links (n : Node) : Links := ⟨n.id, n.parent, n.children⟩

namespace Tree

variable {t t' : Tree} {q r : Option Nat} {i p k : Nat} {l : Links} {n x y : Node}

def links? (t : Tree) (i : Nat) : Option Links := (t.node? i).map Node.links

def parentOf (t : Tree) (i : Nat) : Option Nat := (t.links? i).bind Links.parent

/-- The nodes that name the parent `q`, the oldest first. -/
def offspring (t : Tree) (q : Option Nat) : List Nat :=
  (List.range t.size).filter (t.parentOf · = q)

theorem links?_of_node? (hn : t.node? i = some n) : t.links? i = some n.links := by
  rw [links?, hn, Option.map_some]

theorem parentOf_of_node? (hn : t.node? i = some n) : t.parentOf i = n.parent := by
  rw [parentOf, links?_of_node? hn]
  rfl

theorem exists_node?_of_links? (hl : t.links? i = some l) :
    ∃ n, t.node? i = some n ∧ n.links = l := Option.map_eq_some_iff.mp hl

theorem lt_size_of_links? (hl : t.links? i = some l) : i < t.size := by
  obtain ⟨n, hn, -⟩ := exists_node?_of_links? hl
  exact lt_size_of_node? hn

theorem exists_links?_of_lt (hi : i < t.size) : ∃ l, t.links? i = some l := by
  obtain ⟨n, hn⟩ := exists_node?_of_lt hi
  exact ⟨n.links, links?_of_node? hn⟩

theorem mem_offspring : i ∈ t.offspring q ↔ i < t.size ∧ t.parentOf i = q := by
  rw [offspring, List.mem_filter, List.mem_range, decide_eq_true_iff]

theorem nodup_offspring : (t.offspring q).Nodup := List.nodup_range.filter _

structure SameLinks (t t' : Tree) : Prop where
  size_eq : t'.size = t.size
  roots_eq : t'.roots = t.roots
  links_eq (i : Nat) : t'.links? i = t.links? i

/-- One node is added, as the last child of the node `q` or as the last root. -/
structure Grows (q : Option Nat) (t t' : Tree) : Prop where
  parent_lt {p : Nat} (hp : q = some p) : p < t.size
  size_eq : t'.size = t.size + 1
  roots_eq : t'.roots = t.roots ++ if q = none then [t.size] else []
  links_new : t'.links? t.size = some ⟨t.size, q, []⟩
  links_old {i : Nat} {l : Links} (hl : t.links? i = some l) : t'.links? i =
    some { l with children := l.children ++ if q = some i then [t.size] else [] }

/-- Parents are older than their children, and the roots and the children of each node stand in
the order of their age. -/
structure Grown (t : Tree) : Prop where
  id_eq {i : Nat} {l : Links} (hl : t.links? i = some l) : l.id = i
  parent_lt {i p : Nat} (hp : t.parentOf i = some p) : p < i
  children_eq {p : Nat} {l : Links} (hl : t.links? p = some l) : l.children = t.offspring (some p)
  roots_eq : t.roots = t.offspring none

namespace SameLinks

theorem refl : SameLinks t t := ⟨rfl, rfl, fun _ ↦ rfl⟩

theorem offspring_eq (h : SameLinks t t') (q : Option Nat) : t'.offspring q = t.offspring q := by
  have hp (i : Nat) : t'.parentOf i = t.parentOf i := by rw [parentOf, parentOf, h.links_eq]
  simp only [offspring, h.size_eq, hp]

theorem grown (h : SameLinks t t') (ht : t.Grown) : t'.Grown where
  id_eq hl := ht.id_eq (h.links_eq _ ▸ hl)
  parent_lt hp := ht.parent_lt (by rwa [parentOf, h.links_eq] at hp)
  children_eq hl := by
    rw [h.offspring_eq]
    exact ht.children_eq (h.links_eq _ ▸ hl)
  roots_eq := by rw [h.roots_eq, h.offspring_eq, ht.roots_eq]

theorem modify (t : Tree) {f : Node → Node} (hf : ∀ n, (f n).links = n.links) (i : Nat) :
    SameLinks t { t with nodes := t.nodes.modify i f } where
  size_eq := Array.size_modify
  roots_eq := rfl
  links_eq j := by
    simp only [links?, node?, Array.getElem?_modify]
    split
    · simp only [Option.map_map, Function.comp_def, hf]
    · rfl

end SameLinks

namespace Grows

theorem lt_or_eq (h : Grows q t t') (hl : t'.links? i = some l) : i < t.size ∨ i = t.size := by
  have := lt_size_of_links? hl
  have := h.size_eq
  omega

theorem parentOf_new (h : Grows q t t') : t'.parentOf t.size = q := by
  rw [parentOf, h.links_new]
  rfl

theorem parentOf_old (h : Grows q t t') (hi : i < t.size) : t'.parentOf i = t.parentOf i := by
  obtain ⟨l, hl⟩ := exists_links?_of_lt hi
  rw [parentOf, parentOf, h.links_old hl, hl]
  rfl

theorem offspring_eq (h : Grows q t t') (r : Option Nat) :
    t'.offspring r = t.offspring r ++ if q = r then [t.size] else [] := by
  have hold : (List.range t.size).filter (t'.parentOf · = r) = t.offspring r := by
    refine List.filter_congr fun i hi ↦ ?_
    rw [h.parentOf_old (List.mem_range.mp hi)]
  rw [offspring, h.size_eq, List.range_succ, List.filter_append, hold]
  simp only [List.filter_cons, List.filter_nil, h.parentOf_new, decide_eq_true_iff]

theorem offspring_size_eq_nil (ht : t.Grown) : t.offspring (some t.size) = [] := by
  refine List.eq_nil_iff_forall_not_mem.mpr fun i hi ↦ ?_
  obtain ⟨hlt, hp⟩ := mem_offspring.mp hi
  have := ht.parent_lt hp
  omega

theorem grown (h : Grows q t t') (ht : t.Grown) : t'.Grown where
  id_eq {i l} hl := by
    rcases h.lt_or_eq hl with hi | rfl
    · obtain ⟨l₀, hl₀⟩ := exists_links?_of_lt hi
      cases Option.some.inj ((h.links_old hl₀).symm.trans hl)
      exact ht.id_eq (l := l₀) hl₀
    · cases Option.some.inj (h.links_new.symm.trans hl)
      rfl
  parent_lt {i p} hp := by
    obtain ⟨l, hl, -⟩ := Option.bind_eq_some_iff.mp hp
    rcases h.lt_or_eq hl with hi | rfl
    · exact ht.parent_lt (h.parentOf_old hi ▸ hp)
    · exact h.parent_lt (h.parentOf_new.symm.trans hp)
  children_eq {p l} hl := by
    rw [h.offspring_eq]
    rcases h.lt_or_eq hl with hp | rfl
    · obtain ⟨l₀, hl₀⟩ := exists_links?_of_lt hp
      cases Option.some.inj ((h.links_old hl₀).symm.trans hl)
      rw [ht.children_eq hl₀]
    · cases Option.some.inj (h.links_new.symm.trans hl)
      have hq : q ≠ some t.size := fun hq ↦ Nat.lt_irrefl _ (h.parent_lt hq)
      rw [offspring_size_eq_nil ht, if_neg hq]
      rfl
  roots_eq := by rw [h.roots_eq, h.offspring_eq, ht.roots_eq]

end Grows

namespace Grown

theorem children (h : t.Grown) (hn : t.node? i = some n) :
    n.children = t.offspring (some i) := h.children_eq (links?_of_node? hn)

theorem parent_of_mem (h : t.Grown) (hn : t.node? i = some n) {c : Nat} (hc : c ∈ n.children) :
    ∃ m, t.node? c = some m ∧ m.parent = some i := by
  rw [h.children hn] at hc
  obtain ⟨hlt, hp⟩ := mem_offspring.mp hc
  obtain ⟨m, hm⟩ := exists_node?_of_lt hlt
  exact ⟨m, hm, (parentOf_of_node? hm).symm.trans hp⟩

theorem wellLinked (h : t.Grown) : t.WellLinked where
  id_eq hn := h.id_eq (links?_of_node? hn)
  parent_of_mem hn hc := h.parent_of_mem hn hc
  mem_of_parent {i p n} hn hp := by
    have hpar := (parentOf_of_node? hn).trans hp
    have hlt := lt_size_of_node? hn
    obtain ⟨m, hm⟩ := exists_node?_of_lt ((h.parent_lt hpar).trans hlt)
    exact ⟨m, hm, h.children hm ▸ mem_offspring.mpr ⟨hlt, hpar⟩⟩
  nodup_children := nodup_allChildren (fun _ _ hn _ hc ↦ h.parent_of_mem hn hc) fun _ _ hn ↦
    h.children hn ▸ nodup_offspring
  root_parent {r} hr := by
    rw [h.roots_eq] at hr
    obtain ⟨hlt, hp⟩ := mem_offspring.mp hr
    obtain ⟨n, hn⟩ := exists_node?_of_lt hlt
    exact ⟨n, hn, (parentOf_of_node? hn).symm.trans hp⟩
  nodup_roots := h.roots_eq ▸ nodup_offspring

theorem id_add_le_of_below (h : t.Grown) (hx : t.Has x) (hy : Below t.childrenOf x k y) :
    x.id + k ≤ y.id := by
  induction hy with
  | refl => exact Nat.le_refl _
  | @child k p c hp hc ih =>
    have hph := hp.has h.wellLinked hx
    obtain ⟨hch, hpar⟩ := h.wellLinked.child hph hc
    have := h.parent_lt ((parentOf_of_node? hch).trans hpar)
    omega

theorem not_onRing (h : t.Grown) (x : Node) : ¬ OnRing t.childrenOf x := by
  intro hr
  have hx := hr.has h.wellLinked
  obtain ⟨k, hk⟩ := hr
  have := h.id_add_le_of_below hx hk
  omega

theorem mem_preorder (h : t.Grown) (hn : t.Has n) : n ∈ t.preorder := by
  refine mem_preorder_of_no_ring h.wellLinked (fun x hx hp ↦ ?_) h.not_onRing hn
  rw [h.roots_eq]
  exact mem_offspring.mpr ⟨lt_size_of_node? hx, (parentOf_of_node? hx).trans hp⟩

theorem perm_preorder (h : t.Grown) : (t.preorder.map Node.id).Perm (List.range t.size) := by
  refine (List.perm_ext_iff_of_nodup (nodup_map_preorder h.wellLinked) List.nodup_range).mpr
    fun i ↦ ?_
  rw [List.mem_map, List.mem_range]
  constructor
  · intro hi
    obtain ⟨n, hn, rfl⟩ := hi
    exact lt_size_of_node? (has_of_mem_preorder h.wellLinked hn)
  · intro hi
    obtain ⟨n, hn⟩ := exists_node?_of_lt hi
    exact ⟨n, h.mem_preorder (h.wellLinked.has hn), h.wellLinked.id_eq hn⟩

theorem ascent_decreases (h : t.Grown) {as : List Node} (has : t.AscentYields i as) :
    (i :: as.map Node.id).Pairwise (· > ·) := by
  rw [← List.isChain_iff_pairwise]
  induction as generalizing i with
  | nil => exact List.isChain_singleton i
  | cons p as ih =>
    obtain ⟨hp, hlater⟩ := Loop.yields_follow_cons_iff.mp has
    obtain ⟨n, hn, hp⟩ := Option.bind_eq_some_iff.mp hp
    obtain ⟨j, hj, hp⟩ := Option.bind_eq_some_iff.mp hp
    have hlt : p.id < i := by
      rw [h.wellLinked.id_eq hp]
      exact h.parent_lt ((parentOf_of_node? hn).trans hj)
    exact List.isChain_cons_cons.mpr ⟨hlt, ih hlater⟩

theorem ascent_ancestors (h : t.Grown) (hi : i < t.size) :
    t.AscentYields i (t.ancestors i) ∧ (i :: (t.ancestors i).map Node.id).Pairwise (· > ·) ∧
      ((t.ancestors i).map Node.id).getLastD i ∈ t.roots := by
  obtain ⟨n, hn⟩ := exists_node?_of_lt hi
  have hid := h.wellLinked.id_eq hn
  obtain ⟨as, has, hroot⟩ :=
    (mem_preorder_iff_ascent h.wellLinked (h.wellLinked.has hn)).mp
      (h.mem_preorder (h.wellLinked.has hn))
  rw [hid] at has
  rw [has.ancestors_eq]
  refine ⟨has, h.ascent_decreases has, ?_⟩
  rw [← hid, List.getLastD_map]
  exact hroot

end Grown

end Tree

namespace Builder

variable {b : Builder}

def adds? (b : Builder) : BuildStep → Option (Option Nat)
  | .root _ => some none
  | .child parent _ _ => if parent < b.tree.size then some (some parent) else none
  | _ => none

theorem tree_mapNodes (b : Builder) (f : Array Node → Array Node) :
    (b.mapNodes f).tree = { b.tree with nodes := f b.tree.nodes } := rfl

theorem grows_root (b : Builder) (kind : Kind) : Tree.Grows none b.tree (b.root kind).tree where
  parent_lt hp := by cases hp
  size_eq := Array.size_push ..
  roots_eq := rfl
  links_new := congrArg (Option.map Node.links) Array.getElem?_push_size
  links_old {i l} hl := by
    have hne : i ≠ b.tree.nodes.size := (Tree.lt_size_of_links? hl).ne
    have hold : (b.root kind).tree.node? i = b.tree.node? i := by
      rw [Tree.node?, root, Array.getElem?_push, if_neg hne]
      rfl
    rw [Tree.links?, hold, ← Tree.links?, hl, if_neg (by simp), List.append_nil]

theorem grows_addChild (b : Builder) {p : Nat} (role : Role) (kind : Kind)
    (hp : p < b.tree.size) : Tree.Grows (some p) b.tree (b.addChild p role kind).tree where
  parent_lt hq := Option.some.inj hq ▸ hp
  size_eq := by
    rw [addChild, tree_mapNodes, Tree.size, Array.size_push, Array.size_modify]
    rfl
  roots_eq := (List.append_nil _).symm
  links_new := by
    rw [addChild, tree_mapNodes, Tree.links?, Tree.node?, Array.getElem?_push, Array.size_modify]
    exact congrArg (Option.map Node.links) (if_pos rfl)
  links_old {i l} hl := by
    have hne : i ≠ b.tree.nodes.size := (Tree.lt_size_of_links? hl).ne
    obtain ⟨n, hn, rfl⟩ := Tree.exists_node?_of_links? hl
    rw [Tree.node?] at hn
    rw [addChild, tree_mapNodes, Tree.links?, Tree.node?, Array.getElem?_push, Array.size_modify,
      if_neg hne, Array.getElem?_modify, hn]
    by_cases he : p = i
    · simp [he, Node.links, nextId]
    · simp [he, Node.links]

theorem perform_cases (b : Builder) (s : BuildStep) :
    (∃ q, b.adds? s = some q ∧ Tree.Grows q b.tree (b.perform s).tree) ∨
      (b.adds? s = none ∧ Tree.SameLinks b.tree (b.perform s).tree) := by
  cases s with
  | position line column => exact .inr ⟨rfl, .refl⟩
  | root kind => exact .inl ⟨none, rfl, grows_root b kind⟩
  | child parent role kind =>
    by_cases hp : parent < b.tree.size
    · refine .inl ⟨some parent, if_pos hp, ?_⟩
      rw [perform, if_pos hp]
      exact grows_addChild b role kind hp
    · refine .inr ⟨if_neg hp, ?_⟩
      rw [perform, if_neg hp]
      exact .refl
  | value id value =>
    exact .inr ⟨rfl, .modify b.tree (f := fun n ↦ { n with value := value }) (fun _ ↦ rfl) id⟩
  | span id span =>
    exact .inr ⟨rfl, .modify b.tree (f := fun n ↦ { n with location.span := span })
      (fun _ ↦ rfl) id⟩

theorem grown_perform (h : b.tree.Grown) (s : BuildStep) : (b.perform s).tree.Grown := by
  rcases perform_cases b s with ⟨q, -, hq⟩ | ⟨-, hs⟩
  · exact hq.grown h
  · exact hs.grown h

theorem grown_performAll (h : b.tree.Grown) (steps : List BuildStep) :
    (b.performAll steps).tree.Grown := by
  induction steps generalizing b with
  | nil => exact h
  | cons s steps ih => exact ih (grown_perform h s)

theorem grown_new (file : String) : (Builder.new file).tree.Grown where
  id_eq hl := by simp [new, Tree.links?, Tree.node?] at hl
  parent_lt hp := by simp [new, Tree.parentOf, Tree.links?, Tree.node?] at hp
  children_eq hl := by simp [new, Tree.links?, Tree.node?] at hl
  roots_eq := rfl

theorem mapNodes_modify_unknown {id : Nat} (hid : b.tree.size ≤ id) (f : Node → Node) :
    (b.mapNodes fun nodes ↦ nodes.modify id f) = b := by
  have hnodes : b.tree.nodes.modify id f = b.tree.nodes := by
    refine Array.ext_getElem? fun i ↦ ?_
    rw [Array.getElem?_modify]
    split
    · rename_i he
      rw [Array.getElem?_eq_none (he ▸ hid), Option.map_none]
    · rfl
  exact congrArg (fun nodes ↦ Builder.mk ⟨b.tree.file, b.tree.roots, nodes⟩ b.line b.column) hnodes

theorem child_unknown {id : Nat} (hid : b.tree.size ≤ id) (role : Role) (kind : Kind) :
    b.child id role kind = .error ⟨id⟩ ∧ b.perform (.child id role kind) = b :=
  ⟨if_neg (Nat.not_lt.mpr hid), if_neg (Nat.not_lt.mpr hid)⟩

theorem child_known {id : Nat} (hid : id < b.tree.size) (role : Role) (kind : Kind) :
    b.child id role kind = .ok (b.perform (.child id role kind)) := by
  rw [child, perform, if_pos hid, if_pos hid]

/-- Whatever steps a builder is led through, its tree is accepted, and it is a forest in which
nothing is lost: the walk down visits every node once, and each way up leads over older nodes to
a listed root. Steps that name an unknown node change nothing. -/
theorem performAll_forest (file : String) (steps : List BuildStep) :
    let b := (Builder.new file).performAll steps
    let t := b.tree
    t.checkLinks = .ok () ∧
    t.roots = t.offspring none ∧
    (∀ i n p, t.node? i = some n → n.parent = some p → p < i) ∧
    (∀ i n, t.node? i = some n → n.children = t.offspring (some i)) ∧
    (t.WalkYields t.preorder ∧ (t.preorder.map Node.id).Perm (List.range t.size)) ∧
    (∀ i < t.size, t.AscentYields i (t.ancestors i) ∧
      (i :: (t.ancestors i).map Node.id).Pairwise (· > ·) ∧
      ((t.ancestors i).map Node.id).getLastD i ∈ t.roots) ∧
    (∀ id < t.size, ∀ role kind,
      b.child id role kind = .ok (b.perform (.child id role kind))) ∧
    ∀ id, t.size ≤ id →
      (∀ role kind, b.child id role kind = .error ⟨id⟩ ∧ b.perform (.child id role kind) = b) ∧
      (∀ value, b.perform (.value id value) = b) ∧ ∀ span, b.perform (.span id span) = b := by
  intro b t
  have h : t.Grown := grown_performAll (grown_new file) steps
  exact ⟨Tree.checkLinks_eq_ok_iff.mpr h.wellLinked, h.roots_eq,
    fun i n p hn hp ↦ h.parent_lt ((Tree.parentOf_of_node? hn).trans hp),
    fun i n hn ↦ h.children hn,
    ⟨(Tree.walkYields_iff_of_wellLinked h.wellLinked).mpr rfl, h.perm_preorder⟩,
    fun i hi ↦ h.ascent_ancestors hi, fun id hid role kind ↦ child_known hid role kind,
    fun id hid ↦ ⟨fun role kind ↦ child_unknown hid role kind,
      fun value ↦ mapNodes_modify_unknown hid _, fun span ↦ mapNodes_modify_unknown hid _⟩⟩

end Builder

end AnyFlow
