import AnyFlow.Proofs.Resemblance

namespace AnyFlow

def Node.renumber (f : Nat → Nat) (n : Node) : Node :=
  { n with id := f n.id, parent := n.parent.map f, children := n.children.map f }

namespace Tree

/-- The visited nodes of `t` stand in `t'` under the numbers that `f` gives to them. -/
structure Renumbering (t t' : Tree) (f : Nat → Nat) : Prop where
  injective {n m : Node} (hn : n ∈ t.preorder) (hm : m ∈ t.preorder) (he : f n.id = f m.id) :
    n.id = m.id
  roots : t'.roots = t.roots.map f
  image {n : Node} (hn : n ∈ t.preorder) : ∃ n', t'.node? (f n.id) = some n' ∧
    n'.children = n.children.map f ∧ n'.kind = n.kind ∧ n'.role = n.role ∧ n'.value = n.value ∧
      n'.location = n.location

namespace Renumbering

theorem of_same {t t' : Tree} (hroots : t'.roots = t.roots)
    (hsame : ∀ n ∈ t.preorder, t'.node? n.id = some n) : t.Renumbering t' id where
  injective _ _ he := he
  roots := hroots.trans (List.map_id _).symm
  image hn := ⟨_, hsame _ hn, (List.map_id _).symm, rfl, rfl, rfl, rfl⟩

variable {t t' : Tree} {f : Nat → Nat} {n c : Node} {r : Role} {i : Nat}
  (hr : t.Renumbering t' f) (h : t.WellLinked) (h' : t'.WellLinked)

include hr h h'

theorem node?_image (hn : n ∈ t.preorder) : t'.node? (f n.id) = some (n.renumber f) := by
  obtain ⟨m, hm, hchildren, hkind, hrole, hvalue, hlocation⟩ := hr.image hn
  -- nothing is asked of the parent in `t'`, but its links leave no choice
  have hparent : m.parent = n.parent.map f := by
    rcases exists_visited_parent h hn with ⟨hnone, hroot⟩ | ⟨p, hp, hpar, hmem⟩
    · obtain ⟨m', hm', hp⟩ := h'.root_parent (hr.roots ▸ List.mem_map_of_mem hroot)
      cases Option.some.inj (hm.symm.trans hm')
      rw [hp, hnone, Option.map_none]
    · obtain ⟨q, hq, hqc, -⟩ := hr.image hp
      obtain ⟨m', hm', hp⟩ := h'.parent_of_mem hq (hqc ▸ List.mem_map_of_mem hmem)
      cases Option.some.inj (hm.symm.trans hm')
      rw [hp, hpar, Option.map_some]
  have hid := h'.id_eq hm
  rw [hm, Node.renumber, ← hid, ← hparent, ← hchildren, ← hkind, ← hrole, ← hvalue, ← hlocation]

theorem node?_map (hi : t.Reachable i) : t'.node? (f i) = (t.node? i).map (Node.renumber f) := by
  obtain ⟨n, hn, hin⟩ := mem_preorder_of_reachable h hi
  rw [hin, Option.map_some, ← h.id_eq hin]
  exact hr.node?_image h h' hn

theorem childrenOf_map (hn : n ∈ t.preorder) :
    t'.childrenOf (n.renumber f) = (t.childrenOf n).map (Node.renumber f) := by
  rw [childrenOf, childrenOf, List.map_filterMap, Node.renumber, List.filterMap_map]
  refine List.filterMap_congr fun i hi ↦ hr.node?_map h h' ?_
  exact .child (reachable_of_mem_preorder h hn) (has_of_mem_preorder h hn) hi

theorem children_map (hn : n ∈ t.preorder) :
    t'.children (f n.id) = (t.children n.id).map (Node.renumber f) := by
  rw [children, children, hr.node?_image h h' hn, has_of_mem_preorder h hn]
  exact hr.childrenOf_map h h' hn

theorem childIn?_map (hn : n ∈ t.preorder) :
    t'.childIn? (f n.id) r = (t.childIn? n.id r).map (Node.renumber f) := by
  rw [childIn?, childIn?, hr.children_map h h' hn, List.find?_map]
  rfl

theorem childrenIn_map (hn : n ∈ t.preorder) :
    t'.childrenIn (f n.id) r = (t.childrenIn n.id r).map (Node.renumber f) := by
  rw [childrenIn, childrenIn, hr.children_map h h' hn, List.filter_map]
  rfl

theorem parent?_map (hn : n ∈ t.preorder) :
    t'.parent? (f n.id) = (t.parent? n.id).map (Node.renumber f) := by
  rw [parent?, parent?, hr.node?_image h h' hn, has_of_mem_preorder h hn, Option.bind_some,
    Option.bind_some, Node.renumber]
  rcases exists_visited_parent h hn with ⟨hnone, -⟩ | ⟨p, hp, hpar, -⟩
  · simp [hnone]
  · rw [hpar, Option.map_some, Option.bind_some, Option.bind_some, has_of_mem_preorder h hp]
    exact hr.node?_image h h' hp

theorem nextVisit?_map {stack : List Nat} (hs : ∀ i ∈ stack, t.Reachable i) :
    t'.nextVisit? (stack.map f) =
      (t.nextVisit? stack).map (Prod.map (Node.renumber f) (List.map f)) := by
  cases stack with
  | nil => rfl
  | cons i stack =>
    obtain ⟨n, hn, hin⟩ := mem_preorder_of_reachable h (hs i List.mem_cons_self)
    have hin' : t'.node? (f i) = some (n.renumber f) := by
      rw [hr.node?_map h h' (hs i List.mem_cons_self), hin, Option.map_some]
    rw [List.map_cons, nextVisit?_of_node? hin, nextVisit?_of_node? hin', Option.map_some,
      Prod.map_apply, List.map_append]
    rfl

theorem preorder_map : t'.preorder = t.preorder.map (Node.renumber f) := by
  refine ((walkYields_iff_of_wellLinked h').mp ?_).symm
  have hwalk : t.WalkYields t.preorder := (walkYields_iff_of_wellLinked h).mpr rfl
  rw [WalkYields, pushAll_reverse, List.append_nil] at hwalk ⊢
  rw [hr.roots]
  -- the one stack is the image of the other as long as all its ids can be reached
  refine hwalk.map (P := fun stack ↦ ∀ i ∈ stack, t.Reachable i) (fun stack n later hs hn ↦ ?_)
    (fun stack hs ↦ hr.nextVisit?_map h h' hs) fun i hi ↦ .root hi
  cases stack with
  | nil => simp [nextVisit?] at hn
  | cons i stack =>
    obtain ⟨m, hm, him⟩ := mem_preorder_of_reachable h (hs i List.mem_cons_self)
    rw [nextVisit?_of_node? him] at hn
    obtain ⟨rfl, rfl⟩ := Prod.mk.inj (Option.some.inj hn)
    intro j hj
    rcases List.mem_append.mp hj with hj | hj
    · exact .child (hs i List.mem_cons_self) him hj
    · exact hs j (List.mem_cons_of_mem i hj)

theorem resembles : t.Resembles t' (Node.renumber f) where
  kind_eq _ := rfl
  role_eq _ := rfl
  value_eq _ := rfl
  injective := hr.injective
  parent?_map := hr.parent?_map h h'
  childIn?_map hn _ := hr.childIn?_map h h' hn
  childrenIn_map hn _ := hr.childrenIn_map h h' hn

end Renumbering

end Tree

end AnyFlow
