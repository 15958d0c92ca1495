import AnyFlow.Proofs.Ascent
import AnyFlow.Proofs.Matching

namespace AnyFlow

namespace Tree

section Visited

variable {t : Tree} {n p c : Node} {i : Nat}

theorem mem_preorder_of_reachable (h : t.WellLinked) (hi : t.Reachable i) :
    ∃ n ∈ t.preorder, t.node? i = some n := by
  obtain ⟨n, k, hn, hk⟩ := exists_atLevel_of_reachable h hi
  exact ⟨n, (mem_preorder h).mpr ⟨k, hk⟩, hn⟩

theorem reachable_of_mem_preorder (h : t.WellLinked) (hn : n ∈ t.preorder) : t.Reachable n.id :=
  (mem_map_preorder_iff h).mp (List.mem_map_of_mem hn)

theorem exists_visited_parent (h : t.WellLinked) (hn : n ∈ t.preorder) :
    (n.parent = none ∧ n.id ∈ t.roots) ∨
      ∃ p ∈ t.preorder, n.parent = some p.id ∧ n.id ∈ p.children := by
  obtain ⟨k, hk⟩ := (mem_preorder h).mp hn
  cases k with
  | zero => exact .inl ⟨hk.top_parent h, hk.mem_roots h⟩
  | succ k =>
    obtain ⟨p, hp, hc⟩ := hk.parent
    obtain ⟨i, hi, hin⟩ := mem_childrenOf.mp hc
    rw [← h.id_eq hin] at hi
    exact .inr ⟨p, (mem_preorder h).mpr ⟨k, hp⟩, (h.child (hp.has h) hc).2, hi⟩

theorem mem_preorder_of_parent? (h : t.WellLinked) (hn : n ∈ t.preorder)
    (hp : t.parent? n.id = some p) : p ∈ t.preorder := by
  rw [parent?, has_of_mem_preorder h hn, Option.bind_some] at hp
  rcases exists_visited_parent h hn with ⟨hnone, -⟩ | ⟨q, hq, hpar, -⟩
  · simp [hnone] at hp
  · rw [hpar, Option.bind_some, has_of_mem_preorder h hq] at hp
    exact Option.some.inj hp ▸ hq

theorem mem_preorder_of_mem_ancestorsUpTo (h : t.WellLinked) {m : Nat} (hn : n ∈ t.preorder)
    (hp : p ∈ t.ancestorsUpTo m n.id) : p ∈ t.preorder := by
  induction m generalizing n with
  | zero => simp [ancestorsUpTo] at hp
  | succ m ih =>
    rw [ancestorsUpTo] at hp
    split at hp
    · rename_i q hq
      have hqv := mem_preorder_of_parent? h hn hq
      rcases List.mem_cons.mp hp with rfl | hp
      · exact hqv
      · exact ih hqv hp
    · simp at hp

theorem mem_preorder_of_patternExit? (h : t.WellLinked) (hn : n ∈ t.preorder)
    (he : t.patternExit? n = some (c, p)) : c ∈ t.preorder ∧ p ∈ t.preorder := by
  obtain ⟨hc, hp⟩ := List.of_mem_zip (List.mem_of_find?_eq_some he)
  refine ⟨?_, mem_preorder_of_mem_ancestorsUpTo h hn hp⟩
  rcases List.mem_cons.mp hc with rfl | hc
  · exact hn
  · exact mem_preorder_of_mem_ancestorsUpTo h hn hc

end Visited

/-- The visited nodes of `t` have images in `t'`, which differ from them at most in their numbers,
their links and their locations. The parent of an image is the image of the parent, and so are the
children in a role. Only the type annotations may be others. -/
structure Resembles (t t' : Tree) (g : Node → Node) : Prop where
  kind_eq (n : Node) : (g n).kind = n.kind
  role_eq (n : Node) : (g n).role = n.role
  value_eq (n : Node) : (g n).value = n.value
  injective {n m : Node} (hn : n ∈ t.preorder) (hm : m ∈ t.preorder) (he : (g n).id = (g m).id) :
    n.id = m.id
  parent?_map {n : Node} (hn : n ∈ t.preorder) : t'.parent? (g n).id = (t.parent? n.id).map g
  childIn?_map {n : Node} {r : Role} (hn : n ∈ t.preorder) (hr : r ≠ .typeAscription) :
    t'.childIn? (g n).id r = (t.childIn? n.id r).map g
  childrenIn_map {n : Node} {r : Role} (hn : n ∈ t.preorder) (hr : r ≠ .typeAscription) :
    t'.childrenIn (g n).id r = (t.childrenIn n.id r).map g

namespace Resembles

variable {t t' : Tree} {g : Node → Node} {n : Node} (hg : t.Resembles t' g) (h : t.WellLinked)

include hg

theorem text?_eq (n : Node) : (g n).text? = n.text? := congrArg Json.Value.text? (hg.value_eq n)

theorem isIdentifier_eq (n : Node) (name : String) :
    (g n).isIdentifier name = n.isIdentifier name := by
  rw [Node.isIdentifier, Node.isIdentifier, hg.kind_eq, hg.text?_eq]

theorem isNullLiteral_eq (n : Node) : (g n).isNullLiteral = n.isNullLiteral := by
  rw [Node.isNullLiteral, Node.isNullLiteral, hg.kind_eq, hg.value_eq]

theorem isPatternLink_eq (child parent : Node) :
    isPatternLink (g child) (g parent) = isPatternLink child parent := by
  rw [isPatternLink, isPatternLink, hg.kind_eq, hg.role_eq]

include h

theorem ancestors_map (hn : n ∈ t.preorder) : t'.ancestors (g n).id = (t.ancestors n.id).map g := by
  obtain ⟨k, hk⟩ := (mem_preorder h).mp hn
  obtain ⟨as, has, -⟩ := hk.exists_ascent h
  have hup : t'.AscentYields (g n).id (as.map g) := by
    rw [AscentYields, hg.parent?_map hn]
    refine has.map (P := fun s ↦ ∀ m ∈ s, m ∈ t.preorder) (fun s a later hs hnext m hm ↦ ?_)
      (fun s hs ↦ ?_) fun m hm ↦ mem_preorder_of_parent? h hn hm
    · obtain ⟨b, hb, he⟩ := Option.map_eq_some_iff.mp hnext
      obtain ⟨rfl, rfl⟩ := Prod.mk.inj he
      exact mem_preorder_of_parent? h (hs b hb) hm
    · cases s with
      | none => rfl
      | some m => exact congrArg (fun p ↦ some (g m, p)) (hg.parent?_map (hs m rfl))
  rw [has.ancestors_eq]
  exact AscentYields.ancestors_eq hup

theorem patternExit?_map (hn : n ∈ t.preorder) :
    t'.patternExit? (g n) = (t.patternExit? n).map (Prod.map g g) := by
  have hlinks : t'.linksAbove (g n) = (t.linksAbove n).map (Prod.map g g) := by
    rw [linksAbove, linksAbove, hg.ancestors_map h hn, ← List.map_cons, List.zip_map]
  have hexits (l : Node × Node) : (!isPatternLink (g l.1) (g l.2)) = !isPatternLink l.1 l.2 :=
    congrArg Bool.not (hg.isPatternLink_eq l.1 l.2)
  rw [patternExit?, patternExit?, hlinks, List.find?_map]
  exact congrArg (fun p ↦ ((t.linksAbove n).find? p).map (Prod.map g g)) (funext hexits)

theorem destructuringDeclarator?_map (hn : n ∈ t.preorder) :
    t'.destructuringDeclarator? (g n) = (t.destructuringDeclarator? n).map g := by
  rw [destructuringDeclarator?, destructuringDeclarator?, hg.patternExit?_map h hn, hg.kind_eq]
  by_cases hk : n.kind = .identifier
  · rw [if_neg (not_not.mpr hk), if_neg (not_not.mpr hk)]
    cases he : t.patternExit? n with
    | none => rfl
    | some link =>
      obtain ⟨c, p⟩ := link
      obtain ⟨hc, hp⟩ := mem_preorder_of_patternExit? h hn he
      have hne : (g c).id ≠ (g n).id ↔ c.id ≠ n.id := by
        refine not_congr ⟨hg.injective hc hn, fun hid ↦ ?_⟩
        rw [(has_of_mem_preorder h hc).eq_of_id (has_of_mem_preorder h hn) hid]
      simp only [Option.map_some, Prod.map_apply, hg.childIn?_map hp, hg.kind_eq, hg.role_eq,
        Option.isSome_map, hne, ne_eq, reduceCtorEq, not_false_eq_true]
      rw [apply_ite (Option.map g)]
      rfl
  · rw [if_pos hk, if_pos hk, Option.map_none]

end Resembles

end Tree

namespace Rule

variable {t t' : Tree} {g : Node → Node} {n : Node} (hg : t.Resembles t' g) (h : t.WellLinked)

include hg h

theorem matchingDeclarator_map (hn : n ∈ t.preorder) :
    matchingDeclarator t' (g n) = matchingDeclarator t n := by
  rw [matchingDeclarator, matchingDeclarator, hg.parent?_map hn, hg.childIn?_map hn (by decide),
    Option.isSome_map]
  cases hd : t.parent? n.id with
  | none => rfl
  | some d =>
    have hloop : isLoopDeclaration t' (g d) = isLoopDeclaration t d := by
      rw [isLoopDeclaration, isLoopDeclaration,
        hg.parent?_map (Tree.mem_preorder_of_parent? h hn hd), hg.role_eq, Option.any_map]
      simp only [hg.kind_eq]
    simp only [Option.map_some, hloop, hg.kind_eq]

theorem matching_map (hn : n ∈ t.preorder) : matching t' (g n) = matching t n := by
  have hchild {r : Role} (hr : r ≠ .typeAscription) (rule : Rule) :
      ifChild t' (g n) r rule = ifChild t n r rule := by
    rw [ifChild, ifChild, hg.childIn?_map hn hr, Option.isSome_map]
  rw [matching, matching, matchingDeclarator_map hg h hn, hg.destructuringDeclarator?_map h hn,
    hchild (by decide), hchild (by decide), hchild (by decide), hg.childIn?_map hn (by decide),
    hg.kind_eq, Option.isSome_map, Option.any_map]
  simp only [hg.kind_eq]

end Rule

namespace Context

/-- The trees resemble each other, and the images have the types of the visited nodes. A finding
on the image of a node is the image under `φ` of the finding on the node. -/
structure Resembles (cx cx' : Context) (g : Node → Node) (φ : Finding → Finding) : Prop where
  linked : cx.tree.WellLinked
  tree : cx.tree.Resembles cx'.tree g
  type?_eq {n : Node} (hn : n ∈ cx.tree.preorder) : cx'.oracle.type? (g n) = cx.oracle.type? n
  options_eq : cx'.options = cx.options
  ofNode_eq (n : Node) (m : Message) (data : List (String × String)) :
    .ofNode (g n) m data = φ (.ofNode n m data)

namespace Resembles

variable {cx cx' : Context} {g : Node → Node} {φ : Finding → Finding} {n c p : Node} {r : Role}
  {rule : Rule} {k : VariableKind} (h : cx.Resembles cx' g φ)

include h

theorem childIn?_eq_some (hn : n ∈ cx.tree.preorder) (hr : r ≠ .typeAscription)
    (hc : cx.tree.childIn? n.id r = some c) : cx'.tree.childIn? (g n).id r = some (g c) := by
  rw [h.tree.childIn?_map hn hr, hc, Option.map_some]

theorem childIn?_eq_none (hn : n ∈ cx.tree.preorder) (hr : r ≠ .typeAscription)
    (hc : cx.tree.childIn? n.id r = none) : cx'.tree.childIn? (g n).id r = none := by
  rw [h.tree.childIn?_map hn hr, hc, Option.map_none]

theorem exposure_eq (hn : n ∈ cx.tree.preorder) :
    cx'.oracle.exposure (g n) = cx.oracle.exposure n := by
  rw [Oracle.exposure, Oracle.exposure, h.type?_eq hn]

theorem leaks_eq (hn : n ∈ cx.tree.preorder) : cx'.leaks (g n) = cx.leaks n := by
  rw [leaks, leaks, h.exposure_eq hn]

theorem declares (hn : n ∈ cx.tree.preorder) (hd : Rule.Declares cx.tree n k p) :
    Rule.Declares cx'.tree (g n) k (g p) := by
  refine ⟨(h.tree.kind_eq n).trans hd.1, ?_, (h.tree.kind_eq p).trans hd.2.2⟩
  rw [h.tree.parent?_map hn, hd.2.1, Option.map_some]

theorem isLengthOnly_map {args : List Node} (ha : ∀ arg ∈ args, arg ∈ cx.tree.preorder) :
    cx'.isLengthOnly (args.map g) = cx.isLengthOnly args := by
  match args with
  | [] => rfl
  | [arg] =>
    rw [List.map_singleton, isLengthOnly, isLengthOnly, h.type?_eq (ha arg List.mem_cons_self),
      h.tree.kind_eq]
  | _ :: _ :: _ => rfl

theorem buildsAnyArray_map (hn : n ∈ cx.tree.preorder) :
    cx'.buildsAnyArray (g n) = cx.buildsAnyArray n := by
  have hconstructor : cx'.isArrayConstructor (g n) = cx.isArrayConstructor n := by
    rw [isArrayConstructor, isArrayConstructor, h.tree.childIn?_map hn (by decide),
      h.tree.childIn?_map hn (by decide), Option.any_map, Option.isNone_map]
    simp only [h.tree.isIdentifier_eq]
  rw [buildsAnyArray, buildsAnyArray, hconstructor, isTypedElsewhere, isTypedElsewhere,
    h.type?_eq hn, h.tree.childrenIn_map hn (by decide),
    h.isLengthOnly_map fun arg ↦ Tree.mem_preorder_of_mem_childrenIn h.linked hn]

theorem startsAsAnyArray_map (hn : n ∈ cx.tree.preorder) :
    cx'.startsAsAnyArray (g n) = cx.startsAsAnyArray n := by
  rw [startsAsAnyArray, startsAsAnyArray, h.buildsAnyArray_map hn,
    h.tree.childIn?_map hn (by decide), Option.isNone_map, h.tree.kind_eq]

theorem foundBy_declarator (hn : n ∈ cx.tree.preorder) (hr : rule ∈ Rule.declaratorRules)
    (ha : rule.Applies cx.tree n)
    (hb : ∀ b, cx.tree.childIn? n.id .id = some b → cx'.isAnnotated (g b) = cx.isAnnotated b) :
    cx'.foundBy (g n) rule = (cx.foundBy n rule).map φ := by
  cases hid : cx.tree.childIn? n.id .id with
  | none =>
    rw [foundBy_of_no_id rule hr hid,
      foundBy_of_no_id rule hr (h.childIn?_eq_none hn (by decide) hid)]
    rfl
  | some b =>
    have hid' := h.childIn?_eq_some hn (by decide) hid
    have hannotated := hb b hid
    simp only [Rule.declaratorRules, List.mem_cons, List.not_mem_nil, or_false] at hr
    rcases hr with rfl | rfl | rfl | rfl
    · obtain ⟨k, p, hd, -⟩ := ha
      rw [foundBy_uninitializedLet (variableKind_of_declares hd) hid,
        foundBy_uninitializedLet (variableKind_of_declares (h.declares hn hd)) hid', hannotated,
        apply_ite (List.map _), List.map_singleton, ← h.ofNode_eq]
      rfl
    · obtain ⟨k, p, init, hd, -, hi⟩ := ha
      rw [foundBy_nullishLet hid hi (variableKind_of_declares hd),
        foundBy_nullishLet hid' (h.childIn?_eq_some hn (by decide) hi)
          (variableKind_of_declares (h.declares hn hd)), hannotated, h.tree.isNullLiteral_eq,
        h.tree.isIdentifier_eq, apply_ite (List.map _), List.map_singleton, ← h.ofNode_eq]
      rfl
    · obtain ⟨k, p, init, -, hi⟩ := ha
      rw [foundBy_unsafeInitializer hid hi,
        foundBy_unsafeInitializer hid' (h.childIn?_eq_some hn (by decide) hi), hannotated,
        h.exposure_eq (Tree.mem_preorder_of_childIn? h.linked hn hi), h.options_eq,
        h.tree.kind_eq]
      simp only [apply_ite (List.map φ), List.map_singleton, List.map_nil, ← h.ofNode_eq]
    · obtain ⟨k, p, init, -, hi⟩ := ha
      rw [foundBy_implicitAnyArray hid hi,
        foundBy_implicitAnyArray hid' (h.childIn?_eq_some hn (by decide) hi), hannotated,
        h.startsAsAnyArray_map (Tree.mem_preorder_of_childIn? h.linked hn hi),
        apply_ite (List.map _), List.map_singleton, ← h.ofNode_eq]
      rfl

theorem map_leaking {f f' : Node → Finding} (hn : n ∈ cx.tree.preorder)
    (hr : r ≠ .typeAscription) (hf : ∀ c, f' (g c) = φ (f c)) :
    ((cx'.tree.childIn? (g n).id r).toList.filter cx'.leaks).map f' =
      (((cx.tree.childIn? n.id r).toList.filter cx.leaks).map f).map φ := by
  rw [h.tree.childIn?_map hn hr]
  cases hc : cx.tree.childIn? n.id r with
  | none => rfl
  | some c =>
    have hleaks := h.leaks_eq (Tree.mem_preorder_of_childIn? h.linked hn hc)
    by_cases hl : cx.leaks c <;> simp [hleaks, hl, hf]

theorem foundBy_loopBinding (hn : n ∈ cx.tree.preorder) :
    cx'.foundBy (g n) .loopBinding = (cx.foundBy n .loopBinding).map φ := by
  cases hl : cx.tree.childIn? n.id .left with
  | none =>
    rw [foundBy_loopBinding_of_none (.inl hl),
      foundBy_loopBinding_of_none (.inl (h.childIn?_eq_none hn (by decide) hl))]
    rfl
  | some left =>
    cases hr : cx.tree.childIn? n.id .right with
    | none =>
      rw [foundBy_loopBinding_of_none (.inr hr),
        foundBy_loopBinding_of_none (.inr (h.childIn?_eq_none hn (by decide) hr))]
      rfl
    | some right =>
      rw [Context.foundBy_loopBinding hl hr,
        Context.foundBy_loopBinding (h.childIn?_eq_some hn (by decide) hl)
          (h.childIn?_eq_some hn (by decide) hr),
        h.type?_eq (Tree.mem_preorder_of_childIn? h.linked hn hr), apply_ite (List.map _),
        List.map_singleton, ← h.ofNode_eq]
      rfl

theorem foundBy_callArguments (hn : n ∈ cx.tree.preorder) :
    cx'.foundBy (g n) .callArguments = (cx.foundBy n .callArguments).map φ := by
  have hleaks (x : Node × Nat) (hx : x ∈ (cx.tree.childrenIn n.id .arguments).zipIdx) :
      cx'.leaks (g x.1) = cx.leaks x.1 :=
    h.leaks_eq (Tree.mem_preorder_of_mem_childrenIn h.linked hn (List.fst_mem_of_mem_zipIdx hx))
  rw [Context.foundBy_callArguments, Context.foundBy_callArguments,
    h.tree.childrenIn_map hn (by decide), List.zipIdx_map, List.filter_map, List.map_map,
    List.map_map, ← List.filter_congr hleaks]
  exact List.map_congr_left fun x _ ↦ h.ofNode_eq n _ _

theorem foundBy_named {m : Message} {key : String} (hn : n ∈ cx.tree.preorder) :
    (if cx'.oracle.exposure (g n) = .any then
      (g n).text?.toList.map fun name ↦ .ofNode (g n) m [(key, name)]
    else []) = (if cx.oracle.exposure n = .any then
      n.text?.toList.map fun name ↦ .ofNode n m [(key, name)]
    else []).map φ := by
  rw [h.exposure_eq hn, h.tree.text?_eq, apply_ite (List.map _), List.map_map]
  simp only [h.ofNode_eq]
  rfl

/-- A rule that applies to a node finds the same on its image. -/
theorem foundBy_eq (hn : n ∈ cx.tree.preorder) (ha : rule.Applies cx.tree n)
    (hb : rule ∈ Rule.declaratorRules → ∀ b, cx.tree.childIn? n.id .id = some b →
      cx'.isAnnotated (g b) = cx.isAnnotated b) :
    cx'.foundBy (g n) rule = (cx.foundBy n rule).map φ := by
  have hkind := h.tree.kind_eq n
  cases rule with
  | uninitializedLet | nullishLet | unsafeInitializer | implicitAnyArray =>
    exact h.foundBy_declarator hn (by decide) ha (hb (by decide))
  | typeReference =>
    rw [foundBy_typeReference, foundBy_typeReference]
    exact h.foundBy_named hn
  | patternBinding =>
    rw [foundBy_patternBinding, foundBy_patternBinding]
    exact h.foundBy_named hn
  | loopBinding => exact h.foundBy_loopBinding hn
  | returnValue =>
    rcases ha with ⟨hk, -⟩ | ⟨hk, -⟩
    · rw [foundBy_returnStatement hk, foundBy_returnStatement (hkind.trans hk)]
      exact h.map_leaking hn (by decide) fun _ ↦ h.ofNode_eq n _ _
    · rw [foundBy_arrowFunction hk, foundBy_arrowFunction (hkind.trans hk)]
      exact h.map_leaking hn (by decide) fun body ↦ h.ofNode_eq body _ _
  | callArguments => exact h.foundBy_callArguments hn
  | assignedValue =>
    obtain ⟨operator, hk⟩ := ha
    rw [foundBy_assignedValue hk, foundBy_assignedValue (hkind.trans hk)]
    exact h.map_leaking hn (by decide) fun _ ↦ h.ofNode_eq n _ _
  | updatedValue =>
    obtain ⟨operator, leading, hk⟩ := ha
    rw [foundBy_updatedValue hk, foundBy_updatedValue (hkind.trans hk)]
    exact h.map_leaking hn (by decide) fun _ ↦ h.ofNode_eq n _ _
  | booleanTest =>
    rw [foundBy_booleanTest, foundBy_booleanTest]
    exact h.map_leaking hn (by decide) fun c ↦ h.ofNode_eq c _ _
  | switchDiscriminant =>
    rw [foundBy_switchDiscriminant, foundBy_switchDiscriminant]
    exact h.map_leaking hn (by decide) fun c ↦ h.ofNode_eq c _ _
  | switchCaseTest =>
    rw [foundBy_switchCaseTest, foundBy_switchCaseTest]
    exact h.map_leaking hn (by decide) fun c ↦ h.ofNode_eq c _ _

theorem foundAt_eq (hn : n ∈ cx.tree.preorder)
    (hb : n.kind = .variableDeclarator → ∀ b, cx.tree.childIn? n.id .id = some b →
      cx'.isAnnotated (g b) = cx.isAnnotated b) :
    cx'.foundAt (g n) = (cx.foundAt n).map φ := by
  rw [foundAt, foundAt, Rule.matching_map h.tree h.linked hn, List.map_flatMap]
  refine List.flatMap_congr fun rule hr ↦ ?_
  have ha := Rule.mem_matching.mp hr
  refine h.foundBy_eq hn ha fun hmem ↦ hb ?_
  obtain ⟨k, p, hd⟩ := Rule.declares_of_applies hmem ha
  exact hd.1

end Resembles

end Context

end AnyFlow
