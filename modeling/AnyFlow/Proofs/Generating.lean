import Mathlib.Tactic.IntervalCases
import AnyFlow.Proofs.DepthFirst
import AnyFlow.Proofs.Writing

namespace AnyFlow.Workload

section Nodes

variable (place : Location) (body base : Nat)

def transferNodes (outer : Kind) (role : Role) (inner : Kind) (target source : Role) : List Node :=
  [added place base body .body outer, added place (base + 1) base role inner,
    named place (base + 2) (base + 1) target "v", named place (base + 3) (base + 1) source "src"]

def declarationNodes : List Node :=
  transferNodes place body base (.variableDeclaration .letBound) .declarations .variableDeclarator
    .id .init

def assignmentNodes : List Node :=
  transferNodes place body base .expressionStatement .expression (.assignmentExpression .set)
    .left .right

def callNodes : List Node :=
  [added place base body .body .expressionStatement,
    added place (base + 1) base .expression .callExpression,
    named place (base + 2) (base + 1) .callee "sink",
    named place (base + 3) (base + 1) .arguments "v",
    named place (base + 4) (base + 1) .arguments "v",
    named place (base + 5) (base + 1) .arguments "v"]

def returnedNodes : List Node :=
  [added place base body .body .returnStatement, named place (base + 1) base .argument "v"]

def signatureNodes (name : String) : List Node :=
  [added place base 0 .body .functionDeclaration, named place (base + 1) base .id name,
    added place (base + 2) base .body .blockStatement]

end Nodes

section Paragraphs

variable {place : Location} {body base : Nat} {ty : Ty}

theorem writes_transfer (hb : body < base) (outer : Kind) (role : Role) (inner : Kind)
    (target source : Role) :
    Writes (transfer body outer role inner target source ty) place base ()
      (transferNodes place body base outer role inner target source) [(base + 3, ty)] := by
  refine (Writes.child hb).bind ?_
  refine (Writes.child (Nat.lt_succ_self _)).bind ?_
  refine (Writes.identifier (Nat.lt_succ_self _) "v").bind ?_
  refine (Writes.identifier (by simp) "src").bind ?_
  exact .type _ ty

theorem writes_argument {call : Nat} (hc : call < base) :
    Writes (argument call ty) place base () [named place base call .arguments "v"]
      [(base, ty)] := by
  refine (Writes.identifier hc "v").bind ?_
  exact .type _ ty

theorem writes_call (hb : body < base) :
    Writes (call body ty) place base () (callNodes place body base)
      [(base + 3, ty), (base + 4, ty), (base + 5, ty)] := by
  refine (Writes.child hb).bind ?_
  refine (Writes.child (Nat.lt_succ_self _)).bind ?_
  refine (Writes.identifier (Nat.lt_succ_self _) "sink").bind ?_
  refine (writes_argument (by simp)).bind ?_
  refine (writes_argument (by simp)).bind ?_
  refine (writes_argument (by simp)).bind ?_
  exact .pure ()

theorem writes_returned (hb : body < base) :
    Writes (returned body ty) place base () (returnedNodes place body base)
      [(base + 1, ty)] := by
  refine (Writes.child hb).bind ?_
  refine (Writes.identifier (Nat.lt_succ_self _) "v").bind ?_
  exact .type _ ty

end Paragraphs

def functionSize : Nat := 19

/-- The node of function `i` at a position in it. Node 0 is the program. -/
def nodeId (i position : Nat) : Nat := functionSize * i + 1 + position

def location (i : Nat) : Location := ⟨"bench.ts", i * 6 + 1, 1, Span.zero⟩

def functionNodes (i : Nat) : List Node :=
  signatureNodes (location i) (nodeId i 0) ("f" ++ i.repr) ++
    (declarationNodes (location i) (nodeId i 2) (nodeId i 3) ++
      (assignmentNodes (location i) (nodeId i 2) (nodeId i 7) ++
        (callNodes (location i) (nodeId i 2) (nodeId i 11) ++
          returnedNodes (location i) (nodeId i 2) (nodeId i 17))))

/-- Where the value of a function is read, in order. -/
def valuePositions : List Nat := [6, 10, 14, 15, 16, 18]

def functionTypes (i : Nat) : List (Nat × Ty) :=
  valuePositions.map fun position ↦ (nodeId i position, valueType i)

theorem writes_function (i : Nat) :
    Writes (function 0 ("f" ++ i.repr) (valueType i)) (location i) (nodeId i 0) ()
      (functionNodes i) (functionTypes i) := by
  have hbody : nodeId i 2 < nodeId i 3 := Nat.lt_succ_self _
  refine (Writes.child (Nat.succ_pos _)).bind ?_
  refine (Writes.identifier (Nat.lt_succ_self _) _).bind ?_
  refine (Writes.child (by simp)).bind ?_
  refine (writes_transfer hbody _ _ _ _ _).bind ?_
  refine (writes_transfer (Nat.lt_add_right _ hbody) _ _ _ _ _).bind ?_
  refine (writes_call (Nat.lt_add_right _ (Nat.lt_add_right _ hbody))).bind ?_
  exact writes_returned (Nat.lt_add_right _ (Nat.lt_add_right _ (Nat.lt_add_right _ hbody)))

theorem functionAt_run (i : Nat) {d : Draft} (hsize : d.size = nodeId i 0)
    (hfile : d.builder.tree.file = "bench.ts") :
    ∃ d', (functionAt 0 i).run d = .ok ((), d') ∧
      d.Adds d' (functionNodes i) (functionTypes i) := by
  let start : Draft := ⟨d.builder.atPosition (i * 6 + 1) 1, d.types⟩
  have hplace : start.location = location i := by
    rw [location, ← hfile]
    rfl
  obtain ⟨d', hrun, -, hadds⟩ := writes_function i start hsize hplace
  exact ⟨d', hrun, hadds.grown, hadds.file_eq, hadds.nodes_eq, hadds.types_eq⟩

theorem length_functionNodes (i : Nat) : (functionNodes i).length = functionSize := rfl

theorem length_flatMap_functionNodes (n : Nat) :
    ((List.range n).flatMap functionNodes).length = functionSize * n := by
  simp [List.length_flatMap, length_functionNodes, Nat.mul_comm]

theorem functions_run (n : Nat) {d : Draft} (hsize : d.size = 1)
    (hfile : d.builder.tree.file = "bench.ts") :
    ∃ d', ((List.range n).forM (functionAt 0)).run d = .ok ((), d') ∧
      d.Adds d' ((List.range n).flatMap functionNodes) ((List.range n).flatMap functionTypes) := by
  induction n with
  | zero => exact ⟨d, rfl, .refl⟩
  | succ n ih =>
    obtain ⟨d', hrun, hadds⟩ := ih
    have hsize' : d'.size = nodeId n 0 := by
      rw [hadds.size_eq, hsize, length_flatMap_functionNodes, nodeId]
      omega
    obtain ⟨d'', hrun', hadds'⟩ := functionAt_run n hsize' (hadds.file_eq.trans hfile)
    refine ⟨d'', ?_, ?_⟩
    · rw [List.range_succ, List.forM_eq_forM, List.forM_append, List.forM_cons, List.forM_nil,
        StateT.run_bind, ← List.forM_eq_forM, hrun, bind_pure]
      exact hrun'
    · rw [List.range_succ, List.flatMap_append, List.flatMap_append, List.flatMap_singleton,
        List.flatMap_singleton]
      exact hadds.trans hadds'

def programNode : Node := ⟨0, none, .program, none, .null, [], ⟨"bench.ts", 1, 1, Span.zero⟩⟩

structure IsFile (n : Nat) (t : Tree) : Prop where
  grown : t.Grown
  nodes_eq : t.bareNodes = programNode :: (List.range n).flatMap functionNodes

def typeTable (n : Nat) : TypeTable := .ofList ((List.range n).flatMap functionTypes)

theorem generate_eq (n : Nat) : ∃ t, IsFile n t ∧ generate n = .ok (t, typeTable n) := by
  let start : Draft := ⟨(Builder.new "bench.ts").root .program, .empty⟩
  obtain ⟨d, hrun, hadds⟩ := functions_run n (d := start) rfl rfl
  have hgrown : start.builder.tree.Grown :=
    (Builder.grows_root _ .program).grown (Builder.grown_new "bench.ts")
  have htypes : d.types = typeTable n := hadds.types_eq [] rfl
  refine ⟨d.builder.tree, ⟨hadds.grown hgrown, hadds.nodes_eq⟩, ?_⟩
  have hfile : (file n).run ⟨.new "bench.ts", .empty⟩ = .ok ((), d) := hrun
  rw [generate, hfile, ← htypes]
  rfl

theorem lt_of_mem_valuePositions {m : Nat} (hm : m ∈ valuePositions) : m < functionSize := by
  revert m
  decide

theorem ordered_types (n : Nat) : Entries.Ordered ((List.range n).flatMap functionTypes) := by
  rw [Entries.Ordered, List.pairwise_flatMap]
  constructor
  · intro i _
    rw [functionTypes, List.pairwise_map]
    have hsorted : valuePositions.Pairwise (· < ·) := by decide
    exact hsorted.imp fun hab ↦ Nat.add_lt_add_left hab _
  · refine List.pairwise_lt_range.imp fun {i j} hij x hx y hy ↦ ?_
    obtain ⟨a, ha, rfl⟩ := List.mem_map.mp hx
    obtain ⟨b, hb, rfl⟩ := List.mem_map.mp hy
    have := lt_of_mem_valuePositions ha
    show nodeId i a < nodeId j b
    rw [nodeId, nodeId]
    rw [functionSize] at *
    omega

theorem entries_typeTable (n : Nat) :
    (typeTable n).types.entries = (List.range n).flatMap functionTypes :=
  Entries.ofList_of_ordered (ordered_types n)

theorem size_typeTable (n : Nat) : (typeTable n).size = 6 * n := by
  rw [TypeTable.size, Dict.size, entries_typeTable]
  simp [List.length_flatMap, functionTypes, valuePositions, Nat.mul_comm]

theorem get?_typeTable {n i m : Nat} (hi : i < n) (hm : m ∈ valuePositions) :
    (typeTable n).get? (nodeId i m) = some (valueType i) := by
  rw [TypeTable.get?, Dict.get?, entries_typeTable]
  refine (ordered_types n).mem_iff_lookup.mp (List.mem_flatMap.mpr ⟨i, List.mem_range.mpr hi, ?_⟩)
  exact List.mem_map_of_mem hm

/-- The position of the parent of each node of a function but the first. -/
def parentPosition (m : Nat) : Nat :=
  [0, 0, 0, 2, 3, 4, 4, 2, 7, 8, 8, 2, 11, 12, 12, 12, 12, 2, 17].getD m 0

def childPositions (m : Nat) : List Nat :=
  (List.range functionSize).filter fun k ↦ k ≠ 0 ∧ parentPosition k = m

def node (i m : Nat) : Node :=
  { (functionNodes i).getD m default with children := (childPositions m).map (nodeId i) }

theorem parentPosition_lt {m : Nat} (hm : m < functionSize) (h0 : m ≠ 0) :
    parentPosition m < m := by
  have hall : ∀ m < functionSize, m ≠ 0 → parentPosition m < m := by decide
  exact hall m hm h0

theorem parent_node {i m : Nat} (hm : m < functionSize) :
    (node i m).parent = some (if m = 0 then 0 else nodeId i (parentPosition m)) := by
  rw [functionSize] at hm
  interval_cases m <;> rfl

theorem id_node {i m : Nat} (hm : m < functionSize) : (node i m).id = nodeId i m := by
  rw [functionSize] at hm
  interval_cases m <;> rfl

theorem location_node {i m : Nat} (hm : m < functionSize) : (node i m).location = location i := by
  rw [functionSize] at hm
  interval_cases m <;> rfl

theorem nodeId_inj {i j m k : Nat} (hm : m < functionSize) (hk : k < functionSize) :
    nodeId i m = nodeId j k ↔ i = j ∧ m = k := by
  rw [functionSize] at hm hk
  rw [nodeId, nodeId, functionSize]
  omega

theorem getElem?_functionNodes {n i m : Nat} (hi : i < n) (hm : m < functionSize) :
    ((List.range n).flatMap functionNodes)[functionSize * i + m]? = (functionNodes i)[m]? := by
  have hlen := length_flatMap_functionNodes
  induction n with
  | zero => exact absurd hi (Nat.not_lt_zero i)
  | succ n ih =>
    rw [List.range_succ, List.flatMap_append, List.flatMap_singleton]
    rcases Nat.lt_succ_iff_lt_or_eq.mp hi with hi | rfl
    · have hle : functionSize * (i + 1) ≤ functionSize * n := Nat.mul_le_mul_left _ hi
      rw [List.getElem?_append_left (by rw [hlen]; rw [Nat.mul_succ] at hle; omega), ih hi]
    · rw [List.getElem?_append_right (by rw [hlen]; omega), hlen, Nat.add_sub_cancel_left]

namespace IsFile

variable {n i m k : Nat} {t : Tree}

theorem size_eq (h : IsFile n t) : t.size = 1 + functionSize * n := by
  rw [← t.length_bareNodes, h.nodes_eq, List.length_cons, length_flatMap_functionNodes,
    Nat.add_comm]

theorem eq_zero_or_nodeId (h : IsFile n t) (hk : k < t.size) :
    k = 0 ∨ ∃ i < n, ∃ m < functionSize, k = nodeId i m := by
  rw [h.size_eq, functionSize] at hk
  rcases Nat.eq_zero_or_pos k with rfl | hpos
  · exact .inl rfl
  · refine .inr ⟨(k - 1) / 19, by omega, (k - 1) % 19, Nat.mod_lt _ (by decide), ?_⟩
    rw [nodeId, functionSize]
    omega

theorem node?_zero (h : IsFile n t) :
    t.node? 0 = some { programNode with children := t.offspring (some 0) } :=
  h.grown.node?_of_bareNodes (by rw [h.nodes_eq]; rfl)

theorem node?_nodeId (h : IsFile n t) (hi : i < n) (hm : m < functionSize) :
    t.node? (nodeId i m) = some { (functionNodes i).getD m default with
      children := t.offspring (some (nodeId i m)) } := by
  refine h.grown.node?_of_bareNodes ?_
  rw [h.nodes_eq, nodeId, Nat.add_right_comm, List.getElem?_cons_succ, getElem?_functionNodes hi hm,
    List.getElem?_eq_getElem (length_functionNodes i ▸ hm), List.getElem_eq_getD default]

theorem parentOf_zero (h : IsFile n t) : t.parentOf 0 = none :=
  Tree.parentOf_of_node? h.node?_zero

theorem parentOf_nodeId (h : IsFile n t) (hi : i < n) (hm : m < functionSize) :
    t.parentOf (nodeId i m) = some (if m = 0 then 0 else nodeId i (parentPosition m)) := by
  rw [Tree.parentOf_of_node? (h.node?_nodeId hi hm)]
  exact parent_node hm

theorem offspring_nodeId (h : IsFile n t) (hi : i < n) (hm : m < functionSize) :
    t.offspring (some (nodeId i m)) = (childPositions m).map (nodeId i) := by
  have hsorted : ((childPositions m).map (nodeId i)).Pairwise (· < ·) := by
    rw [List.pairwise_map]
    exact (List.pairwise_lt_range.filter _).imp fun hlt ↦ Nat.add_lt_add_left hlt _
  refine List.Perm.eq_of_pairwise (fun a b _ _ hab hba ↦ absurd hab (Nat.lt_asymm hba))
    Tree.pairwise_offspring hsorted ?_
  refine (List.perm_ext_iff_of_nodup Tree.nodup_offspring (hsorted.imp Nat.ne_of_lt)).mpr fun k ↦ ?_
  rw [Tree.mem_offspring, List.mem_map]
  constructor
  · intro hk
    obtain ⟨hlt, hp⟩ := hk
    rcases h.eq_zero_or_nodeId hlt with rfl | ⟨j, hj, m', hm', rfl⟩
    · rw [h.parentOf_zero] at hp
      cases hp
    · rw [h.parentOf_nodeId hj hm', Option.some.injEq] at hp
      by_cases h0 : m' = 0
      · rw [if_pos h0, nodeId] at hp
        omega
      · rw [if_neg h0] at hp
        have hlt' := (parentPosition_lt hm' h0).trans hm'
        obtain ⟨rfl, rfl⟩ := (nodeId_inj hlt' hm).mp hp
        exact ⟨m', by simp [childPositions, hm', h0], rfl⟩
  · intro hk
    obtain ⟨m', hm', rfl⟩ := hk
    simp only [childPositions, List.mem_filter, List.mem_range, decide_eq_true_eq] at hm'
    obtain ⟨hlt, h0, rfl⟩ := hm'
    refine ⟨Tree.lt_size_of_node? (h.node?_nodeId hi hlt), ?_⟩
    rw [h.parentOf_nodeId hi hlt, if_neg h0]

theorem node? (h : IsFile n t) (hi : i < n) (hm : m < functionSize) :
    t.node? (nodeId i m) = some (node i m) := by
  rw [h.node?_nodeId hi hm, h.offspring_nodeId hi hm]
  rfl

theorem childrenOf (h : IsFile n t) (hi : i < n) :
    t.childrenOf (node i m) = (childPositions m).map (node i) := by
  have hchild (k : Nat) (hk : k ∈ childPositions m) : t.node? (nodeId i k) = some (node i k) :=
    h.node? hi (List.mem_range.mp (List.mem_filter.mp hk).1)
  rw [Tree.childrenOf, node, List.filterMap_map, ← List.filterMap_eq_map]
  exact List.filterMap_congr fun k hk ↦ hchild k hk

theorem children (h : IsFile n t) (hi : i < n) (hm : m < functionSize) :
    t.children (nodeId i m) = (childPositions m).map (node i) := by
  rw [Tree.children, h.node? hi hm]
  exact h.childrenOf hi

theorem parent? (h : IsFile n t) (hi : i < n) (hm : m < functionSize) (h0 : m ≠ 0) :
    t.parent? (nodeId i m) = some (node i (parentPosition m)) := by
  rw [Tree.parent?, h.node? hi hm, Option.bind_some, parent_node hm, if_neg h0, Option.bind_some,
    h.node? hi ((parentPosition_lt hm h0).trans hm)]

theorem zero_mem_path (h : IsFile n t) (hk : k < t.size) : 0 ∈ t.path k := by
  induction k using Nat.strong_induction_on with
  | _ k ih =>
    rw [h.grown.path_eq hk]
    rcases h.eq_zero_or_nodeId hk with rfl | ⟨i, hi, m, hm, rfl⟩
    · exact List.mem_cons_self
    · have hp := h.parentOf_nodeId hi hm
      have hlt := h.grown.parent_lt hp
      rw [hp, Option.elim_some]
      exact List.mem_cons_of_mem _ (ih _ hlt (hlt.trans hk))

end IsFile

def positionsUp : Nat → Nat → List Nat
  | 0, m => [m]
  | steps + 1, m => m :: if m = 0 then [] else positionsUp steps (parentPosition m)

namespace IsFile

variable {n i m k steps : Nat} {t : Tree}

theorem mem_path_of_positionsUp (h : IsFile n t) (hi : i < n) (hm : m < functionSize)
    (hk : k ∈ positionsUp steps m) : nodeId i k ∈ t.path (nodeId i m) := by
  induction steps generalizing m with
  | zero =>
    rw [List.mem_singleton.mp hk]
    exact List.mem_cons_self
  | succ steps ih =>
    rcases List.mem_cons.mp hk with rfl | hk
    · exact List.mem_cons_self
    · have h0 : m ≠ 0 := by
        rintro rfl
        simp at hk
      rw [if_neg h0] at hk
      rw [h.grown.path_eq (Tree.lt_size_of_node? (h.node? hi hm)), h.parentOf_nodeId hi hm,
        if_neg h0, Option.elim_some]
      exact List.mem_cons_of_mem _ (ih ((parentPosition_lt hm h0).trans hm) hk)

theorem depthFirst (h : IsFile n t) : t.DepthFirst := by
  intro c p hp
  rcases h.eq_zero_or_nodeId (Tree.lt_size_of_parentOf hp) with rfl | ⟨i, hi, m, hm, rfl⟩
  · rw [h.parentOf_zero] at hp
    cases hp
  · have hbefore := Tree.lt_size_of_parentOf hp
    rw [h.parentOf_nodeId hi hm, Option.some.injEq] at hp
    cases m with
    | zero =>
      rw [← hp]
      exact h.zero_mem_path (by omega)
    | succ m =>
      have hup : ∀ m < 18, parentPosition (m + 1) ∈ positionsUp 4 m := by decide
      rw [← hp]
      exact h.mem_path_of_positionsUp hi (Nat.lt_of_succ_lt hm) (hup m (Nat.lt_of_succ_lt_succ hm))

theorem range_size (n : Nat) : List.range (1 + functionSize * n) =
    0 :: (List.range n).flatMap fun i ↦ (List.range functionSize).map (nodeId i) := by
  induction n with
  | zero => rfl
  | succ n ih =>
    rw [Nat.mul_succ, ← Nat.add_assoc, List.range_add, ih, List.range_succ, List.flatMap_append,
      List.flatMap_singleton, Nat.add_comm 1]
    rfl

/-- The walk visits the program and then each function from its first node to its last. -/
theorem preorder_eq (h : IsFile n t) : t.preorder =
    { programNode with children := t.offspring (some 0) } ::
      (List.range n).flatMap fun i ↦ (List.range functionSize).map (node i) := by
  have hids := h.grown.preorder_of_depthFirst h.depthFirst
  rw [h.size_eq, range_size] at hids
  rw [← Tree.filterMap_id_preorder h.grown.wellLinked, hids, List.filterMap_cons_some h.node?_zero,
    List.filterMap_flatMap]
  refine congrArg (_ :: ·) (List.flatMap_congr fun i hi ↦ ?_)
  rw [List.filterMap_map, ← List.filterMap_eq_map]
  exact List.filterMap_congr fun m hm ↦ h.node? (List.mem_range.mp hi) (List.mem_range.mp hm)

end IsFile

end AnyFlow.Workload
