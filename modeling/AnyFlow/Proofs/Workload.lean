import AnyFlow.Proofs.Allowance
import AnyFlow.Proofs.Found
import AnyFlow.Proofs.Generating

namespace AnyFlow

/-- An identifier whose parent does not bind it as a pattern has no rules. -/
theorem Rule.matching_eq_nil_of_plain {t : Tree} {k : Nat} {c p : Node} (h : t.WellLinked)
    (hp : t.AtLevel k p) (hc : c ∈ t.childrenOf p) (hk : c.kind = .identifier)
    (hl : Tree.isPatternLink c p = false) : matching t c = [] := by
  have hexit : t.patternExit? c = some (c, p) := by
    rw [Tree.patternExit?_of_child h hp hc, hl]
    rfl
  have hnone : t.destructuringDeclarator? c = none := by
    simp [Tree.destructuringDeclarator?, hk, hexit]
  simp only [matching, hk, hnone]
  rfl

namespace Workload

structure IsCase (n : Nat) (cx : Context) : Prop where
  file : IsFile n cx.tree
  oracle_eq {i m : Nat} (hi : i < n) (hm : m ∈ valuePositions) :
    cx.oracle (node i m) = .ok (valueType i)

def findingsAt (i : Nat) : Nat → List Finding
  | 4 => [.ofNode (node i 4) .initialUnannotated []]
  | 8 => [.ofNode (node i 8) .assigned [("operator", "=")]]
  | 12 => [.ofNode (node i 12) .passedArgument [("index", "0")],
      .ofNode (node i 12) .passedArgument [("index", "1")],
      .ofNode (node i 12) .passedArgument [("index", "2")]]
  | 17 => [.ofNode (node i 17) .returned []]
  | _ => []

def identifiers : List Nat := [1, 5, 6, 9, 10, 13, 14, 15, 16, 18]

def containers : List Nat := [0, 2, 3, 7, 11]

theorem findingsAt_quiet (i : Nat) {m : Nat} (hm : m ∈ identifiers ++ containers) :
    findingsAt i m = [] := by
  rw [findingsAt]
  all_goals
    rintro rfl
    exact absurd hm (by decide)

namespace IsFile

variable {n i m : Nat} {t : Tree}

theorem childIn? (h : IsFile n t) (hi : i < n) (hm : m < functionSize) (r : Role) :
    t.childIn? (nodeId i m) r = ((childPositions m).map (node i)).find? (·.role == some r) := by
  rw [Tree.childIn?, h.children hi hm]

theorem matching_identifier (h : IsFile n t) (hi : i < n) (hm : m ∈ identifiers) :
    Rule.matching t (node i m) = [] := by
  have hlt : m < functionSize := by
    revert m
    decide
  have h0 : m ≠ 0 := by
    rintro rfl
    exact absurd hm (by decide)
  have hplt := (parentPosition_lt hlt h0).trans hlt
  obtain ⟨k, hk⟩ := h.grown.atLevel (h.node? hi hplt)
  have hc : node i m ∈ t.childrenOf (node i (parentPosition m)) := by
    rw [h.childrenOf hi]
    refine List.mem_map_of_mem ?_
    simp [childPositions, hlt, h0]
  have hshape : (node i m).kind = .identifier ∧
      Tree.isPatternLink (node i m) (node i (parentPosition m)) = false := by
    simp only [identifiers, List.mem_cons, List.not_mem_nil, or_false] at hm
    rcases hm with rfl | rfl | rfl | rfl | rfl | rfl | rfl | rfl | rfl | rfl <;> exact ⟨rfl, rfl⟩
  exact Rule.matching_eq_nil_of_plain h.grown.wellLinked hk hc hshape.1 hshape.2

theorem matching_container (t : Tree) (i : Nat) (hm : m ∈ containers) :
    Rule.matching t (node i m) = [] := by
  simp only [containers, List.mem_cons, List.not_mem_nil, or_false] at hm
  rcases hm with rfl | rfl | rfl | rfl | rfl <;> rfl

theorem matching_declarator (h : IsFile n t) (hi : i < n) :
    Rule.matching t (node i 4) = [.nullishLet, .unsafeInitializer, .implicitAnyArray] := by
  have hp : t.parent? (node i 4).id = some (node i 3) :=
    h.parent? (m := 4) hi (by decide) (by decide)
  have hinit : t.childIn? (node i 4).id .init = some (node i 6) :=
    h.childIn? (m := 4) hi (by decide) .init
  show Rule.matchingDeclarator t (node i 4) = _
  rw [Rule.matchingDeclarator, hp, hinit]
  rfl

theorem matching_returned (h : IsFile n t) (hi : i < n) :
    Rule.matching t (node i 17) = [.returnValue] := by
  have hargument : t.childIn? (node i 17).id .argument = some (node i 18) :=
    h.childIn? (m := 17) hi (by decide) .argument
  show Rule.ifChild t (node i 17) .argument .returnValue = _
  rw [Rule.ifChild, hargument]
  rfl

end IsFile

namespace IsCase

variable {n i m : Nat} {cx : Context}

/-- The value of every third function leaks, and those of the others do not. -/
theorem exposure_value (h : IsCase n cx) (hi : i < n) (hm : m ∈ valuePositions) :
    cx.oracle.exposure (node i m) = if i % 3 = 0 then .any else .safe := by
  rw [Oracle.exposure, Oracle.type?, h.oracle_eq hi hm]
  show (valueType i).exposure = _
  rw [valueType, apply_ite Ty.exposure]
  rfl

theorem ask_value (h : IsCase n cx) (hi : i < n) (hm : m ∈ valuePositions) :
    cx.ask (node i m) = [] := by
  rw [Context.ask, h.oracle_eq hi hm]

theorem reportLeak_value (h : IsCase n cx) (hi : i < n) (hm : m ∈ valuePositions) (anchor : Node)
    (message : Message) (data : List (String × String)) :
    cx.reportLeak anchor (node i m) message data =
      if i % 3 = 0 then [.found (.ofNode anchor message data)] else [] := by
  rw [Context.reportLeak, h.ask_value hi hm, h.exposure_value hi hm, List.nil_append]
  by_cases h3 : i % 3 = 0
  · rw [if_pos h3, if_pos h3]
    rfl
  · rw [if_neg h3, if_neg h3]
    rfl

section Steps

variable (h : IsCase n cx) (hi : i < n)

include h hi

theorem stepsOfNode_declarator : cx.stepsOfNode (node i 4) =
    if i % 3 = 0 then (findingsAt i 4).map .found else [] := by
  have hid : cx.required (node i 4) .id = .ok (node i 5) :=
    Context.required_of_childIn? (h.file.childIn? (m := 4) hi (by decide) .id)
  have hinit : cx.required (node i 4) .init = .ok (node i 6) :=
    Context.required_of_childIn? (h.file.childIn? (m := 4) hi (by decide) .init)
  have hplain : cx.isAnnotated (node i 5) = false :=
    congrArg Option.isSome (h.file.childIn? (m := 5) hi (by decide) .typeAscription)
  have hkind : cx.variableKind (node i 4) = .ok .letBound := by
    have hp : cx.tree.parent? (node i 4).id = some (node i 3) :=
      h.file.parent? (m := 4) hi (by decide) (by decide)
    rw [Context.variableKind, hp]
    rfl
  have hstart : ((node i 6).isNullLiteral || (node i 6).isIdentifier "undefined") = false := rfl
  have hnullish : Rule.nullishLet.apply cx (node i 4) = .ok [] := by
    rw [Rule.apply, Rule.applyNullishLet, hkind, hid, hinit, ok_bind, ok_bind, ok_bind, hplain,
      hstart]
    rfl
  have hunsafe : Rule.unsafeInitializer.apply cx (node i 4) =
      .ok (if i % 3 = 0 then (findingsAt i 4).map .found else []) := by
    have hassertion : (node i 6).kind.isTypeAssertion = false := rfl
    rw [Rule.apply, Rule.applyUnsafeInitializer, hid, hinit, ok_bind, ok_bind, hassertion, hplain,
      h.exposure_value hi (by decide), h.ask_value hi (by decide)]
    by_cases h3 : i % 3 = 0
    · rw [if_pos h3, if_pos h3]
      rfl
    · rw [if_neg h3, if_neg h3]
      rfl
  have harray : Rule.implicitAnyArray.apply cx (node i 4) = .ok [] := by
    rw [Rule.apply, Rule.applyImplicitAnyArray, hid, hinit, ok_bind, ok_bind, hplain]
    rfl
  simp only [Context.stepsOfNode, h.file.matching_declarator hi, List.flatMap_cons,
    List.flatMap_nil, Context.stepsOfRule, hnullish, hunsafe, harray, List.nil_append,
    List.append_nil]

theorem stepsOfNode_assigned : cx.stepsOfNode (node i 8) =
    if i % 3 = 0 then (findingsAt i 8).map .found else [] := by
  have hright : cx.required (node i 8) .right = .ok (node i 10) :=
    Context.required_of_childIn? (h.file.childIn? (m := 8) hi (by decide) .right)
  have happly : Rule.assignedValue.apply cx (node i 8) =
      .ok (cx.reportLeak (node i 8) (node i 10) .assigned [("operator", "=")]) := by
    show (cx.required (node i 8) .right >>= fun right ↦ _) = _
    rw [hright, ok_bind]
    rfl
  have hmatching : Rule.matching cx.tree (node i 8) = [.assignedValue] := rfl
  rw [Context.stepsOfNode, hmatching, List.flatMap_singleton, Context.stepsOfRule, happly]
  exact h.reportLeak_value hi (by decide) _ _ _

theorem stepsOfNode_call : cx.stepsOfNode (node i 12) =
    if i % 3 = 0 then (findingsAt i 12).map .found else [] := by
  have harguments : cx.tree.childrenIn (node i 12).id .arguments =
      [node i 14, node i 15, node i 16] :=
    congrArg (List.filter _) (h.file.children (m := 12) hi (by decide))
  have hmatching : Rule.matching cx.tree (node i 12) = [.callArguments] := rfl
  have hindex : Nat.repr 0 = "0" ∧ Nat.repr 1 = "1" ∧ Nat.repr 2 = "2" := by decide
  have hargument {m : Nat} (hm : m ∈ valuePositions) (data : List (String × String)) :=
    h.reportLeak_value hi hm (node i 12) .passedArgument data
  rw [Context.stepsOfNode, hmatching, List.flatMap_singleton, Context.stepsOfRule, Rule.apply,
    Rule.applyCallArguments, harguments]
  simp only [List.zipIdx_cons, List.zipIdx_nil, List.flatMap_cons, List.flatMap_nil,
    hargument (m := 14) (by decide), hargument (m := 15) (by decide),
    hargument (m := 16) (by decide), Nat.zero_add, Nat.reduceAdd, hindex]
  by_cases h3 : i % 3 = 0
  · simp only [if_pos h3]
    rfl
  · simp only [if_neg h3]
    rfl

theorem stepsOfNode_returned : cx.stepsOfNode (node i 17) =
    if i % 3 = 0 then (findingsAt i 17).map .found else [] := by
  have hargument : cx.required (node i 17) .argument = .ok (node i 18) :=
    Context.required_of_childIn? (h.file.childIn? (m := 17) hi (by decide) .argument)
  have happly : Rule.returnValue.apply cx (node i 17) =
      .ok (cx.reportLeak (node i 17) (node i 18) .returned []) := by
    show (cx.required (node i 17) .argument >>= fun value ↦ _) = _
    rw [hargument, ok_bind]
    rfl
  rw [Context.stepsOfNode, h.file.matching_returned hi, List.flatMap_singleton,
    Context.stepsOfRule, happly]
  exact h.reportLeak_value hi (by decide) _ _ _

theorem stepsOfNode_node (hm : m < functionSize) : cx.stepsOfNode (node i m) =
    if i % 3 = 0 then (findingsAt i m).map .found else [] := by
  have hcases : m ∈ identifiers ∨ m ∈ containers ∨
      m = 4 ∨ m = 8 ∨ m = 12 ∨ m = 17 := by
    revert m
    decide
  have hquiet (hr : Rule.matching cx.tree (node i m) = []) (hf : findingsAt i m = []) :
      cx.stepsOfNode (node i m) = if i % 3 = 0 then (findingsAt i m).map .found else [] := by
    rw [Context.stepsOfNode, hr, hf, List.flatMap_nil, List.map_nil, ite_self]
  rcases hcases with hm | hm | rfl | rfl | rfl | rfl
  · exact hquiet (h.file.matching_identifier hi hm) (findingsAt_quiet i (List.mem_append_left _ hm))
  · exact hquiet (IsFile.matching_container cx.tree i hm)
      (findingsAt_quiet i (List.mem_append_right _ hm))
  · exact h.stepsOfNode_declarator hi
  · exact h.stepsOfNode_assigned hi
  · exact h.stepsOfNode_call hi
  · exact h.stepsOfNode_returned hi

end Steps

theorem steps_eq (h : IsCase n cx) : cx.steps =
    (((List.range n).filter fun i ↦ i % 3 = 0).flatMap fun i ↦
      (List.range functionSize).flatMap (findingsAt i)).map .found := by
  have hfunction (i : Nat) (hi : i ∈ List.range n) :
      ((List.range functionSize).map (node i)).flatMap cx.stepsOfNode =
        if decide (i % 3 = 0) then ((List.range functionSize).flatMap (findingsAt i)).map .found
        else [] := by
    rw [List.flatMap_map, List.flatMap_congr fun m hm ↦
      h.stepsOfNode_node (List.mem_range.mp hi) (List.mem_range.mp hm)]
    by_cases h3 : i % 3 = 0
    · simp only [if_pos h3, if_pos (decide_eq_true h3), List.map_flatMap]
    · simp only [if_neg h3, if_neg (of_decide_eq_true.mt h3), List.flatMap_eq_nil_iff, implies_true]
  have hprogram (children : List Nat) :
      cx.stepsOfNode { programNode with children := children } = [] := rfl
  rw [Context.steps, h.file.preorder_eq, List.flatMap_cons, hprogram, List.nil_append,
    List.flatMap_assoc, List.flatMap_congr hfunction, flatMap_ite, List.map_flatMap]

end IsCase

def record (i place : Nat) (message : Message) (data : List (String × String)) : Finding where
  rule := ruleId
  message := message
  anchor := 19 * i + place
  location := ⟨"bench.ts", 6 * i + 1, 1, Span.zero⟩
  data := .ofList data

/-- What is found in a function whose value is `any`. -/
def answer (i : Nat) : List Finding :=
  [record i 5 .initialUnannotated [], record i 9 .assigned [("operator", "=")],
    record i 13 .passedArgument [("index", "0")], record i 13 .passedArgument [("index", "1")],
    record i 13 .passedArgument [("index", "2")], record i 18 .returned []]

theorem ofNode_node {i m : Nat} (hm : m < functionSize) (message : Message)
    (data : List (String × String)) :
    .ofNode (node i m) message data = record i (m + 1) message data := by
  rw [Finding.ofNode, id_node hm, location_node hm, location, Nat.mul_comm i, nodeId, functionSize,
    Nat.add_assoc, Nat.add_comm 1]
  rfl

theorem flatMap_findingsAt (i : Nat) :
    (List.range functionSize).flatMap (findingsAt i) = answer i := by
  have hall : (List.range functionSize).flatMap (findingsAt i) =
      findingsAt i 4 ++ (findingsAt i 8 ++ (findingsAt i 12 ++ findingsAt i 17)) := rfl
  rw [hall]
  simp only [findingsAt, ofNode_node (m := 4) (by decide), ofNode_node (m := 8) (by decide),
    ofNode_node (m := 12) (by decide), ofNode_node (m := 17) (by decide)]
  rfl

theorem nodup_keys_answer (i : Nat) : ((answer i).map Finding.key).Nodup := by
  have hsnd : (((answer i).map Finding.key).map Prod.snd).Nodup := by
    show (((answer 0).map Finding.key).map Prod.snd).Nodup
    decide
  exact hsnd.of_map

theorem nodup_keys_answers {is : List Nat} (his : is.Nodup) :
    ((is.flatMap answer).map Finding.key).Nodup := by
  rw [List.map_flatMap, List.nodup_flatMap]
  refine ⟨fun i _ ↦ nodup_keys_answer i, his.imp fun {i j} hij k hi hj ↦ hij ?_⟩
  have hanchor {i : Nat} (hk : k ∈ (answer i).map Finding.key) : k.1 / 19 = i := by
    simp only [answer, record, List.map_cons, List.map_nil, List.mem_cons, List.not_mem_nil,
      or_false, Finding.key] at hk
    rcases hk with rfl | rfl | rfl | rfl | rfl | rfl <;> dsimp only <;> omega
  exact (hanchor hi).symm.trans (hanchor hj)

theorem isCase (options : Options) {n : Nat} {t : Tree} (h : IsFile n t) :
    IsCase n ⟨t, (typeTable n).oracle, options⟩ where
  file := h
  oracle_eq {i m} hi hm := by
    show (typeTable n).oracle (node i m) = _
    rw [TypeTable.oracle, id_node (lt_of_mem_valuePositions hm), get?_typeTable hi hm]

theorem IsCase.findings_eq {n : Nat} {cx : Context} (h : IsCase n cx) : cx.findings =
    ((List.range n).filter fun i ↦ i % 3 = 0).flatMap answer := by
  have hfound (fs : List Finding) : (fs.map Step.found).filterMap Step.finding? = fs := by
    rw [List.filterMap_map]
    exact List.filterMap_some
  have hnodup := nodup_keys_answers ((List.nodup_range (n := n)).filter fun i ↦ i % 3 = 0)
  rw [Context.findings, Context.report, h.steps_eq, hfound, funext flatMap_findingsAt]
  exact Report.findings_addAll hnodup

theorem IsCase.warnings_eq_nil {n : Nat} {cx : Context} (h : IsCase n cx) : cx.warnings = [] := by
  rw [Context.warnings_eq, h.steps_eq, List.filterMap_map, List.filterMap_eq_nil_iff]
  exact fun _ _ ↦ rfl

/-- The answer for a file of any size and under all options. The generator does not fail, its tree
is accepted, and each function whose value is `any` has six findings, in document order. There is
no other finding, and no warning. -/
theorem generate_findings (n : Nat) (options : Options) :
    ∃ t types, generate n = .ok (t, types) ∧ t.checkLinks = .ok () ∧
      t.size = 1 + 19 * n ∧ types.size = 6 * n ∧
      analyze t types.oracle options =
        ((List.range n).filter fun i ↦ i % 3 = 0).flatMap answer ∧
      (Context.mk t types.oracle options).warnings = [] := by
  obtain ⟨t, h, hgenerate⟩ := generate_eq n
  have hcase := isCase options h
  exact ⟨t, _, hgenerate, Tree.checkLinks_eq_ok_iff.mpr h.grown.wellLinked, h.size_eq,
    size_typeTable n, hcase.findings_eq, hcase.warnings_eq_nil⟩

end Workload

end AnyFlow
