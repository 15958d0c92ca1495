import AnyFlow.Analysis
import AnyFlow.Proofs.Report

namespace AnyFlow

theorem Node.text?_eq_some {n : Node} {s : String} : n.text? = some s ↔ n.value = .text s := by
  rw [Node.text?]
  cases n.value <;> simp [Json.Value.text?]

def found : Except Failure (List Step) → List Finding
  | .ok steps => steps.filterMap Step.finding?
  | .error _ => []

@[simp]
theorem found_pure (steps : List Step) :
    found (pure steps) = steps.filterMap Step.finding? := rfl

theorem ok_bind {α β : Type} (a : α) (f : α → Except Failure β) : (.ok a >>= f) = f a := rfl

theorem flatMap_eq_of_nodup {α β : Type} {xs : List α} {g : α → List β} {x : α}
    (hxs : xs.Nodup) (hx : x ∈ xs) (hg : ∀ y ∈ xs, y ≠ x → g y = []) : xs.flatMap g = g x := by
  obtain ⟨before, after, rfl⟩ := List.append_of_mem hx
  have hnot := (List.nodup_cons.mp (List.nodup_middle.mp hxs)).1
  have hnil (ys : List α) (hys : ∀ y ∈ ys, y ∈ before ++ after) : ys.flatMap g = [] := by
    refine List.flatMap_eq_nil_iff.mpr fun y hy ↦ hg y ?_ fun he ↦ hnot (he ▸ hys y hy)
    exact (List.perm_middle.mem_iff).mpr (List.mem_cons_of_mem _ (hys y hy))
  rw [List.flatMap_append, List.flatMap_cons, hnil before fun y ↦ List.mem_append_left _,
    hnil after fun y ↦ List.mem_append_right _, List.nil_append, List.append_nil]

theorem flatMap_ite {α β : Type} {xs : List α} {p : α → Bool} {g : α → List β} :
    (xs.flatMap fun x ↦ if p x then g x else []) = (xs.filter p).flatMap g := by
  induction xs with
  | nil => rfl
  | cons x xs ih =>
    rw [List.flatMap_cons, ih, List.filter_cons]
    split
    · rw [List.flatMap_cons]
    · rfl

def Rule.declaratorRules : List Rule :=
  [.uninitializedLet, .nullishLet, .unsafeInitializer, .implicitAnyArray]

namespace Context

variable (cx : Context) (n : Node)

def foundBy (rule : Rule) : List Finding := found (rule.apply cx n)

def foundAt : List Finding := (Rule.matching cx.tree n).flatMap (cx.foundBy n)

theorem findings_stepsOfRule (rule : Rule) :
    (cx.stepsOfRule n rule).filterMap Step.finding? = cx.foundBy n rule := by
  rw [stepsOfRule, foundBy]
  cases rule.apply cx n with
  | ok steps => rfl
  | error failure => rfl

theorem findings_steps :
    cx.steps.filterMap Step.finding? = cx.tree.preorder.flatMap cx.foundAt := by
  simp only [steps, stepsOfNode, List.filterMap_flatMap, findings_stepsOfRule]
  rfl

theorem findings_eq : cx.findings =
    (Report.empty.addAll (cx.tree.preorder.flatMap cx.foundAt)).findings := by
  rw [findings, report, findings_steps]

theorem exists_foundAt_of_mem_findings {f : Finding} (hf : f ∈ cx.findings) :
    ∃ n ∈ cx.tree.preorder, f ∈ cx.foundAt n := by
  obtain ⟨gs, hgs, he⟩ := Report.empty.exists_findings_addAll (cx.tree.preorder.flatMap cx.foundAt)
  rw [findings_eq, he] at hf
  exact List.mem_flatMap.mp (hgs.subset hf)

/-- The findings that a selection by keys leaves come from the same selection at each node. -/
theorem filter_findings {p : Finding → Bool} (hp : ∀ f g, f.key = g.key → p f = p g) :
    cx.findings.filter p = (Report.empty.addAll
      (cx.tree.preorder.flatMap fun n ↦ (cx.foundAt n).filter p)).findings := by
  rw [findings_eq, Report.filter_addAll hp, List.filter_flatMap]
  rfl

theorem exists_finding_iff {k : FindingKey} :
    (∃ f ∈ cx.findings, f.key = k) ↔ ∃ n ∈ cx.tree.preorder, ∃ f ∈ cx.foundAt n, f.key = k := by
  have h : k ∈ (Report.empty.addAll (cx.tree.preorder.flatMap cx.foundAt)).keys ↔ _ :=
    Report.mem_keys_addAll
  rw [Report.keys, ← findings_eq, List.mem_map] at h
  rw [h, Report.keys, Report.empty, List.map_nil, List.mem_map]
  simp only [List.not_mem_nil, false_or, List.mem_flatMap]
  constructor
  · intro hf
    obtain ⟨f, ⟨n, hn, hf⟩, rfl⟩ := hf
    exact ⟨n, hn, f, hf, rfl⟩
  · intro hf
    obtain ⟨n, hn, f, hf, rfl⟩ := hf
    exact ⟨f, ⟨n, hn, hf⟩, rfl⟩

def leaks (v : Node) : Bool := (cx.oracle.exposure v).isLeaking

@[simp]
theorem findings_ask : (cx.ask n).filterMap Step.finding? = [] := by
  unfold ask
  split <;> rfl

@[simp]
theorem findings_reportLeak (anchor value : Node) (m : Message) (data : List (String × String)) :
    (cx.reportLeak anchor value m data).filterMap Step.finding? =
      if cx.leaks value then [.ofNode anchor m data] else [] := by
  rw [reportLeak, List.filterMap_append, findings_ask, leaks]
  split <;> rfl

theorem found_reportLeak (r : Role) (anchor : Node → Node) (m : Message)
    (data : List (String × String)) :
    found (do let c ← cx.required n r; return cx.reportLeak (anchor c) c m data) =
      ((cx.tree.childIn? n.id r).toList.filter cx.leaks).map fun c ↦
        .ofNode (anchor c) m data := by
  rw [required]
  cases cx.tree.childIn? n.id r with
  | none => rfl
  | some c =>
    have h : found (.ok (cx.reportLeak (anchor c) c m data)) =
        if cx.leaks c then [.ofNode (anchor c) m data] else [] := findings_reportLeak cx _ _ _ _
    refine h.trans ?_
    by_cases hc : cx.leaks c <;> simp [hc]

variable {cx n}

theorem found_named {m : Message} {key : String} {failure : Failure} :
    found (if cx.oracle.exposure n = .any then
        match n.text? with
        | some name => .ok [.found (.ofNode n m [(key, name)])]
        | none => .error failure
      else .ok (cx.ask n)) =
      if cx.oracle.exposure n = .any then
        n.text?.toList.map fun name ↦ .ofNode n m [(key, name)]
      else [] := by
  split
  · cases n.text? with
    | none => rfl
    | some name => rfl
  · exact findings_ask cx n

theorem foundBy_typeReference : cx.foundBy n .typeReference =
    if cx.oracle.exposure n = .any then
      n.text?.toList.map fun name ↦ .ofNode n .typeReference [("typeName", name)]
    else [] := found_named

theorem foundBy_patternBinding : cx.foundBy n .patternBinding =
    if cx.oracle.exposure n = .any then
      n.text?.toList.map fun name ↦ .ofNode n .patternVariable [("name", name)]
    else [] := found_named

theorem mem_named {f : Finding} {m : Message} {key : String} :
    f ∈ (if cx.oracle.exposure n = .any then
      n.text?.toList.map fun name ↦ .ofNode n m [(key, name)]
    else []) ↔ cx.oracle.exposure n = .any ∧
      ∃ name, n.value = .text name ∧ .ofNode n m [(key, name)] = f := by
  split
  · simp [*, Node.text?_eq_some]
  · simp [*]

theorem mem_foundBy_typeReference {f : Finding} : f ∈ cx.foundBy n .typeReference ↔
    cx.oracle.exposure n = .any ∧
      ∃ name, n.value = .text name ∧ .ofNode n .typeReference [("typeName", name)] = f := by
  rw [foundBy_typeReference, mem_named]

theorem mem_foundBy_patternBinding {f : Finding} : f ∈ cx.foundBy n .patternBinding ↔
    cx.oracle.exposure n = .any ∧
      ∃ name, n.value = .text name ∧ .ofNode n .patternVariable [("name", name)] = f := by
  rw [foundBy_patternBinding, mem_named]

theorem foundBy_returnStatement (hk : n.kind = .returnStatement) :
    cx.foundBy n .returnValue =
      ((cx.tree.childIn? n.id .argument).toList.filter cx.leaks).map fun _ ↦
        .ofNode n .returned [] := by
  rw [foundBy, Rule.apply, Rule.applyReturnValue, hk]
  exact cx.found_reportLeak n .argument (fun _ ↦ n) .returned []

theorem foundBy_arrowFunction (hk : n.kind = .arrowFunctionExpression) :
    cx.foundBy n .returnValue =
      ((cx.tree.childIn? n.id .body).toList.filter cx.leaks).map fun body ↦
        .ofNode body .returned [] := by
  rw [foundBy, Rule.apply, Rule.applyReturnValue, hk]
  exact cx.found_reportLeak n .body id .returned []

theorem foundBy_assignedValue {operator : AssignmentOperator}
    (hk : n.kind = .assignmentExpression operator) :
    cx.foundBy n .assignedValue =
      ((cx.tree.childIn? n.id .right).toList.filter cx.leaks).map fun _ ↦
        .ofNode n .assigned [("operator", Keyword.word operator)] := by
  rw [foundBy, Rule.apply, Rule.applyAssignedValue, hk]
  exact cx.found_reportLeak n .right (fun _ ↦ n) .assigned _

theorem foundBy_updatedValue {operator : UpdateOperator} {leading : Bool}
    (hk : n.kind = .updateExpression operator leading) :
    cx.foundBy n .updatedValue =
      ((cx.tree.childIn? n.id .argument).toList.filter cx.leaks).map fun _ ↦
        .ofNode n .updated [("operator", Keyword.word operator)] := by
  rw [foundBy, Rule.apply, Rule.applyUpdatedValue, hk]
  exact cx.found_reportLeak n .argument (fun _ ↦ n) .updated _

theorem foundBy_booleanTest : cx.foundBy n .booleanTest =
    ((cx.tree.childIn? n.id .test).toList.filter cx.leaks).map fun c ↦
      .ofNode c .booleanTest [] :=
  cx.found_reportLeak n .test id .booleanTest []

theorem foundBy_switchDiscriminant : cx.foundBy n .switchDiscriminant =
    ((cx.tree.childIn? n.id .discriminant).toList.filter cx.leaks).map fun c ↦
      .ofNode c .switchDiscriminant [] :=
  cx.found_reportLeak n .discriminant id .switchDiscriminant []

theorem foundBy_switchCaseTest : cx.foundBy n .switchCaseTest =
    ((cx.tree.childIn? n.id .test).toList.filter cx.leaks).map fun c ↦
      .ofNode c .switchCaseTest [] :=
  cx.found_reportLeak n .test id .switchCaseTest []

theorem foundBy_callArguments : cx.foundBy n .callArguments =
    ((cx.tree.childrenIn n.id .arguments).zipIdx.filter fun x ↦ cx.leaks x.1).map fun x ↦
      .ofNode n .passedArgument [("index", x.2.repr)] := by
  rw [foundBy, Rule.apply, Rule.applyCallArguments, found, List.filterMap_flatMap]
  simp only [findings_reportLeak]
  induction (cx.tree.childrenIn n.id .arguments).zipIdx with
  | nil => rfl
  | cons x xs ih =>
    rw [List.flatMap_cons, ih, List.filter_cons]
    split <;> rfl

theorem required_of_childIn? {r : Role} {c : Node} (h : cx.tree.childIn? n.id r = some c) :
    cx.required n r = .ok c := by
  rw [required, h]

theorem required_of_none {r : Role} (h : cx.tree.childIn? n.id r = none) :
    cx.required n r = .error (.missingChild n.kind n.id r) := by
  rw [required, h]

def iteratesAny (ty : Ty) : Bool := ty.isAny || ty.element?.any (·.exposure.isLeaking)

theorem foundBy_loopBinding {left right : Node} (hl : cx.tree.childIn? n.id .left = some left)
    (hr : cx.tree.childIn? n.id .right = some right) :
    cx.foundBy n .loopBinding =
      if (cx.oracle.type? right).any iteratesAny then [.ofNode left .loopVariable []] else [] := by
  rw [foundBy, Rule.apply, Rule.applyLoopBinding, required_of_childIn? hl,
    required_of_childIn? hr, ok_bind, ok_bind]
  cases hty : cx.oracle.type? right with
  | none => simp
  | some ty =>
    rw [Option.any_some, iteratesAny]
    dsimp only
    split <;> rfl

theorem mem_foundBy_loopBinding {f : Finding} : f ∈ cx.foundBy n .loopBinding ↔
    ∃ left right ty, cx.tree.childIn? n.id .left = some left ∧
      cx.tree.childIn? n.id .right = some right ∧ cx.oracle.type? right = some ty ∧
      iteratesAny ty ∧ .ofNode left .loopVariable [] = f := by
  cases hl : cx.tree.childIn? n.id .left with
  | none =>
    rw [foundBy, Rule.apply, Rule.applyLoopBinding, required_of_none hl]
    simp [found, bind, Except.bind]
  | some left =>
    cases hr : cx.tree.childIn? n.id .right with
    | none =>
      rw [foundBy, Rule.apply, Rule.applyLoopBinding, required_of_childIn? hl, ok_bind,
        required_of_none hr]
      simp [found, bind, Except.bind]
    | some right =>
      rw [foundBy_loopBinding hl hr]
      cases hty : cx.oracle.type? right with
      | none => simp [hty]
      | some ty =>
        by_cases hi : iteratesAny ty
        · simpa [hi, hty] using eq_comm
        · simp [hi, hty]

theorem foundBy_loopBinding_of_none
    (h : cx.tree.childIn? n.id .left = none ∨ cx.tree.childIn? n.id .right = none) :
    cx.foundBy n .loopBinding = [] := by
  refine List.eq_nil_iff_forall_not_mem.mpr fun f hf ↦ ?_
  obtain ⟨left, right, ty, hl, hr, -⟩ := mem_foundBy_loopBinding.mp hf
  simp [hl, hr] at h

def startsAsAnyArray (cx : Context) (init : Node) : Bool :=
  match init.kind with
  | .arrayExpression => (cx.tree.childIn? init.id .elements).isNone
  | .callExpression | .newExpression => cx.buildsAnyArray init
  | _ => false

theorem foundBy_uninitializedLet {k : VariableKind} {b : Node} (hk : cx.variableKind n = .ok k)
    (hb : cx.tree.childIn? n.id .id = some b) :
    cx.foundBy n .uninitializedLet =
      if cx.isAnnotated b then []
      else [.ofNode n .letWithoutInitial [("kind", Keyword.word k)]] := by
  rw [foundBy, Rule.apply, Rule.applyUninitializedLet, hk, required_of_childIn? hb, ok_bind,
    ok_bind]
  split <;> rfl

theorem foundBy_of_no_id (rule : Rule) (hr : rule ∈ Rule.declaratorRules)
    (hb : cx.tree.childIn? n.id .id = none) : cx.foundBy n rule = [] := by
  simp only [Rule.declaratorRules, List.mem_cons, List.not_mem_nil, or_false] at hr
  rcases hr with rfl | rfl | rfl | rfl
  · rw [foundBy, Rule.apply, Rule.applyUninitializedLet, required_of_none hb]
    cases cx.variableKind n <;> rfl
  · rw [foundBy, Rule.apply, Rule.applyNullishLet, required_of_none hb]
    cases cx.variableKind n <;> rfl
  · rw [foundBy, Rule.apply, Rule.applyUnsafeInitializer, required_of_none hb]
    rfl
  · rw [foundBy, Rule.apply, Rule.applyImplicitAnyArray, required_of_none hb]
    rfl

section Initialised

variable {b init : Node} (hb : cx.tree.childIn? n.id .id = some b)
  (hi : cx.tree.childIn? n.id .init = some init)

include hb hi

theorem foundBy_nullishLet {k : VariableKind} (hk : cx.variableKind n = .ok k) :
    cx.foundBy n .nullishLet =
      if !cx.isAnnotated b && (init.isNullLiteral || init.isIdentifier "undefined") then
        [.ofNode n .letNullish [("kind", Keyword.word k)]]
      else [] := by
  rw [foundBy, Rule.apply, Rule.applyNullishLet, hk, required_of_childIn? hb,
    required_of_childIn? hi, ok_bind, ok_bind, ok_bind]
  split <;> rfl

theorem foundBy_unsafeInitializer : cx.foundBy n .unsafeInitializer =
    if !init.kind.isTypeAssertion && cx.oracle.exposure init == .any then
      if !cx.isAnnotated b then [.ofNode n .initialUnannotated []]
      else if cx.options.allowAnnotationFromAny then [] else [.ofNode n .initialAnnotated []]
    else [] := by
  rw [foundBy, Rule.apply, Rule.applyUnsafeInitializer, required_of_childIn? hb,
    required_of_childIn? hi, ok_bind, ok_bind]
  by_cases ha : init.kind.isTypeAssertion
  · simp [ha]
  · by_cases he : cx.oracle.exposure init = .any
    · simp only [ha, he]
      dsimp
      split_ifs <;> rfl
    · simp [ha, he]

theorem foundBy_implicitAnyArray : cx.foundBy n .implicitAnyArray =
    if !cx.isAnnotated b && cx.startsAsAnyArray init then [.ofNode n .initialEmptyArray []]
    else [] := by
  rw [foundBy, Rule.apply, Rule.applyImplicitAnyArray, required_of_childIn? hb,
    required_of_childIn? hi, ok_bind, ok_bind]
  have hasked (v : List Node) : (v.flatMap cx.ask).filterMap Step.finding? = [] := by
    simp [List.filterMap_flatMap]
  cases ha : cx.isAnnotated b with
  | true => rfl
  | false =>
    rw [startsAsAnyArray]
    generalize init.kind = kind
    cases kind with
    | arrayExpression => cases (cx.tree.childIn? init.id .elements).isNone <;> rfl
    | callExpression | newExpression =>
      refine (List.filterMap_append ..).trans ?_
      rw [hasked]
      cases cx.buildsAnyArray init <;> rfl
    | _ => rfl

end Initialised

end Context

end AnyFlow
