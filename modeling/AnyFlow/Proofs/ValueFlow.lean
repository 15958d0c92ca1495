import AnyFlow.Proofs.Matching
import AnyFlow.Proofs.Recorded

namespace AnyFlow

def valueFlowMessages : List Message :=
  [.typeReference, .loopVariable, .returned, .passedArgument, .assigned, .updated, .booleanTest,
    .switchDiscriminant, .switchCaseTest]

/-- A context into which an unsafe value flows: the node to be reported, the message and its data.
A call counts its arguments from zero. -/
inductive ValueFlow (t : Tree) (T : TypeTable) : Nat → Message → Dict String String → Prop
  | typeReference {n : Node} {name : String} (hn : n ∈ t.preorder) (hk : n.kind = .typeReference)
    (ht : T.RecordsAny n) (hv : n.value = .text name) :
    ValueFlow t T n.id .typeReference (.ofList [("typeName", name)])
  | loopVariable {n left right : Node} {ty : Ty} (hn : n ∈ t.preorder)
    (hk : n.kind = .forOfStatement) (hl : t.childIn? n.id .left = some left)
    (hr : t.childIn? n.id .right = some right) (hty : T.get? right.id = some ty)
    (hany : ty = .any ∨ ∃ element readonly, ty = .array element readonly ∧
      (element = .any ∨ ∃ readonly', element = .array .any readonly')) :
    ValueFlow t T left.id .loopVariable .empty
  | returned {n value : Node} (hn : n ∈ t.preorder) (hk : n.kind = .returnStatement)
    (hv : t.childIn? n.id .argument = some value) (hu : T.RecordsUnsafe value) :
    ValueFlow t T n.id .returned .empty
  | arrowBody {n body : Node} (hn : n ∈ t.preorder) (hk : n.kind = .arrowFunctionExpression)
    (hb : t.childIn? n.id .body = some body) (hne : body.kind ≠ .blockStatement)
    (hu : T.RecordsUnsafe body) : ValueFlow t T body.id .returned .empty
  | passedArgument {n arg : Node} {i : Nat} (hn : n ∈ t.preorder)
    (hk : n.kind = .callExpression ∨ n.kind = .newExpression)
    (ha : (t.childrenIn n.id .arguments)[i]? = some arg) (hu : T.RecordsUnsafe arg) :
    ValueFlow t T n.id .passedArgument (.ofList [("index", i.repr)])
  | assigned {n right : Node} {operator : AssignmentOperator} (hn : n ∈ t.preorder)
    (hk : n.kind = .assignmentExpression operator) (hr : t.childIn? n.id .right = some right)
    (hu : T.RecordsUnsafe right) :
    ValueFlow t T n.id .assigned (.ofList [("operator", Keyword.word operator)])
  | updated {n operand : Node} {operator : UpdateOperator} {leading : Bool} (hn : n ∈ t.preorder)
    (hk : n.kind = .updateExpression operator leading)
    (ha : t.childIn? n.id .argument = some operand) (hu : T.RecordsUnsafe operand) :
    ValueFlow t T n.id .updated (.ofList [("operator", Keyword.word operator)])
  | booleanTest {n test : Node} (hn : n ∈ t.preorder)
    (hk : n.kind ∈ [.ifStatement, .whileStatement, .doWhileStatement, .forStatement,
      .conditionalExpression])
    (ht : t.childIn? n.id .test = some test) (hu : T.RecordsUnsafe test) :
    ValueFlow t T test.id .booleanTest .empty
  | switchDiscriminant {n value : Node} (hn : n ∈ t.preorder) (hk : n.kind = .switchStatement)
    (hv : t.childIn? n.id .discriminant = some value) (hu : T.RecordsUnsafe value) :
    ValueFlow t T value.id .switchDiscriminant .empty
  | switchCaseTest {n test : Node} (hn : n ∈ t.preorder) (hk : n.kind = .switchCase)
    (ht : t.childIn? n.id .test = some test) (hu : T.RecordsUnsafe test) :
    ValueFlow t T test.id .switchCaseTest .empty

namespace Context

variable {t : Tree} {T : TypeTable} {o : Options} {n : Node}

theorem leaks_iff {v : Node} : (Context.mk t T.oracle o).leaks v ↔ T.RecordsUnsafe v :=
  TypeTable.isLeaking_exposure

theorem iteratesAny_iff {ty : Ty} : iteratesAny ty ↔ ty = .any ∨
    ∃ element readonly, ty = .array element readonly ∧
      (element = .any ∨ ∃ readonly', element = .array .any readonly') := by
  rw [iteratesAny, Bool.or_eq_true, Ty.isAny_iff, Option.any_eq_true]
  simp only [Ty.element?_eq_some, Ty.isLeaking_exposure]
  simp

/-- One step of the analysis: what a rule finds where it applies is a flow. -/
theorem valueFlow_of_found {rule : Rule} {f : Finding} (hn : n ∈ t.preorder)
    (ha : rule.Applies t n) (hf : f ∈ (Context.mk t T.oracle o).foundBy n rule)
    (hm : f.message ∈ valueFlowMessages) : ValueFlow t T f.anchor f.message f.data := by
  cases rule with
  | typeReference =>
    obtain ⟨he, name, hv, rfl⟩ := mem_foundBy_typeReference.mp hf
    exact .typeReference hn ha (TypeTable.exposure_eq_any.mp he) hv
  | loopBinding =>
    obtain ⟨left, right, ty, hl, hr, hty, hi, rfl⟩ := mem_foundBy_loopBinding.mp hf
    rw [TypeTable.type?_oracle] at hty
    exact .loopVariable hn ha hl hr hty (iteratesAny_iff.mp hi)
  | returnValue =>
    rcases ha with ⟨hk, -⟩ | ⟨hk, body', hb', hne⟩
    · rw [foundBy_returnStatement hk, mem_map_filter_leaks] at hf
      obtain ⟨v, hv, hu, rfl⟩ := hf
      exact .returned hn hk hv (leaks_iff.mp hu)
    · rw [foundBy_arrowFunction hk, mem_map_filter_leaks] at hf
      obtain ⟨body, hb, hu, rfl⟩ := hf
      cases Option.some.inj (hb.symm.trans hb')
      exact .arrowBody hn hk hb hne (leaks_iff.mp hu)
  | callArguments =>
    rw [foundBy_callArguments] at hf
    obtain ⟨⟨arg, i⟩, hx, rfl⟩ := List.mem_map.mp hf
    obtain ⟨hx, hu⟩ := List.mem_filter.mp hx
    exact .passedArgument hn ha (List.mk_mem_zipIdx_iff_getElem?.mp hx) (leaks_iff.mp hu)
  | assignedValue =>
    obtain ⟨operator, hk⟩ := ha
    rw [foundBy_assignedValue hk, mem_map_filter_leaks] at hf
    obtain ⟨v, hv, hu, rfl⟩ := hf
    exact .assigned hn hk hv (leaks_iff.mp hu)
  | updatedValue =>
    obtain ⟨operator, leading, hk⟩ := ha
    rw [foundBy_updatedValue hk, mem_map_filter_leaks] at hf
    obtain ⟨v, hv, hu, rfl⟩ := hf
    exact .updated hn hk hv (leaks_iff.mp hu)
  | booleanTest =>
    rw [foundBy_booleanTest, mem_map_filter_leaks] at hf
    obtain ⟨c, hc, hu, rfl⟩ := hf
    exact .booleanTest hn ha.1 hc (leaks_iff.mp hu)
  | switchDiscriminant =>
    rw [foundBy_switchDiscriminant, mem_map_filter_leaks] at hf
    obtain ⟨c, hc, hu, rfl⟩ := hf
    exact .switchDiscriminant hn ha hc (leaks_iff.mp hu)
  | switchCaseTest =>
    rw [foundBy_switchCaseTest, mem_map_filter_leaks] at hf
    obtain ⟨c, hc, hu, rfl⟩ := hf
    exact .switchCaseTest hn ha.1 hc (leaks_iff.mp hu)
  | uninitializedLet | nullishLet | unsafeInitializer | implicitAnyArray | patternBinding =>
    obtain ⟨a, m, data, -, hmem, -, -, rfl⟩ := found_form ha hf
    exact absurd hm ((by decide : ∀ m ∈ _, m ∉ valueFlowMessages) m hmem)

theorem found_of_valueFlow {anchor : Nat} {m : Message} {data : Dict String String}
    (h : ValueFlow t T anchor m data) :
    m ∈ valueFlowMessages ∧ ∃ n ∈ t.preorder, ∃ f ∈ (Context.mk t T.oracle o).foundAt n,
      f.key = (anchor, m, data) := by
  cases h with
  | @typeReference n name hn hk ht hv =>
    refine ⟨by decide, n, hn, .ofNode n .typeReference [("typeName", name)],
      mem_foundAt.mpr ⟨.typeReference, hk, ?_⟩, rfl⟩
    exact mem_foundBy_typeReference.mpr ⟨TypeTable.exposure_eq_any.mpr ht, name, hv, rfl⟩
  | @loopVariable n left right ty hn hk hl hr hty hany =>
    refine ⟨by decide, n, hn, .ofNode left .loopVariable [],
      mem_foundAt.mpr ⟨.loopBinding, hk, ?_⟩, rfl⟩
    rw [← TypeTable.type?_oracle] at hty
    exact mem_foundBy_loopBinding.mpr ⟨left, right, ty, hl, hr, hty, iteratesAny_iff.mpr hany, rfl⟩
  | @returned n value hn hk hv hu =>
    refine ⟨by decide, n, hn, .ofNode n .returned [],
      mem_foundAt.mpr ⟨.returnValue, .inl ⟨hk, value, hv⟩, ?_⟩, rfl⟩
    rw [foundBy_returnStatement hk]
    exact mem_map_filter_leaks.mpr ⟨value, hv, leaks_iff.mpr hu, rfl⟩
  | @arrowBody n body hn hk hb hne hu =>
    refine ⟨by decide, n, hn, .ofNode body .returned [],
      mem_foundAt.mpr ⟨.returnValue, .inr ⟨hk, body, hb, hne⟩, ?_⟩, rfl⟩
    rw [foundBy_arrowFunction hk]
    exact mem_map_filter_leaks.mpr ⟨body, hb, leaks_iff.mpr hu, rfl⟩
  | @passedArgument n arg i hn hk ha hu =>
    refine ⟨by decide, n, hn, .ofNode n .passedArgument [("index", i.repr)],
      mem_foundAt.mpr ⟨.callArguments, hk, ?_⟩, rfl⟩
    rw [foundBy_callArguments]
    exact List.mem_map.mpr ⟨(arg, i), List.mem_filter.mpr
      ⟨List.mk_mem_zipIdx_iff_getElem?.mpr ha, leaks_iff.mpr hu⟩, rfl⟩
  | @assigned n right operator hn hk hr hu =>
    refine ⟨by decide, n, hn, .ofNode n .assigned [("operator", Keyword.word operator)],
      mem_foundAt.mpr ⟨.assignedValue, ⟨operator, hk⟩, ?_⟩, rfl⟩
    rw [foundBy_assignedValue hk]
    exact mem_map_filter_leaks.mpr ⟨right, hr, leaks_iff.mpr hu, rfl⟩
  | @updated n operand operator leading hn hk ha hu =>
    refine ⟨by decide, n, hn, .ofNode n .updated [("operator", Keyword.word operator)],
      mem_foundAt.mpr ⟨.updatedValue, ⟨operator, leading, hk⟩, ?_⟩, rfl⟩
    rw [foundBy_updatedValue hk]
    exact mem_map_filter_leaks.mpr ⟨operand, ha, leaks_iff.mpr hu, rfl⟩
  | @booleanTest n test hn hk ht hu =>
    refine ⟨by decide, n, hn, .ofNode test .booleanTest [],
      mem_foundAt.mpr ⟨.booleanTest, ⟨hk, test, ht⟩, ?_⟩, rfl⟩
    rw [foundBy_booleanTest]
    exact mem_map_filter_leaks.mpr ⟨test, ht, leaks_iff.mpr hu, rfl⟩
  | @switchDiscriminant n value hn hk hv hu =>
    refine ⟨by decide, n, hn, .ofNode value .switchDiscriminant [],
      mem_foundAt.mpr ⟨.switchDiscriminant, hk, ?_⟩, rfl⟩
    rw [foundBy_switchDiscriminant]
    exact mem_map_filter_leaks.mpr ⟨value, hv, leaks_iff.mpr hu, rfl⟩
  | @switchCaseTest n test hn hk ht hu =>
    refine ⟨by decide, n, hn, .ofNode test .switchCaseTest [],
      mem_foundAt.mpr ⟨.switchCaseTest, ⟨hk, test, ht⟩, ?_⟩, rfl⟩
    rw [foundBy_switchCaseTest]
    exact mem_map_filter_leaks.mpr ⟨test, ht, leaks_iff.mpr hu, rfl⟩

end Context

/-- The analysis reports the flows of `any` into typed contexts and no others, each once. -/
theorem analyze_reports_value_flows (t : Tree) (T : TypeTable) (o : Options) :
    (∀ anchor m data,
      (m ∈ valueFlowMessages ∧ ∃ f ∈ analyze t T.oracle o,
        f.anchor = anchor ∧ f.message = m ∧ f.data = data) ↔ ValueFlow t T anchor m data) ∧
    ((analyze t T.oracle o).map Finding.key).Nodup := by
  refine ⟨fun anchor m data ↦ ⟨fun h ↦ ?_, fun h ↦ ?_⟩, ?_⟩
  · obtain ⟨hm, f, hf, rfl, rfl, rfl⟩ := h
    obtain ⟨n, hn, g, hg, hk⟩ := (Context.exists_finding_iff _).mp ⟨f, hf, rfl⟩
    obtain ⟨rule, ha, hg⟩ := Context.mem_foundAt.mp hg
    obtain ⟨h₁, h₂, h₃⟩ : g.anchor = f.anchor ∧ g.message = f.message ∧ g.data = f.data := by
      simpa [Finding.key] using hk
    rw [← h₁, ← h₂, ← h₃]
    exact Context.valueFlow_of_found hn ha hg (h₂ ▸ hm)
  · obtain ⟨hm, n, hn, hf⟩ := Context.found_of_valueFlow (o := o) h
    obtain ⟨f, hf, hk⟩ := (Context.exists_finding_iff _).mpr ⟨n, hn, hf⟩
    exact ⟨hm, f, hf, by simpa [Finding.key] using hk⟩
  · exact Report.nodup_keys_addAll List.nodup_nil

end AnyFlow
