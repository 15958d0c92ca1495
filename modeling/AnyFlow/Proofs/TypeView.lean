import AnyFlow.Proofs.Found
import AnyFlow.Proofs.Recorded
import AnyFlow.Tree.Builder

namespace AnyFlow

namespace Ty

/-- What the rules see of a type. -/
structure View where
  exposure : Exposure
  isNumericLike : Bool
  element? : Option Exposure
deriving DecidableEq

def view (ty : Ty) : View := ⟨ty.exposure, ty.isNumericLike, ty.element?.map exposure⟩

variable {ty e e' : Ty} {readonly readonly' : Bool}

theorem exposure_array :
    (array e readonly).exposure = if e.exposure = .any then .arrayOfAny else .safe := by
  change (if e.isAny then _ else _) = _
  exact if_congr (isAny_iff.trans exposure_eq_any.symm) rfl rfl

theorem view_array (h : e.exposure = e'.exposure) :
    (array e readonly).view = (array e' readonly').view := by
  simp only [view, exposure_array, element?, Option.map_some, h]
  rfl

theorem view_union {ms ms' : List Ty} (h : (union ms).isNumericLike = (union ms').isNumericLike) :
    (union ms).view = (union ms').view := by
  rw [view, view, h]
  rfl

end Ty

def Oracle.SameView (o o' : Oracle) : Prop := ∀ n, (o n).map Ty.view = (o' n).map Ty.view

namespace Oracle.SameView

variable {o o' : Oracle} (h : o.SameView o') (n : Node)

include h

theorem type?_eq : (o.type? n).map Ty.view = (o'.type? n).map Ty.view := by
  have htoOption {e : Except Unresolved Ty} :
      e.toOption.map Ty.view = (e.map Ty.view).toOption := by
    cases e with
    | ok ty => rfl
    | error cause => rfl
  rw [type?, type?, htoOption, htoOption, h n]

/-- A test of the type that sees no more than the rules do. -/
theorem any_type?_eq {p : Ty → Bool} (q : Ty.View → Bool) (hq : ∀ ty, p ty = q ty.view) :
    (o.type? n).any p = (o'.type? n).any p := by
  have hany (ty? : Option Ty) : ty?.any p = (ty?.map Ty.view).any q := by
    rw [Option.any_map, funext hq]
  rw [hany, hany, h.type?_eq]

theorem exposure_eq : o.exposure n = o'.exposure n := by
  have hview (o : Oracle) :
      o.exposure n = (((o.type? n).map Ty.view).map Ty.View.exposure).getD .safe := by
    rw [exposure]
    cases o.type? n with
    | none => rfl
    | some ty => rfl
  rw [hview, hview, h.type?_eq]

end Oracle.SameView

namespace Context

theorem iteratesAny_eq_view (ty : Ty) :
    iteratesAny ty = (ty.view.exposure == .any || ty.view.element?.any Exposure.isLeaking) := by
  have hany : ty.isAny = (ty.exposure == .any) := by
    rw [Bool.eq_iff_iff, Ty.isAny_iff, beq_iff_eq, Ty.exposure_eq_any]
  rw [iteratesAny, Ty.view, hany, Option.any_map]

variable {t : Tree} {o o' : Oracle} {options : Options} {n : Node} (h : o.SameView o')

include h

theorem ask_eq (n : Node) : (mk t o options).ask n = (mk t o' options).ask n := by
  have hask (o : Oracle) : (mk t o options).ask n = match (o n).map Ty.view with
      | .ok _ => []
      | .error cause => [.unresolved cause] := by
    rw [ask]
    dsimp only
    cases o n with
    | ok ty => rfl
    | error cause => rfl
  rw [hask, hask, h n]

theorem reportLeak_eq (anchor value : Node) (m : Message) (data : List (String × String)) :
    (mk t o options).reportLeak anchor value m data =
      (mk t o' options).reportLeak anchor value m data := by
  rw [reportLeak, reportLeak, ask_eq h]
  dsimp only
  rw [h.exposure_eq]

theorem isTypedElsewhere_eq :
    (mk t o options).isTypedElsewhere n = (mk t o' options).isTypedElsewhere n :=
  h.any_type?_eq n (fun v ↦ v.exposure != .arrayOfAny) fun _ ↦ rfl

theorem isLengthOnly_eq (args : List Node) :
    (mk t o options).isLengthOnly args = (mk t o' options).isLengthOnly args := by
  match args with
  | [] => rfl
  | [arg] =>
    exact congrArg (arg.kind != .spreadElement && ·)
      (h.any_type?_eq arg Ty.View.isNumericLike fun _ ↦ rfl)
  | _ :: _ :: _ => rfl

theorem buildsAnyArray_eq :
    (mk t o options).buildsAnyArray n = (mk t o' options).buildsAnyArray n := by
  rw [buildsAnyArray, buildsAnyArray, isTypedElsewhere_eq h, isLengthOnly_eq h]
  rfl

theorem askedByArray_eq : (mk t o options).askedByArray n = (mk t o' options).askedByArray n := by
  rw [askedByArray, askedByArray, isTypedElsewhere_eq h]
  rfl

theorem applyLoopBinding_eq :
    Rule.applyLoopBinding (mk t o options) n = Rule.applyLoopBinding (mk t o' options) n := by
  rw [Rule.applyLoopBinding, Rule.applyLoopBinding]
  refine bind_congr fun left ↦ bind_congr fun right ↦ ?_
  have hview := h.type?_eq right
  rw [ask_eq h]
  cases hty : o.type? right with
  | none =>
    rw [hty, Option.map_none, eq_comm, Option.map_eq_none_iff] at hview
    rw [hview]
  | some ty =>
    rw [hty, Option.map_some, eq_comm, Option.map_eq_some_iff] at hview
    obtain ⟨ty', hty', hview⟩ := hview
    have hiterates : iteratesAny ty = iteratesAny ty' := by
      rw [iteratesAny_eq_view, iteratesAny_eq_view, hview]
    rw [iteratesAny, iteratesAny] at hiterates
    simp only [hty', hiterates]

theorem apply_eq (rule : Rule) : rule.apply ⟨t, o, options⟩ n = rule.apply ⟨t, o', options⟩ n := by
  cases rule with
  | uninitializedLet | nullishLet => rfl
  | typeReference =>
    simp only [Rule.apply, Rule.applyTypeReference, ask_eq h, h.exposure_eq]
  | patternBinding =>
    simp only [Rule.apply, Rule.applyPatternBinding, ask_eq h, h.exposure_eq]
  | unsafeInitializer =>
    simp only [Rule.apply, Rule.applyUnsafeInitializer, ask_eq h, h.exposure_eq]
    rfl
  | implicitAnyArray =>
    simp only [Rule.apply, Rule.applyImplicitAnyArray, funext (ask_eq h), askedByArray_eq h,
      buildsAnyArray_eq h]
    rfl
  | loopBinding => exact applyLoopBinding_eq h
  | returnValue =>
    simp only [Rule.apply, Rule.applyReturnValue, reportLeak_eq h]
    rfl
  | callArguments =>
    simp only [Rule.apply, Rule.applyCallArguments, reportLeak_eq h]
  | assignedValue =>
    simp only [Rule.apply, Rule.applyAssignedValue, reportLeak_eq h]
    rfl
  | updatedValue =>
    simp only [Rule.apply, Rule.applyUpdatedValue, reportLeak_eq h]
    rfl
  | booleanTest | switchDiscriminant | switchCaseTest =>
    simp only [Rule.apply, Rule.applyToChild, reportLeak_eq h]
    rfl

theorem steps_eq : (mk t o options).steps = (mk t o' options).steps := by
  have hrule (n : Node) (rule : Rule) :
      (mk t o options).stepsOfRule n rule = (mk t o' options).stepsOfRule n rule := by
    rw [stepsOfRule, stepsOfRule, apply_eq h]
  refine List.flatMap_congr fun n _ ↦ ?_
  exact List.flatMap_congr fun rule _ ↦ hrule n rule

end Context

theorem TypeTable.sameView {T T' : TypeTable}
    (h : ∀ id, (T.get? id).map Ty.view = (T'.get? id).map Ty.view) :
    T.oracle.SameView T'.oracle := by
  have horacle (T : TypeTable) (n : Node) : (T.oracle n).map Ty.view =
      match (T.get? n.id).map Ty.view with
      | some view => .ok view
      | none => .error ⟨n.id, n.kind⟩ := by
    rw [oracle]
    cases T.get? n.id with
    | none => rfl
    | some ty => rfl
  intro n
  rw [horacle, horacle, h]

/-- Tables that record types for the same nodes, such that the rules see the same of them, lead to
the same findings and the same course of the analysis. Neither the names nor the literal values in
types are seen, nor whether an array may be written, nor what a union joins unless it is numeric,
nor anything of the elements of an array but how far `any` reaches in them. -/
theorem analyze_eq_of_view (t : Tree) {T T' : TypeTable} (options : Options)
    (h : ∀ id, (T.get? id).map Ty.view = (T'.get? id).map Ty.view) :
    analyze t T.oracle options = analyze t T'.oracle options ∧
    (Context.mk t T.oracle options).events = (Context.mk t T'.oracle options).events ∧
    (∀ a b, (Ty.named a).view = (Ty.named b).view) ∧
    (∀ a b, (Ty.numericEnum a).view = (Ty.numericEnum b).view) ∧
    (∀ a b, (Ty.stringLiteral a).view = (Ty.stringLiteral b).view) ∧
    (∀ x y, (Ty.numberLiteral x).view = (Ty.numberLiteral y).view) ∧
    (∀ ms ms', (Ty.union ms).isNumericLike = (Ty.union ms').isNumericLike →
      (Ty.union ms).view = (Ty.union ms').view) ∧
    ∀ e e' readonly readonly', e.exposure = e'.exposure →
      (Ty.array e readonly).view = (Ty.array e' readonly').view := by
  have hsteps : (Context.mk t T.oracle options).steps = (Context.mk t T'.oracle options).steps :=
    Context.steps_eq (TypeTable.sameView h)
  refine ⟨?_, ?_, fun _ _ ↦ rfl, fun _ _ ↦ rfl, fun _ _ ↦ rfl, fun _ _ ↦ rfl,
    fun _ _ ↦ Ty.view_union, fun _ _ _ _ ↦ Ty.view_array⟩
  · rw [analyze, Context.findings, Context.report, hsteps]
    rfl
  · rw [Context.events, Context.report, hsteps]
    rfl

/-- The loop `for (x of xs)`. -/
def loopSample : Tree :=
  (Builder.performAll (.new "loop.ts")
    [.root .forOfStatement, .child 0 .left .identifier, .value 1 (.text "x"),
      .child 0 .right .identifier, .value 2 (.text "xs")]).tree

/-- Elements that are arrays of `any` are seen, and not whether they may be written. -/
theorem analyze_eq_of_view_loopSample :
    let T := TypeTable.ofList [(1, .named "X"), (2, .array (.array .any false) false)]
    let T' := TypeTable.ofList [(1, .stringLiteral "x"), (2, .array (.array .any true) true)]
    (∀ id, (T.get? id).map Ty.view = (T'.get? id).map Ty.view) ∧
    analyze loopSample T.oracle .defaults = analyze loopSample T'.oracle .defaults ∧
    analyze loopSample T.oracle .defaults =
      [.ofNode loopSample.nodes[1]! .loopVariable []] := by
  intro T T'
  have h (id : Nat) : (T.get? id).map Ty.view = (T'.get? id).map Ty.view :=
    match id with
    | 0 | 1 | 2 | _ + 3 => rfl
  exact ⟨h, (analyze_eq_of_view loopSample .defaults h).1, by decide +kernel⟩

end AnyFlow
