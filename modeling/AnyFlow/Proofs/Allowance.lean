import AnyFlow.Proofs.Matching
import AnyFlow.Proofs.Pass

namespace AnyFlow

namespace Step

def isKept : Step → Bool
  | .found f => f.message ≠ .initialAnnotated
  | _ => true

def warning? (file : String) : Step → Option Event
  | .skipped rule node failure => some (.ruleSkipped file rule node failure)
  | _ => none

theorem findings_kept (steps : List Step) : (steps.filter isKept).filterMap finding? =
    (steps.filterMap finding?).filter (·.message ≠ .initialAnnotated) := by
  rw [List.filterMap_filter, List.filter_filterMap]
  refine List.filterMap_congr fun step _ ↦ ?_
  cases step with
  | found f =>
    by_cases hm : f.message = .initialAnnotated <;> simp [isKept, finding?, hm, Option.filter_some]
  | unresolved | skipped => rfl

theorem warnings_kept (file : String) (steps : List Step) :
    (steps.filter isKept).filterMap (warning? file) = steps.filterMap (warning? file) := by
  rw [List.filterMap_filter]
  refine List.filterMap_congr fun step _ ↦ ?_
  cases step with
  | found f => exact ite_self _
  | unresolved | skipped => rfl

end Step

theorem Report.warnings_eventsOf {file : String} (r : Report) (steps : List Step) :
    (r.eventsOf file steps).filter Event.isWarning = steps.filterMap (Step.warning? file) := by
  induction steps generalizing r with
  | nil => rfl
  | cons step steps ih =>
    cases step with
    | unresolved cause => exact ih r
    | skipped rule node failure => exact congrArg (_ :: ·) (ih r)
    | found f =>
      rw [eventsOf_found, List.filter_append, ih]
      split <;> rfl

namespace Context

variable {t : Tree} {o : Oracle} {n : Node} {rule : Rule}

theorem warnings_eq (cx : Context) :
    cx.warnings = cx.steps.filterMap (Step.warning? cx.tree.file) := by
  rw [warnings, events, List.filter_append, List.filter_cons_of_neg (by simp [Event.isWarning]),
    Report.warnings_eventsOf]
  exact List.append_nil _

/-- Only one rule looks at the options. -/
theorem apply_options (hr : rule ≠ .unsafeInitializer) (p q : Options) :
    rule.apply ⟨t, o, p⟩ n = rule.apply ⟨t, o, q⟩ n := by
  cases rule with
  | unsafeInitializer => exact absurd rfl hr
  | _ => rfl

theorem isKept_of_mem_steps {cx : Context} (ha : rule.Applies cx.tree n)
    (hr : rule ≠ .unsafeInitializer) {step : Step} (hs : step ∈ cx.stepsOfRule n rule) :
    step.isKept := by
  cases step with
  | unresolved | skipped => rfl
  | found f =>
    have hf : f ∈ cx.foundBy n rule := by
      rw [← findings_stepsOfRule]
      exact List.mem_filterMap.mpr ⟨_, hs, rfl⟩
    obtain ⟨a, m, data, -, hmem, -, -, rfl⟩ := found_form ha hf
    refine decide_eq_true fun hm ↦ hr (Rule.eq_of_mem_messages hmem ?_)
    rw [show m = _ from hm]
    decide

theorem filter_ask {cx : Context} : (cx.ask n).filter Step.isKept = cx.ask n := by
  rw [ask]
  split <;> rfl

theorem applyUnsafeInitializer_allowing :
    Rule.applyUnsafeInitializer ⟨t, o, ⟨true⟩⟩ n =
      List.filter Step.isKept <$> Rule.applyUnsafeInitializer ⟨t, o, ⟨false⟩⟩ n := by
  rw [Rule.applyUnsafeInitializer, Rule.applyUnsafeInitializer, map_bind]
  refine bind_congr fun b ↦ ?_
  rw [map_bind]
  refine bind_congr fun init ↦ ?_
  split
  · rfl
  · split
    · exact congrArg pure filter_ask.symm
    -- only the binding decides, and it is annotated with the option as without
    · change (if !(t.childIn? b.id .typeAscription).isSome then _ else _) =
        _ <$> if !(t.childIn? b.id .typeAscription).isSome then _ else _
      split
      · rfl
      · rfl

theorem stepsOfRule_unsafeInitializer :
    (Context.mk t o ⟨true⟩).stepsOfRule n .unsafeInitializer =
      ((Context.mk t o ⟨false⟩).stepsOfRule n .unsafeInitializer).filter Step.isKept := by
  rw [stepsOfRule, stepsOfRule, Rule.apply, Rule.apply, applyUnsafeInitializer_allowing]
  cases Rule.applyUnsafeInitializer ⟨t, o, ⟨false⟩⟩ n with
  | ok steps => rfl
  | error failure => rfl

theorem stepsOfRule_allowing (ha : rule.Applies t n) :
    (Context.mk t o ⟨true⟩).stepsOfRule n rule =
      ((Context.mk t o ⟨false⟩).stepsOfRule n rule).filter Step.isKept := by
  by_cases hr : rule = .unsafeInitializer
  · rw [hr]
    exact stepsOfRule_unsafeInitializer
  · rw [List.filter_eq_self.mpr fun step hs ↦ isKept_of_mem_steps ha hr hs, stepsOfRule,
      apply_options hr _ ⟨false⟩]
    rfl

theorem steps_allowing : (Context.mk t o ⟨true⟩).steps =
    (Context.mk t o ⟨false⟩).steps.filter Step.isKept := by
  simp only [steps, stepsOfNode, List.filter_flatMap]
  refine List.flatMap_congr fun n _ ↦ List.flatMap_congr fun rule hr ↦ ?_
  exact stepsOfRule_allowing (Rule.mem_matching.mp hr)

end Context

/-- Accepting `any` in annotated declarations takes the findings on them out of the list and leaves
the others as they are and in their order. The same rules fail on the same nodes. -/
theorem allowance_only_filters (t : Tree) (o : Oracle) :
    analyze t o ⟨true⟩ = (analyze t o ⟨false⟩).filter (·.message ≠ .initialAnnotated) ∧
    (Context.mk t o ⟨true⟩).warnings = (Context.mk t o ⟨false⟩).warnings := by
  constructor
  · have hkey (f g : Finding) (hk : f.key = g.key) : decide (f.message ≠ .initialAnnotated) =
        decide (g.message ≠ .initialAnnotated) := by
      rw [show f.message = g.message from congrArg (·.2.1) hk]
    rw [analyze, analyze, Context.findings, Context.findings, Context.report, Context.report,
      Report.filter_addAll hkey, Context.steps_allowing, Step.findings_kept]
    rfl
  · rw [Context.warnings_eq, Context.warnings_eq, Context.steps_allowing]
    exact Step.warnings_kept t.file _

end AnyFlow
