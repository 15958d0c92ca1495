import AnyFlow.Analysis.Pass
import AnyFlow.Proofs.Emitter
import AnyFlow.Proofs.Found

namespace AnyFlow

namespace Pass

def take (file : String) (s : Pass) : Step → Pass
  | .unresolved cause => s.note (.typeUnavailable cause)
  | .found f => s.report f
  | .skipped rule node failure => s.note (.ruleSkipped file rule node failure)

def takeAll (file : String) (s : Pass) (steps : List Step) : Pass := steps.foldl (take file) s

theorem takeAll_append {file : String} {s : Pass} {u v : List Step} :
    s.takeAll file (u ++ v) = (s.takeAll file u).takeAll file v := List.foldl_append

end Pass

theorem Action.runOn_bind {α β : Type} (a : Action α) (f : α → Action β) (s : Pass) :
    (a >>= f).runOn s = match a.runOn s with
      | (.ok x, s) => (f x).runOn s
      | (.error failure, s) => (.error failure, s) := by
  simp only [runOn, ExceptT.run_bind, StateT.run_bind]
  rcases a.run.run s with ⟨_ | _, s⟩
  · rfl
  · rfl

namespace Context

variable {α β : Type} {cx : Context} {n : Node} {a : Action α} {f : α → Action β} {x : α} {y : β}
  {u v : List Step}

/-- The action succeeds with `x` and takes `steps`. -/
def Takes (cx : Context) (a : Action α) (x : α) (steps : List Step) : Prop :=
  ∀ s, a.runOn s = (.ok x, s.takeAll cx.tree.file steps)

theorem takes_pure : cx.Takes (pure x) x [] := fun _ ↦ rfl

theorem Takes.bind (ha : cx.Takes a x u) (hf : cx.Takes (f x) y v) :
    cx.Takes (a >>= f) y (u ++ v) := by
  intro s
  rw [Action.runOn_bind, ha s, Pass.takeAll_append]
  exact hf _

theorem Takes.bind_pure (ha : cx.Takes a x u) (hf : f x = pure y) : cx.Takes (a >>= f) y u := by
  have hbind := ha.bind (f := f) (hf ▸ takes_pure)
  rwa [List.append_nil] at hbind

theorem Takes.forM {xs : List α} {g : α → Action Unit} {steps : α → List Step}
    (hg : ∀ x, cx.Takes (g x) () (steps x)) : cx.Takes (xs.forM g) () (xs.flatMap steps) := by
  induction xs with
  | nil => exact takes_pure
  | cons x xs ih =>
    rw [List.flatMap_cons]
    exact (hg x).bind ih

theorem takes_emit {anchor : Node} {m : Message} {data : List (String × String)} :
    cx.Takes (emit anchor m data) () [.found (.ofNode anchor m data)] := fun _ ↦ rfl

theorem takes_resolve : cx.Takes (cx.resolve n) (cx.oracle.type? n) (cx.ask n) := by
  intro s
  rw [resolve, Oracle.type?, ask]
  cases cx.oracle n with
  | ok ty => rfl
  | error e => rfl

theorem takes_classify : cx.Takes (cx.classify n) (cx.oracle.exposure n) (cx.ask n) := by
  refine takes_resolve.bind_pure ?_
  rw [Oracle.exposure]
  cases cx.oracle.type? n with
  | none => rfl
  | some ty => rfl

theorem takes_judge {anchor value : Node} {m : Message} {data : List (String × String)} :
    cx.Takes (cx.judge anchor value m data) () (cx.reportLeak anchor value m data) := by
  refine takes_classify.bind ?_
  split
  · exact takes_emit
  · exact takes_pure

theorem takes_judgeLength {args : List Node} :
    cx.Takes (cx.judgeLength args) (cx.isLengthOnly args)
      ((match args with
        | [arg] => if arg.kind = Kind.spreadElement then [] else [arg]
        | _ => []).flatMap cx.ask) := by
  match args with
  | [] => exact takes_pure
  | [arg] =>
    rw [judgeLength, isLengthOnly]
    by_cases hk : arg.kind = Kind.spreadElement
    · simp only [hk]
      exact takes_pure
    · have hne : (arg.kind != Kind.spreadElement) = true := bne_iff_ne.mpr hk
      rw [if_neg hk, hne, Bool.true_and]
      dsimp only
      rw [if_neg hk, List.flatMap_singleton]
      exact takes_resolve.bind_pure rfl
  | _ :: _ :: _ => exact takes_pure

theorem takes_judgeArray {call : Node} : cx.Takes (cx.judgeArray call) (cx.buildsAnyArray call)
    ((cx.askedByArray call).flatMap cx.ask) := by
  rw [judgeArray, buildsAnyArray, askedByArray]
  cases cx.isArrayConstructor call with
  | false => exact takes_pure
  | true =>
    rw [if_pos rfl, if_pos rfl, List.flatMap_cons]
    refine takes_resolve.bind ?_
    rw [← isTypedElsewhere]
    cases cx.isTypedElsewhere call with
    | true => exact takes_pure
    | false => exact takes_judgeLength

/-- The action takes the steps that it should, or it fails as it should and changes nothing. -/
def Does (cx : Context) (a : Action Unit) : Except Failure (List Step) → Prop
  | .ok steps => cx.Takes a () steps
  | .error failure => ∀ s, a.runOn s = (.error failure, s)

theorem does_bind {e : Except Failure α} {f : α → Action Unit} {g : α → Except Failure (List Step)}
    (h : ∀ x, e = .ok x → cx.Does (f x) (g x)) : cx.Does (liftM e >>= f) (e >>= g) := by
  cases e with
  | ok x => exact h x rfl
  | error failure => exact fun _ ↦ rfl

theorem Takes.does_bind {f : α → Action Unit} {r : Except Failure (List Step)}
    (ha : cx.Takes a x []) (hf : cx.Does (f x) r) : cx.Does (a >>= f) r := by
  cases r with
  | ok steps => exact ha.bind hf
  | error failure =>
    intro s
    rw [Action.runOn_bind, ha s]
    exact hf s

theorem ask_of_type? {ty : Ty} (h : cx.oracle.type? n = some ty) : cx.ask n = [] := by
  rw [Oracle.type?] at h
  rw [ask]
  cases hn : cx.oracle n with
  | ok ty => rfl
  | error e => simp [hn, Except.toOption] at h

theorem takes_classify_any (h : cx.oracle.exposure n = .any) :
    cx.Takes (cx.classify n) .any [] := by
  have hask : cx.ask n = [] := by
    rw [Oracle.exposure] at h
    cases hty : cx.oracle.type? n with
    | none => simp [hty] at h
    | some ty => exact ask_of_type? hty
  rw [← h, ← hask]
  exact takes_classify

theorem does_performNamed {m : Message} {key : String} {failure : Failure} :
    cx.Does (Rule.performNamed cx n m key failure)
      (if cx.oracle.exposure n = .any then
        match n.text? with
        | some name => .ok [.found (.ofNode n m [(key, name)])]
        | none => .error failure
      else .ok (cx.ask n)) := by
  by_cases he : cx.oracle.exposure n = .any
  · rw [if_pos he]
    refine (takes_classify_any he).does_bind ?_
    rw [if_pos rfl]
    cases n.text? with
    | some name => exact takes_emit
    | none => exact fun _ ↦ rfl
  · rw [if_neg he]
    exact takes_classify.bind_pure (if_neg he)

theorem does_performUnsafeInitializer :
    cx.Does (Rule.performUnsafeInitializer cx n) (Rule.applyUnsafeInitializer cx n) := by
  refine does_bind fun id _ ↦ does_bind fun init _ ↦ ?_
  split
  · exact takes_pure
  · by_cases he : cx.oracle.exposure init = .any
    · rw [if_neg (not_not.mpr he)]
      refine (takes_classify_any he).does_bind ?_
      rw [if_neg (not_not.mpr rfl)]
      split
      · exact takes_emit
      · split
        · exact takes_pure
        · exact takes_emit
    · rw [if_pos he]
      exact takes_classify.bind_pure (if_pos he)

theorem Takes.emitIf {a : Action Bool} {b : Bool} {anchor : Node} {m : Message}
    {data : List (String × String)} (ha : cx.Takes a b u) :
    cx.Takes (a >>= fun b ↦ if b then emit anchor m data else pure ()) ()
      (u ++ if b then [.found (.ofNode anchor m data)] else []) := by
  refine ha.bind ?_
  cases b with
  | true => exact takes_emit
  | false => exact takes_pure

theorem does_performImplicitAnyArray :
    cx.Does (Rule.performImplicitAnyArray cx n) (Rule.applyImplicitAnyArray cx n) := by
  refine does_bind fun id _ ↦ does_bind fun init _ ↦ ?_
  cases cx.isAnnotated id with
  | true => exact takes_pure
  | false =>
    simp only [judgeStart]
    generalize init.kind = kind
    cases kind with
    | arrayExpression => exact takes_pure.emitIf
    | callExpression | newExpression => exact takes_judgeArray.emitIf
    | _ => exact takes_pure.emitIf

theorem does_performLoopBinding :
    cx.Does (Rule.performLoopBinding cx n) (Rule.applyLoopBinding cx n) := by
  refine does_bind fun left _ ↦ does_bind fun right _ ↦ ?_
  have hresolve : cx.Takes (cx.resolve right) _ _ := takes_resolve
  cases hty : cx.oracle.type? right with
  | none =>
    rw [hty] at hresolve
    exact hresolve.bind_pure rfl
  | some ty =>
    rw [hty, ask_of_type? hty] at hresolve
    refine hresolve.does_bind ?_
    dsimp only
    split
    · exact takes_emit
    · exact takes_pure

theorem does_perform (rule : Rule) : cx.Does (rule.perform cx n) (rule.apply cx n) := by
  cases rule with
  | typeReference => exact does_performNamed
  | patternBinding => exact does_performNamed
  | uninitializedLet =>
    refine does_bind fun kind _ ↦ does_bind fun id _ ↦ ?_
    split
    · exact takes_pure
    · exact takes_emit
  | nullishLet =>
    refine does_bind fun kind _ ↦ does_bind fun id _ ↦ does_bind fun init _ ↦ ?_
    cases cx.isAnnotated id with
    | true => exact takes_pure
    | false =>
      cases init.isNullLiteral || init.isIdentifier "undefined" with
      | true => exact takes_emit
      | false => exact takes_pure
  | unsafeInitializer => exact does_performUnsafeInitializer
  | implicitAnyArray => exact does_performImplicitAnyArray
  | loopBinding => exact does_performLoopBinding
  | returnValue =>
    rw [Rule.perform, Rule.apply, Rule.performReturnValue, Rule.applyReturnValue]
    generalize n.kind = kind
    cases kind with
    | returnStatement => exact does_bind fun value _ ↦ takes_judge
    | arrowFunctionExpression => exact does_bind fun body _ ↦ takes_judge
    | _ => exact fun _ ↦ rfl
  | callArguments => exact Takes.forM fun _ ↦ takes_judge
  | assignedValue =>
    rw [Rule.perform, Rule.apply, Rule.performAssignedValue, Rule.applyAssignedValue]
    generalize n.kind = kind
    cases kind with
    | assignmentExpression operator => exact does_bind fun right _ ↦ takes_judge
    | _ => exact fun _ ↦ rfl
  | updatedValue =>
    rw [Rule.perform, Rule.apply, Rule.performUpdatedValue, Rule.applyUpdatedValue]
    generalize n.kind = kind
    cases kind with
    | updateExpression operator leading => exact does_bind fun operand _ ↦ takes_judge
    | _ => exact fun _ ↦ rfl
  | booleanTest | switchDiscriminant | switchCaseTest => exact does_bind fun c _ ↦ takes_judge

theorem attempt_eq (s : Pass) (rule : Rule) :
    cx.attempt n s rule = s.takeAll cx.tree.file (cx.stepsOfRule n rule) := by
  have hdoes : cx.Does _ (rule.apply cx n) := does_perform rule
  rw [attempt, stepsOfRule]
  cases hr : rule.apply cx n with
  | ok steps =>
    rw [hr] at hdoes
    rw [hdoes s]
  | error failure =>
    rw [hr] at hdoes
    rw [hdoes s]
    rfl

theorem attemptAll_eq (rules : List Rule) (s : Pass) :
    cx.attemptAll n rules s = s.takeAll cx.tree.file (rules.flatMap (cx.stepsOfRule n)) := by
  induction rules generalizing s with
  | nil => rfl
  | cons rule rules ih =>
    rw [List.flatMap_cons, Pass.takeAll_append, ← attempt_eq, ← ih]
    rfl

theorem foldl_visit (ns : List Node) (s : Pass) :
    ns.foldl cx.visit s = s.takeAll cx.tree.file (ns.flatMap cx.stepsOfNode) := by
  induction ns generalizing s with
  | nil => rfl
  | cons n ns ih => rw [List.foldl_cons, ih, visit, attemptAll_eq, List.flatMap_cons,
      Pass.takeAll_append, stepsOfNode]

end Context

theorem Report.eventsOf_found {file : String} {r : Report} {f : Finding} {steps : List Step} :
    r.eventsOf file (.found f :: steps) =
      (if r.isNew f then [] else [.duplicateDropped f.anchor f.message]) ++
        (r.add f).eventsOf file steps := by
  rw [eventsOf, add]
  split
  · rfl
  · rfl

namespace Pass

variable {file : String} {sink : List Finding} {r : Report} {s : Pass}

theorem report_tracks (h : s.emitter.Tracks sink r) (f : Finding) :
    (s.report f).emitter.Tracks sink (r.add f) ∧ (s.report f).events =
      s.events ++ if r.isNew f then [] else [.duplicateDropped f.anchor f.message] := by
  obtain ⟨hnew, hadd⟩ := h.emit f
  rw [report, ← hnew]
  generalize s.emitter.emit f = answer at hadd ⊢
  match answer with
  | (true, emitter) => exact ⟨hadd, (List.append_nil _).symm⟩
  | (false, emitter) => exact ⟨hadd, rfl⟩

/-- Steps add to the report their findings and to the events what is told of them. -/
theorem takeAll_tracks (h : s.emitter.Tracks sink r) (steps : List Step) :
    (s.takeAll file steps).emitter.Tracks sink (r.addAll (steps.filterMap Step.finding?)) ∧
      (s.takeAll file steps).events = s.events ++ r.eventsOf file steps := by
  induction steps generalizing s r with
  | nil => exact ⟨h, (List.append_nil _).symm⟩
  | cons step steps ih =>
    cases step with
    | unresolved cause =>
      obtain ⟨hlater, hevents⟩ := ih (s := s.note (.typeUnavailable cause)) h
      exact ⟨hlater, hevents.trans (List.append_assoc ..)⟩
    | skipped rule node failure =>
      obtain ⟨hlater, hevents⟩ := ih (s := s.note (.ruleSkipped file rule node failure)) h
      exact ⟨hlater, hevents.trans (List.append_assoc ..)⟩
    | found f =>
      obtain ⟨hadd, hreport⟩ := report_tracks h f
      obtain ⟨hlater, hevents⟩ := ih hadd
      rw [hreport, List.append_assoc, ← Report.eventsOf_found] at hevents
      exact ⟨hlater, hevents⟩

end Pass

namespace Context

/-- The pass hands on the findings, counts them, and leaves the events of the analysis. -/
theorem pass_eq (cx : Context) (sink : List Finding) :
    (cx.pass sink).emitter.Tracks sink cx.report ∧ (cx.pass sink).events = cx.events := by
  let start : Pass := ⟨.new sink, [.started cx.tree.file cx.tree.size]⟩
  have hstart : start.emitter.Tracks sink .empty := .new
  obtain ⟨htracks, hevents⟩ := Pass.takeAll_tracks hstart cx.steps
  have hpass : cx.pass sink = (start.takeAll cx.tree.file cx.steps).note
      (.completed cx.tree.file (start.takeAll cx.tree.file cx.steps).emitter.emitted) := by
    rw [pass, foldl_visit]
    rfl
  rw [hpass, htracks.emitted_eq]
  refine ⟨htracks, ?_⟩
  change (start.takeAll cx.tree.file cx.steps).events ++ _ = cx.events
  rw [hevents]
  rfl

end Context

end AnyFlow
