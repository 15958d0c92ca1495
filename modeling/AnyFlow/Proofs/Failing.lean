import AnyFlow.Proofs.Bounds
import AnyFlow.Proofs.Matching
import AnyFlow.Proofs.Pass
import AnyFlow.Proofs.Recorded

namespace AnyFlow

def Failure.isMisapplied : Failure → Bool
  | .strayDeclarator .. | .returnsNothing .. | .noAssignment _ | .noUpdate _
  | .missingChild _ _ .init | .missingChild _ _ .body | .missingChild _ _ .test => true
  | _ => false

namespace Context

variable {α : Type} {cx : Context} {n : Node} {r : Role} {rule : Rule} {failure : Failure}

def Lacks (cx : Context) (n : Node) (r : Role) (failure : Failure) : Prop :=
  cx.tree.childIn? n.id r = none ∧ failure = .missingChild n.kind n.id r

def Nameless (cx : Context) (n : Node) (nameless failure : Failure) : Prop :=
  cx.oracle.type? n = some .any ∧ (∀ name, n.value ≠ .text name) ∧ failure = nameless

/-- How a rule that applies to a node fails. -/
def Fails (cx : Context) (n : Node) (failure : Failure) : Rule → Prop
  | .typeReference => cx.Nameless n (.namelessReference n.id) failure
  | .patternBinding => cx.Nameless n (.namelessBinding n.id) failure
  | .uninitializedLet | .nullishLet | .unsafeInitializer | .implicitAnyArray =>
    cx.Lacks n .id failure
  | .loopBinding => cx.Lacks n .left failure ∨
      (cx.tree.childIn? n.id .left).isSome ∧ cx.Lacks n .right failure
  | .assignedValue => cx.Lacks n .right failure
  | .updatedValue => cx.Lacks n .argument failure
  | .switchDiscriminant => cx.Lacks n .discriminant failure
  | .returnValue | .callArguments | .booleanTest | .switchCaseTest => False

theorem not_misapplied_of_fails (h : cx.Fails n failure rule) : failure.isMisapplied = false := by
  cases rule with
  | typeReference | patternBinding =>
    obtain ⟨-, -, rfl⟩ := h
    rfl
  | loopBinding =>
    rcases h with ⟨-, rfl⟩ | ⟨-, -, rfl⟩
    · rfl
    · rfl
  | returnValue | callArguments | booleanTest | switchCaseTest => exact h.elim
  | _ =>
    obtain ⟨-, rfl⟩ := h
    rfl

theorem pure_ne_error {x : α} : (pure x : Except Failure α) ≠ .error failure := nofun

/-- What needs a child in a role and cannot fail otherwise fails for want of the child. -/
theorem required_bind_eq_error {f : Node → Except Failure α}
    (hf : ∀ c, cx.tree.childIn? n.id r = some c → f c ≠ .error failure) :
    (cx.required n r >>= f) = .error failure ↔ cx.Lacks n r failure := by
  rw [Lacks]
  cases hc : cx.tree.childIn? n.id r with
  | none =>
    rw [required_of_none hc]
    simp [bind, Except.bind, eq_comm]
  | some c =>
    rw [required_of_childIn? hc, ok_bind]
    simp [hf c hc]

theorem exposure_eq_any_iff : cx.oracle.exposure n = .any ↔ cx.oracle.type? n = some .any := by
  rw [Oracle.exposure]
  cases cx.oracle.type? n with
  | none => simp
  | some ty => simp [Ty.exposure_eq_any]

theorem text?_eq_none_iff : n.text? = none ↔ ∀ name, n.value ≠ .text name := by
  simp only [Option.eq_none_iff_forall_ne_some, ne_eq, Node.text?_eq_some]

theorem named_eq_error {m : Message} {key : String} {nameless : Failure} :
    (if cx.oracle.exposure n = .any then
        match n.text? with
        | some name => Except.ok [Step.found (.ofNode n m [(key, name)])]
        | none => .error nameless
      else .ok (cx.ask n)) = .error failure ↔ cx.Nameless n nameless failure := by
  rw [Nameless, ← exposure_eq_any_iff, ← text?_eq_none_iff]
  split
  · cases n.text? with
    | none => simp [*, eq_comm]
    | some name => simp
  · simp [*]

theorem applyUninitializedLet_eq_error (ha : Rule.uninitializedLet.Applies cx.tree n) :
    Rule.applyUninitializedLet cx n = .error failure ↔ cx.Lacks n .id failure := by
  obtain ⟨k, p, hd, -⟩ := ha
  rw [Rule.applyUninitializedLet, variableKind_of_declares hd, ok_bind]
  refine required_bind_eq_error fun b _ ↦ ?_
  split <;> exact pure_ne_error

section Initialised

variable {init : Node} (hi : cx.tree.childIn? n.id .init = some init)

include hi

theorem applyNullishLet_eq_error {k : VariableKind} (hk : cx.variableKind n = .ok k) :
    Rule.applyNullishLet cx n = .error failure ↔ cx.Lacks n .id failure := by
  rw [Rule.applyNullishLet, hk, ok_bind]
  refine required_bind_eq_error fun b _ ↦ ?_
  rw [required_of_childIn? hi, ok_bind]
  split <;> exact pure_ne_error

theorem applyUnsafeInitializer_eq_error :
    Rule.applyUnsafeInitializer cx n = .error failure ↔ cx.Lacks n .id failure := by
  rw [Rule.applyUnsafeInitializer]
  refine required_bind_eq_error fun b _ ↦ ?_
  rw [required_of_childIn? hi, ok_bind]
  split_ifs <;> exact pure_ne_error

theorem applyImplicitAnyArray_eq_error :
    Rule.applyImplicitAnyArray cx n = .error failure ↔ cx.Lacks n .id failure := by
  rw [Rule.applyImplicitAnyArray]
  refine required_bind_eq_error fun b _ ↦ ?_
  rw [required_of_childIn? hi, ok_bind]
  split
  · exact pure_ne_error
  · split <;> exact pure_ne_error

end Initialised

theorem applyLoopBinding_eq_error :
    Rule.applyLoopBinding cx n = .error failure ↔ cx.Fails n failure .loopBinding := by
  rw [Rule.applyLoopBinding, Fails]
  cases hl : cx.tree.childIn? n.id .left with
  | none =>
    rw [required_of_none hl]
    simp [bind, Except.bind, eq_comm, Lacks, hl]
  | some left =>
    rw [required_of_childIn? hl, ok_bind, required_bind_eq_error fun right _ ↦ ?_]
    · simp [Lacks, hl]
    · cases cx.oracle.type? right with
      | none => exact pure_ne_error
      | some ty =>
        dsimp only
        split <;> exact pure_ne_error

/-- A rule that applies to a node finds what made it apply, and fails for nothing else than what
`Fails` says. -/
theorem apply_eq_error_iff (ha : rule.Applies cx.tree n) :
    rule.apply cx n = .error failure ↔ cx.Fails n failure rule := by
  cases rule with
  | typeReference | patternBinding => exact named_eq_error
  | uninitializedLet => exact applyUninitializedLet_eq_error ha
  | nullishLet =>
    obtain ⟨k, p, init, hd, -, hi⟩ := ha
    exact applyNullishLet_eq_error hi (variableKind_of_declares hd)
  | unsafeInitializer =>
    obtain ⟨k, p, init, -, hi⟩ := ha
    exact applyUnsafeInitializer_eq_error hi
  | implicitAnyArray =>
    obtain ⟨k, p, init, -, hi⟩ := ha
    exact applyImplicitAnyArray_eq_error hi
  | loopBinding => exact applyLoopBinding_eq_error
  | returnValue =>
    rw [Rule.apply, Rule.applyReturnValue]
    rcases ha with ⟨hk, value, hv⟩ | ⟨hk, body, hb, -⟩
    · rw [hk, required_of_childIn? hv]
      exact iff_of_false pure_ne_error id
    · rw [hk, required_of_childIn? hb]
      exact iff_of_false pure_ne_error id
  | callArguments => exact iff_of_false pure_ne_error id
  | assignedValue =>
    obtain ⟨operator, hk⟩ := ha
    rw [Rule.apply, Rule.applyAssignedValue, hk]
    exact required_bind_eq_error fun _ _ ↦ pure_ne_error
  | updatedValue =>
    obtain ⟨operator, leading, hk⟩ := ha
    rw [Rule.apply, Rule.applyUpdatedValue, hk]
    exact required_bind_eq_error fun _ _ ↦ pure_ne_error
  | switchDiscriminant => exact required_bind_eq_error fun _ _ ↦ pure_ne_error
  | booleanTest | switchCaseTest =>
    obtain ⟨-, test, ht⟩ := ha
    rw [Rule.apply, Rule.applyToChild, required_of_childIn? ht]
    exact iff_of_false pure_ne_error id

theorem Does.runOn_eq_error {a : Action Unit} {e : Except Failure (List Step)} (h : cx.Does a e)
    (s s' : Pass) : a.runOn s = (.error failure, s') ↔ e = .error failure ∧ s' = s := by
  cases e with
  | ok steps =>
    rw [h s]
    simp
  | error _ =>
    rw [h s]
    simp [eq_comm]

end Context

/-- On a tree of any links, a rule that the dispatcher gives to a node fails exactly as `Fails`
says, for want of a child or of a text and never because it does not apply. It fails in the state
of the pass in which it began, and the pass notes the failure and goes on with the next rule. -/
theorem rule_fails_exactly (t : Tree) (o : Oracle) (options : Options) (n : Node)
    {rules : List Rule} (hm : Rule.Matched t n rules) {rule : Rule} (hr : rule ∈ rules) :
    let cx := Context.mk t o options
    (∀ (s s' : Pass) (failure : Failure), (rule.perform cx n).runOn s = (.error failure, s') ↔
      cx.Fails n failure rule ∧ s' = s) ∧
    ∀ failure, cx.Fails n failure rule → failure.isMisapplied = false ∧
      ∀ (s : Pass) (later : List Rule), cx.attemptAll n (rule :: later) s =
        cx.attemptAll n later (s.note (.ruleSkipped t.file rule n.id failure)) := by
  intro cx
  have ha : rule.Applies t n := Rule.mem_matching.mp (hm.eq ▸ hr)
  have hfails (s s' : Pass) (failure : Failure) :
      (rule.perform cx n).runOn s = (.error failure, s') ↔ cx.Fails n failure rule ∧ s' = s := by
    rw [(Context.does_perform rule).runOn_eq_error, Context.apply_eq_error_iff ha]
  refine ⟨hfails, fun failure hf ↦ ⟨Context.not_misapplied_of_fails hf, fun s later ↦ ?_⟩⟩
  -- the state in which the failure is noted is the one before the rule
  have hrun := (hfails s s failure).mpr ⟨hf, rfl⟩
  rw [Context.attemptAll, List.foldl_cons, Context.attempt, hrun]
  rfl

/-- A mutable declarator with a value and without a name, in a tree with a root that does not
exist. -/
def namelessSample : Tree :=
  let b := Builder.performAll (.new "let.ts")
    [.root (.variableDeclaration .letBound), .child 0 .declarations .variableDeclarator,
      .child 1 .init .literal]
  { b.tree with roots := [0, 3] }

theorem rule_fails_exactly_nameless :
    let n := namelessSample.nodes[1]!
    let cx := Context.mk namelessSample (fun n ↦ .error ⟨n.id, n.kind⟩) .defaults
    let held := Finding.ofNode n .letNullish [("kind", "let")]
    let s := Pass.mk ⟨[held], [held.key], 1⟩ []
    let failure := Failure.missingChild .variableDeclarator 1 .id
    namelessSample.checkLinks ≠ .ok () ∧
    Rule.Matched namelessSample n [.nullishLet, .unsafeInitializer, .implicitAnyArray] ∧
    (Rule.nullishLet.perform cx n).runOn s = (.error failure, s) ∧
    failure.message = "VariableDeclarator node 1 has no Id child" := by
  intro n cx held s failure
  have hm : Rule.Matched namelessSample n [.nullishLet, .unsafeInitializer, .implicitAnyArray] :=
    rfl
  have hfails := (rule_fails_exactly namelessSample cx.oracle cx.options n hm List.mem_cons_self).1
  exact ⟨by decide, hm, (hfails s s failure).mpr ⟨⟨rfl, rfl⟩, rfl⟩, by decide⟩

end AnyFlow
