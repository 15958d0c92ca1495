import AnyFlow.Proofs.Declarator

namespace AnyFlow

namespace TypeTable

instance : LE TypeTable := ⟨fun T T' ↦ ∀ id ty, T.get? id = some ty → T'.get? id = some ty⟩

variable {T T' : TypeTable} {n : Node}

theorem RecordsAny.mono (h : T ≤ T') (hn : T.RecordsAny n) : T'.RecordsAny n := h _ _ hn

theorem RecordsAnyArray.mono (h : T ≤ T') (hn : T.RecordsAnyArray n) : T'.RecordsAnyArray n := by
  obtain ⟨readonly, hn⟩ := hn
  exact ⟨readonly, h _ _ hn⟩

theorem RecordsUnsafe.mono (h : T ≤ T') (hn : T.RecordsUnsafe n) : T'.RecordsUnsafe n :=
  Or.imp (RecordsAny.mono h) (RecordsAnyArray.mono h) hn

theorem StartsAny.mono (h : T ≤ T') (hn : T.StartsAny n) : T'.StartsAny n :=
  ⟨hn.1, hn.2.1, hn.2.2.mono h⟩

end TypeTable

namespace Tree

variable {t : Tree} {T T' : TypeTable} {call init : Node}

theorem GivesLengthOnly.mono (h : T ≤ T') (hc : t.GivesLengthOnly T call) :
    t.GivesLengthOnly T' call := by
  rcases hc with ha | ⟨arg, ty, ha, hk, hty, hn⟩
  · exact .inl ha
  · exact .inr ⟨arg, ty, ha, hk, h _ _ hty, hn⟩

/-- A call of which `T` knows nothing, and which does not build an array of `any` by `T'`. -/
structure Overrules (T T' : TypeTable) (call : Node) : Prop where
  kind : call.kind = .callExpression ∨ call.kind = .newExpression
  unknown : T.get? call.id = none
  known : ∃ ty, T'.get? call.id = some ty ∧ ∀ readonly, ty ≠ .array .any readonly

theorem IsOpenArray.not_overrules (h : t.IsOpenArray T' init) : ¬ Overrules T T' init := by
  intro ho
  obtain ⟨ty, hty, hne⟩ := ho.known
  rcases h with ⟨hk, -⟩ | ⟨-, hn | ⟨readonly, hr⟩, -⟩
  · simpa [hk] using ho.kind
  · simp [hn] at hty
  · exact hne readonly (Option.some.inj (hty.symm.trans hr))

theorem IsOpenArray.mono (h : T ≤ T') (hi : t.IsOpenArray T init) (ho : ¬ Overrules T T' init) :
    t.IsOpenArray T' init := by
  rcases hi with hi | ⟨hc, hty, hl⟩
  · exact .inl hi
  · refine .inr ⟨hc, ?_, hl.mono h⟩
    rcases hty with hn | hr
    · cases hty : T'.get? init.id with
      | none => exact .inl rfl
      | some ty =>
        refine .inr ?_
        by_contra hne
        exact ho ⟨hc.kind, hn, ty, hty, fun readonly he ↦ hne ⟨readonly, he ▸ hty⟩⟩
    · exact .inr (hr.mono h)

end Tree

namespace Context

variable {t : Tree} {T T' : TypeTable} {o : Options} {n : Node} {rule : Rule} {f : Finding}

theorem mem_foundBy_implicitAnyArray (ha : Rule.implicitAnyArray.Applies t n) :
    f ∈ (Context.mk t T.oracle o).foundBy n .implicitAnyArray ↔
      ∃ b init, t.childIn? n.id .id = some b ∧ t.childIn? n.id .init = some init ∧
        ¬ t.Annotated b ∧ t.IsOpenArray T init ∧ .ofNode n .initialEmptyArray [] = f := by
  obtain ⟨k, p, init, -, hi⟩ := ha
  cases hb : t.childIn? n.id .id with
  | none =>
    rw [foundBy_of_no_id .implicitAnyArray (by decide) hb]
    simp
  | some b =>
    rw [foundBy_implicitAnyArray_eq hb hi, map_row]
    split
    · rename_i ho
      simp [hi, ho, eq_comm]
    · rename_i ho
      simp only [not_and] at ho
      simp [hi]
      tauto

section More

variable (hT : T ≤ T')

include hT

theorem leaks_mono {v : Node} (h : (Context.mk t T.oracle o).leaks v) :
    (Context.mk t T'.oracle o).leaks v :=
  TypeTable.isLeaking_exposure.mpr ((TypeTable.isLeaking_exposure.mp h).mono hT)

theorem exposure_mono (h : T.oracle.exposure n = .any) : T'.oracle.exposure n = .any :=
  TypeTable.exposure_eq_any.mpr ((TypeTable.exposure_eq_any.mp h).mono hT)

theorem mem_leaking_mono {c? : Option Node} {g : Node → Finding}
    (hf : f ∈ (c?.toList.filter (Context.mk t T.oracle o).leaks).map g) :
    f ∈ (c?.toList.filter (Context.mk t T'.oracle o).leaks).map g := by
  obtain ⟨c, hc, hl, rfl⟩ := mem_map_filter_leaks.mp hf
  exact mem_map_filter_leaks.mpr ⟨c, hc, leaks_mono hT hl, rfl⟩

theorem mem_foundBy_unsafeInitializer_mono (ha : Rule.unsafeInitializer.Applies t n)
    (hf : f ∈ (Context.mk t T.oracle o).foundBy n .unsafeInitializer) :
    f ∈ (Context.mk t T'.oracle o).foundBy n .unsafeInitializer := by
  obtain ⟨k, p, init, -, hi⟩ := ha
  cases hb : t.childIn? n.id .id with
  | none =>
    rw [foundBy_of_no_id .unsafeInitializer (by decide) hb] at hf
    exact absurd hf List.not_mem_nil
  | some b =>
    rw [foundBy_unsafeInitializer_eq hb hi] at hf ⊢
    simp only [List.map_append, List.mem_append, map_row, List.mem_ite_nil_right] at hf ⊢
    exact hf.imp (And.imp_left (And.imp_left (·.mono hT))) (And.imp_left (And.imp_left (·.mono hT)))

/-- What a rule finds it finds again. Only the type of a call that builds an array may speak
against a finding. -/
theorem mem_foundBy_mono (ha : rule.Applies t n)
    (hf : f ∈ (Context.mk t T.oracle o).foundBy n rule)
    (ho : rule = .implicitAnyArray → ∀ init, t.childIn? n.id .init = some init →
      ¬ Tree.Overrules T T' init) :
    f ∈ (Context.mk t T'.oracle o).foundBy n rule := by
  cases rule with
  | typeReference =>
    obtain ⟨he, hname⟩ := mem_foundBy_typeReference.mp hf
    exact mem_foundBy_typeReference.mpr ⟨exposure_mono hT he, hname⟩
  | patternBinding =>
    obtain ⟨he, hname⟩ := mem_foundBy_patternBinding.mp hf
    exact mem_foundBy_patternBinding.mpr ⟨exposure_mono hT he, hname⟩
  | uninitializedLet | nullishLet => exact hf
  | unsafeInitializer => exact mem_foundBy_unsafeInitializer_mono hT ha hf
  | implicitAnyArray =>
    obtain ⟨b, init, hb, hi, hann, hopen, rfl⟩ := (mem_foundBy_implicitAnyArray ha).mp hf
    exact (mem_foundBy_implicitAnyArray ha).mpr
      ⟨b, init, hb, hi, hann, hopen.mono hT (ho rfl init hi), rfl⟩
  | loopBinding =>
    obtain ⟨left, right, ty, hl, hr, hty, hany⟩ := mem_foundBy_loopBinding.mp hf
    rw [TypeTable.type?_oracle] at hty
    refine mem_foundBy_loopBinding.mpr ⟨left, right, ty, hl, hr, ?_, hany⟩
    exact TypeTable.type?_oracle.trans (hT _ _ hty)
  | returnValue =>
    rcases ha with ⟨hk, -⟩ | ⟨hk, -⟩
    · rw [foundBy_returnStatement hk] at hf ⊢
      exact mem_leaking_mono hT hf
    · rw [foundBy_arrowFunction hk] at hf ⊢
      exact mem_leaking_mono hT hf
  | callArguments =>
    rw [foundBy_callArguments] at hf ⊢
    obtain ⟨x, hx, rfl⟩ := List.mem_map.mp hf
    obtain ⟨hx, hl⟩ := List.mem_filter.mp hx
    exact List.mem_map_of_mem (List.mem_filter.mpr ⟨hx, leaks_mono hT hl⟩)
  | assignedValue =>
    obtain ⟨operator, hk⟩ := ha
    rw [foundBy_assignedValue hk] at hf ⊢
    exact mem_leaking_mono hT hf
  | updatedValue =>
    obtain ⟨operator, leading, hk⟩ := ha
    rw [foundBy_updatedValue hk] at hf ⊢
    exact mem_leaking_mono hT hf
  | booleanTest =>
    rw [foundBy_booleanTest] at hf ⊢
    exact mem_leaking_mono hT hf
  | switchDiscriminant =>
    rw [foundBy_switchDiscriminant] at hf ⊢
    exact mem_leaking_mono hT hf
  | switchCaseTest =>
    rw [foundBy_switchCaseTest] at hf ⊢
    exact mem_leaking_mono hT hf

end More

theorem not_overrules_of_found (hf : f ∈ (Context.mk t T'.oracle o).foundAt n)
    (hm : f.message = .initialEmptyArray) {init : Node}
    (hi : t.childIn? f.anchor .init = some init) : ¬ Tree.Overrules T T' init := by
  have hmem : f.message ∈ Rule.messages .implicitAnyArray := List.mem_singleton.mpr hm
  obtain ⟨ha, hf⟩ := foundBy_of_mem_messages hf hmem
  obtain ⟨b, init', -, hi', -, hopen, rfl⟩ := (mem_foundBy_implicitAnyArray ha).mp hf
  cases Option.some.inj (hi.symm.trans hi')
  exact hopen.not_overrules

theorem mem_foundAt_mono (hT : T ≤ T') (hf : f ∈ (Context.mk t T.oracle o).foundAt n)
    (ho : f.message = .initialEmptyArray → ∀ init, t.childIn? f.anchor .init = some init →
      ¬ Tree.Overrules T T' init) :
    f ∈ (Context.mk t T'.oracle o).foundAt n := by
  obtain ⟨rule, ha, hfr⟩ := mem_foundAt.mp hf
  refine mem_foundAt.mpr ⟨rule, ha, mem_foundBy_mono hT ha hfr ?_⟩
  rintro rfl
  obtain ⟨b, init, -, -, -, -, rfl⟩ := (mem_foundBy_implicitAnyArray ha).mp hfr
  exact ho rfl

end Context

/-- If `T` records fewer types than `T'`, all that is found with `T` is found with `T'`, except
exactly the arrays that `T` takes to be open because it does not know the type of the call that
builds them, while `T'` knows it to be another one than an array of `any`. -/
theorem found_with_more_types {t : Tree} {T T' : TypeTable} (o : Options)
    (h : t.checkLinks = .ok ()) (hT : T ≤ T') {f : Finding} (hf : f ∈ analyze t T.oracle o) :
    f ∈ analyze t T'.oracle o ↔ ¬ (f.message = .initialEmptyArray ∧
      ∃ init, t.childIn? f.anchor .init = some init ∧ Tree.Overrules T T' init) := by
  have hw := Tree.checkLinks_eq_ok_iff.mp h
  have hmem (T : TypeTable) : f ∈ analyze t T.oracle o ↔
      ∃ n ∈ t.preorder, f ∈ (Context.mk t T.oracle o).foundAt n := Context.mem_findings hw
  rw [hmem T']
  constructor
  · intro hf'
    obtain ⟨n, -, hf'⟩ := hf'
    rintro ⟨hm, init, hi, ho⟩
    exact Context.not_overrules_of_found hf' hm hi ho
  · intro ho
    obtain ⟨n, hn, hf⟩ := (hmem T).mp hf
    refine ⟨n, hn, Context.mem_foundAt_mono hT hf fun hm init hi hinit ↦ ?_⟩
    exact ho ⟨hm, init, hi, hinit⟩

/-- The declaration `let xs = Array(3)` and the statement `return x`. -/
def arraySample : Tree :=
  (Builder.performAll (.new "array.ts")
    [.root (.variableDeclaration .letBound), .child 0 .declarations .variableDeclarator,
      .child 1 .id .identifier, .child 1 .init .callExpression, .child 3 .callee .identifier,
      .value 4 (.text "Array"), .child 3 .arguments .literal,
      .root .returnStatement, .child 6 .argument .identifier]).tree

/-- The types of the argument and of `x`. -/
def argumentTypes : TypeTable := .ofList [(5, .number), (7, .any)]

def callTypesToo : TypeTable := .ofList [(3, .arrayOf .number), (5, .number), (7, .any)]

theorem found_with_more_types_arraySample :
    let kept := Finding.ofNode arraySample.nodes[6]! .returned []
    let lost := Finding.ofNode arraySample.nodes[1]! .initialEmptyArray []
    arraySample.checkLinks = .ok () ∧ argumentTypes ≤ callTypesToo ∧
    kept ∈ analyze arraySample argumentTypes.oracle .defaults ∧
    kept ∈ analyze arraySample callTypesToo.oracle .defaults ∧
    lost ∈ analyze arraySample argumentTypes.oracle .defaults ∧
    lost ∉ analyze arraySample callTypesToo.oracle .defaults := by
  intro kept lost
  have h : arraySample.checkLinks = .ok () := rfl
  have hT : argumentTypes ≤ callTypesToo := by
    intro id ty hty
    have hne : id ≠ 3 := by
      rintro rfl
      exact nomatch hty
    have hentries : callTypesToo.types.entries =
        (3, .arrayOf .number) :: argumentTypes.types.entries := rfl
    rw [TypeTable.get?, Dict.get?, hentries, List.lookup_cons, beq_false_of_ne hne]
    exact hty
  have hkept : kept ∈ analyze arraySample argumentTypes.oracle .defaults := by decide +kernel
  have hlost : lost ∈ analyze arraySample argumentTypes.oracle .defaults := by decide +kernel
  have hcall : Tree.Overrules argumentTypes callTypesToo arraySample.nodes[3]! :=
    ⟨.inl rfl, rfl, .arrayOf .number, rfl, nofun⟩
  refine ⟨h, hT, hkept, ?_, hlost, fun hf ↦ ?_⟩
  · exact (found_with_more_types .defaults h hT hkept).mpr fun hm ↦ nomatch hm.1
  · exact (found_with_more_types .defaults h hT hlost).mp hf ⟨rfl, _, rfl, hcall⟩

end AnyFlow
