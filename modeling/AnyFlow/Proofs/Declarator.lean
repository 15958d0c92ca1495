import AnyFlow.Proofs.Matching
import AnyFlow.Proofs.Recorded
import AnyFlow.Proofs.Walk
import AnyFlow.Tree.Builder

namespace AnyFlow

def declaratorMessages : List Message :=
  [.letWithoutInitial, .letNullish, .initialUnannotated, .initialAnnotated, .initialEmptyArray]

namespace Node

variable {n : Node}

theorem isIdentifier_iff {name : String} :
    n.isIdentifier name ↔ n.kind = .identifier ∧ n.value = .text name := by
  simp [isIdentifier, text?_eq_some]

theorem isNullLiteral_iff : n.isNullLiteral ↔ n.kind = .literal ∧ n.value = .null := by
  rw [isNullLiteral]
  cases n.value <;> simp [Json.Value.isNull]

def IsNullish (n : Node) : Prop :=
  (n.kind = .literal ∧ n.value = .null) ∨ (n.kind = .identifier ∧ n.value = .text "undefined")

theorem isNullish_iff : (n.isNullLiteral || n.isIdentifier "undefined") ↔ n.IsNullish := by
  rw [Bool.or_eq_true, isNullLiteral_iff, isIdentifier_iff, IsNullish]

instance : Decidable n.IsNullish := decidable_of_iff _ isNullish_iff

end Node

namespace Tree

variable {t : Tree} {T : TypeTable} {o : Options} {n b p init : Node}

def Annotated (t : Tree) (binding : Node) : Prop :=
  ∃ a, t.childIn? binding.id .typeAscription = some a

instance : Decidable (t.Annotated b) := decidable_of_iff _ Option.isSome_iff_exists

def HeadsLoop (t : Tree) (declaration : Node) : Prop :=
  declaration.role = some .left ∧ ∃ p, t.parent? declaration.id = some p ∧
    (p.kind = .forOfStatement ∨ p.kind = .forInStatement)

theorem headsLoop_iff : Rule.isLoopDeclaration t p ↔ t.HeadsLoop p := by
  simp [Rule.isLoopDeclaration, HeadsLoop, Option.any_eq_true]

instance : Decidable (t.HeadsLoop p) := decidable_of_iff _ headsLoop_iff

/-- A call or construction of `Array` by name and without type arguments. -/
structure CallsArray (t : Tree) (call : Node) : Prop where
  kind : call.kind = .callExpression ∨ call.kind = .newExpression
  callee : ∃ callee, t.childIn? call.id .callee = some callee ∧ callee.kind = .identifier ∧
    callee.value = .text "Array"
  untyped : t.childIn? call.id .typeArguments = none

/-- The elements are not given: there are no arguments, or one that is the length. -/
def GivesLengthOnly (t : Tree) (T : TypeTable) (call : Node) : Prop :=
  t.childrenIn call.id .arguments = [] ∨
    ∃ arg ty, t.childrenIn call.id .arguments = [arg] ∧ arg.kind ≠ .spreadElement ∧
      T.get? arg.id = some ty ∧ ty.isNumericLike

def IsOpenArray (t : Tree) (T : TypeTable) (init : Node) : Prop :=
  (init.kind = .arrayExpression ∧ t.childIn? init.id .elements = none) ∨
    (t.CallsArray init ∧ (T.get? init.id = none ∨ T.RecordsAnyArray init) ∧
      t.GivesLengthOnly T init)

theorem isArrayConstructor_iff {cx : Context}
    (hk : n.kind = .callExpression ∨ n.kind = .newExpression) :
    cx.isArrayConstructor n ↔ cx.tree.CallsArray n := by
  simp only [Context.isArrayConstructor, Bool.and_eq_true, Option.any_eq_true,
    Node.isIdentifier_iff, Option.isNone_iff_eq_none]
  constructor
  · intro h
    exact ⟨hk, h.1, h.2⟩
  · intro h
    exact ⟨h.callee, h.untyped⟩

theorem isTypedElsewhere_eq_false_iff :
    (Context.mk t T.oracle o).isTypedElsewhere n = false ↔
      T.get? n.id = none ∨ T.RecordsAnyArray n := by
  rw [Context.isTypedElsewhere, TypeTable.type?_oracle, TypeTable.RecordsAnyArray]
  cases T.get? n.id with
  | none => simp
  | some ty => simp [Ty.exposure_eq_arrayOfAny]

theorem isLengthOnly_iff :
    (Context.mk t T.oracle o).isLengthOnly (t.childrenIn n.id .arguments) ↔
      t.GivesLengthOnly T n := by
  rw [GivesLengthOnly]
  rcases t.childrenIn n.id .arguments with _ | ⟨arg, _ | ⟨arg', args⟩⟩
  · simp [Context.isLengthOnly]
  · simp [Context.isLengthOnly, TypeTable.type?_oracle, Option.any_eq_true]
  · simp [Context.isLengthOnly]

theorem startsAsAnyArray_iff :
    (Context.mk t T.oracle o).startsAsAnyArray init ↔ t.IsOpenArray T init := by
  rw [IsOpenArray]
  have hcall (hk : init.kind = .callExpression ∨ init.kind = .newExpression) :
      (Context.mk t T.oracle o).buildsAnyArray init ↔ t.CallsArray init ∧
        (T.get? init.id = none ∨ T.RecordsAnyArray init) ∧ t.GivesLengthOnly T init := by
    rw [Context.buildsAnyArray, Bool.and_eq_true, Bool.and_eq_true, Bool.not_eq_true',
      isArrayConstructor_iff hk, isTypedElsewhere_eq_false_iff, isLengthOnly_iff, and_assoc]
  rw [Context.startsAsAnyArray]
  split
  · rename_i hk
    have hc : ¬t.CallsArray init := fun hc ↦ by simpa [hk] using hc.kind
    simp [hk, hc]
  · rename_i hk
    simp [hk, hcall]
  · rename_i hk
    simp [hk, hcall]
  · rename_i h₁ h₂ h₃
    have hc : ¬t.CallsArray init := fun hc ↦ hc.kind.elim h₂ h₃
    exact iff_of_false Bool.false_ne_true fun h ↦ h.elim (fun ha ↦ h₁ ha.1) fun ha ↦ hc ha.1

instance : Decidable (t.IsOpenArray T init) :=
  decidable_of_iff _ (startsAsAnyArray_iff (o := .defaults))

end Tree

/-- A value of type `any` that is not asserted to be anything else. -/
def TypeTable.StartsAny (T : TypeTable) (init : Node) : Prop :=
  init.kind ≠ .asExpression ∧ init.kind ≠ .typeAssertion ∧ T.RecordsAny init

theorem TypeTable.startsAny_iff {T : TypeTable} {init : Node} :
    (!init.kind.isTypeAssertion && T.oracle.exposure init == .any) ↔ T.StartsAny init := by
  rw [StartsAny, ← exposure_eq_any, Bool.and_eq_true, beq_iff_eq, ← and_assoc]
  refine and_congr_left fun _ ↦ ?_
  cases init.kind <;> simp [Kind.isTypeAssertion]

instance {T : TypeTable} {init : Node} : Decidable (T.StartsAny init) :=
  decidable_of_iff _ TypeTable.startsAny_iff

abbrev Row := Message × List (String × String)

def Row.finding (d : Node) (x : Row) : Finding := .ofNode d x.1 x.2

def row (P : Prop) [Decidable P] (m : Message) (data : List (String × String)) : List Row :=
  if P then [(m, data)] else []

section Rows

variable (t : Tree) (T : TypeTable) (o : Options) (d : Node)

def rowsWithout (k : VariableKind) (declaration binding : Node) : List Row :=
  row (k ≠ .constBound ∧ ¬t.HeadsLoop declaration ∧ ¬t.Annotated binding)
    .letWithoutInitial [("kind", Keyword.word k)]

def rowsWith (k : VariableKind) (binding init : Node) : List Row :=
  row (k ≠ .constBound ∧ ¬t.Annotated binding ∧ init.IsNullish)
    .letNullish [("kind", Keyword.word k)] ++
  row (T.StartsAny init ∧ ¬t.Annotated binding) .initialUnannotated [] ++
  row (T.StartsAny init ∧ t.Annotated binding ∧ o.allowAnnotationFromAny = false)
    .initialAnnotated [] ++
  row (¬t.Annotated binding ∧ t.IsOpenArray T init) .initialEmptyArray []

end Rows

section Rows

variable {t : Tree} {T : TypeTable} {o : Options} {d b init : Node} {k : VariableKind}

end Rows

namespace Context

variable {t : Tree} {T : TypeTable} {o : Options} {d b init : Node} {k : VariableKind}

theorem map_row {P : Prop} [Decidable P] {m : Message} {data : List (String × String)} :
    (row P m data).map (Row.finding d) = if P then [.ofNode d m data] else [] := by
  rw [row]
  split <;> rfl

theorem isMutable_iff : k.isMutable ↔ k ≠ .constBound := by
  cases k <;> simp [VariableKind.isMutable]

theorem isAnnotated_iff : (Context.mk t T.oracle o).isAnnotated b ↔ t.Annotated b :=
  Option.isSome_iff_exists

theorem not_isAnnotated_iff : (!(Context.mk t T.oracle o).isAnnotated b) ↔ ¬t.Annotated b := by
  rw [Bool.not_eq_true', ← Bool.not_eq_true, isAnnotated_iff]

section Rules

variable {p : Node} (hd : Rule.Declares t d k p) (hb : t.childIn? d.id .id = some b)

include hd hb

theorem foundBy_uninitializedLet_eq :
    (Context.mk t T.oracle o).foundBy d .uninitializedLet =
      (row (¬t.Annotated b) .letWithoutInitial [("kind", Keyword.word k)]).map
        (Row.finding d) := by
  rw [foundBy_uninitializedLet (variableKind_of_declares hd) hb, map_row, ite_not]
  exact if_congr isAnnotated_iff rfl rfl

variable (hi : t.childIn? d.id .init = some init)

include hi

theorem foundBy_nullishLet_eq :
    (Context.mk t T.oracle o).foundBy d .nullishLet =
      (row (¬t.Annotated b ∧ init.IsNullish) .letNullish [("kind", Keyword.word k)]).map
        (Row.finding d) := by
  rw [foundBy_nullishLet hb hi (variableKind_of_declares hd), map_row]
  refine if_congr ?_ rfl rfl
  rw [Bool.and_eq_true, not_isAnnotated_iff, Node.isNullish_iff]

omit hd

theorem foundBy_unsafeInitializer_eq :
    (Context.mk t T.oracle o).foundBy d .unsafeInitializer =
      (row (T.StartsAny init ∧ ¬t.Annotated b) .initialUnannotated [] ++
        row (T.StartsAny init ∧ t.Annotated b ∧ o.allowAnnotationFromAny = false)
          .initialAnnotated []).map (Row.finding d) := by
  rw [foundBy_unsafeInitializer hb hi, List.map_append, map_row, map_row]
  simp only [TypeTable.startsAny_iff, not_isAnnotated_iff]
  by_cases hs : T.StartsAny init
  · by_cases ha : t.Annotated b
    · cases o.allowAnnotationFromAny <;> simp [hs, ha]
    · simp [hs, ha]
  · simp [hs]

theorem foundBy_implicitAnyArray_eq :
    (Context.mk t T.oracle o).foundBy d .implicitAnyArray =
      (row (¬t.Annotated b ∧ t.IsOpenArray T init) .initialEmptyArray []).map
        (Row.finding d) := by
  rw [foundBy_implicitAnyArray hb hi, map_row]
  refine if_congr ?_ rfl rfl
  rw [Bool.and_eq_true, not_isAnnotated_iff, Tree.startsAsAnyArray_iff]

end Rules

theorem foundAt_without {p : Node} (hd : Rule.Declares t d k p)
    (hb : t.childIn? d.id .id = some b) (hi : t.childIn? d.id .init = none) :
    (Context.mk t T.oracle o).foundAt d = (rowsWithout t k p b).map (Row.finding d) := by
  have hmatch : Rule.matching t d =
      if k ≠ .constBound ∧ ¬t.HeadsLoop p then [.uninitializedLet] else [] := by
    simp [Rule.matching, Rule.matchingDeclarator, hd.1, hd.2.1, hd.2.2, hi, ← isMutable_iff,
      ← Tree.headsLoop_iff]
  rw [foundAt, hmatch, rowsWithout]
  by_cases hm : k ≠ .constBound ∧ ¬t.HeadsLoop p
  · rw [if_pos hm, List.flatMap_singleton, foundBy_uninitializedLet_eq hd hb]
    simp [hm]
  · rw [if_neg hm, row, if_neg fun h ↦ hm ⟨h.1, h.2.1⟩]
    rfl

theorem foundAt_with {p : Node} (hd : Rule.Declares t d k p)
    (hb : t.childIn? d.id .id = some b) (hi : t.childIn? d.id .init = some init) :
    (Context.mk t T.oracle o).foundAt d = (rowsWith t T o k b init).map (Row.finding d) := by
  have hmatch : Rule.matching t d =
      if k ≠ .constBound then [.nullishLet, .unsafeInitializer, .implicitAnyArray]
      else [.unsafeInitializer, .implicitAnyArray] := by
    simp [Rule.matching, Rule.matchingDeclarator, hd.1, hd.2.1, hd.2.2, hi, ← isMutable_iff]
  rw [foundAt, hmatch, rowsWith]
  by_cases hm : k ≠ .constBound
  · simp [hm, foundBy_nullishLet_eq hd hb hi, foundBy_unsafeInitializer_eq hb hi,
      foundBy_implicitAnyArray_eq hb hi]
  · simp [hm, foundBy_unsafeInitializer_eq hb hi, foundBy_implicitAnyArray_eq hb hi, row]

theorem anchor_of_mem_declaratorMessages {n : Node} {f : Finding}
    (hf : f ∈ (Context.mk t T.oracle o).foundAt n) (hm : f.message ∈ declaratorMessages) :
    f.anchor = n.id :=
  anchor_eq_id hf ((by decide : ∀ m ∈ declaratorMessages, m ∉ _) _ hm)

end Context

def nullishSample : Tree :=
  (Builder.performAll (.new "sample.ts")
    [.root (.variableDeclaration .letBound), .child 0 .declarations .variableDeclarator,
      .child 1 .id .identifier, .value 2 (.text "x"),
      .child 1 .init .identifier, .value 3 (.text "undefined")]).tree

end AnyFlow
