import AnyFlow.Proofs.Found
import AnyFlow.Proofs.Walk

namespace AnyFlow

namespace Rule

variable {t : Tree} {n : Node} {rule : Rule}

def Declares (t : Tree) (n : Node) (k : VariableKind) (p : Node) : Prop :=
  n.kind = .variableDeclarator ∧ t.parent? n.id = some p ∧ p.kind = .variableDeclaration k

def Applies (t : Tree) (n : Node) : Rule → Prop
  | .typeReference => n.kind = .typeReference
  | .uninitializedLet => ∃ k p, Declares t n k p ∧ k.isMutable ∧ isLoopDeclaration t p = false ∧
      t.childIn? n.id .init = none
  | .nullishLet => ∃ k p init, Declares t n k p ∧ k.isMutable ∧ t.childIn? n.id .init = some init
  | .unsafeInitializer | .implicitAnyArray =>
    ∃ k p init, Declares t n k p ∧ t.childIn? n.id .init = some init
  | .patternBinding => n.kind = .identifier ∧ (t.destructuringDeclarator? n).isSome
  | .loopBinding => n.kind = .forOfStatement
  | .returnValue =>
    (n.kind = .returnStatement ∧ ∃ value, t.childIn? n.id .argument = some value) ∨
      (n.kind = .arrowFunctionExpression ∧
        ∃ body, t.childIn? n.id .body = some body ∧ body.kind ≠ .blockStatement)
  | .callArguments => n.kind = .callExpression ∨ n.kind = .newExpression
  | .assignedValue => ∃ operator, n.kind = .assignmentExpression operator
  | .updatedValue => ∃ operator leading, n.kind = .updateExpression operator leading
  | .booleanTest => n.kind ∈ [.ifStatement, .whileStatement, .doWhileStatement, .forStatement,
      .conditionalExpression] ∧ ∃ test, t.childIn? n.id .test = some test
  | .switchDiscriminant => n.kind = .switchStatement
  | .switchCaseTest => n.kind = .switchCase ∧ ∃ test, t.childIn? n.id .test = some test

theorem mem_ifChild {r : Role} {rule' : Rule} :
    rule ∈ ifChild t n r rule' ↔ rule = rule' ∧ ∃ c, t.childIn? n.id r = some c := by
  cases hc : t.childIn? n.id r with
  | none => simp [ifChild, hc]
  | some c => simp [ifChild, hc]

theorem mem_matchingDeclarator (hk : n.kind = .variableDeclarator) :
    rule ∈ matchingDeclarator t n → rule.Applies t n := by
  intro h
  unfold matchingDeclarator at h
  split at h
  · simp at h
  · rename_i p hp
    split at h
    · rename_i k hpk
      have hd : Declares t n k p := ⟨hk, hp, hpk⟩
      split at h
      · rename_i hi
        obtain ⟨init, hi⟩ := Option.isSome_iff_exists.mp hi
        split at h
        · rename_i hm
          simp only [List.mem_cons, List.not_mem_nil, or_false] at h
          rcases h with rfl | rfl | rfl
          · exact ⟨k, p, init, hd, hm, hi⟩
          · exact ⟨k, p, init, hd, hi⟩
          · exact ⟨k, p, init, hd, hi⟩
        · simp only [List.mem_cons, List.not_mem_nil, or_false] at h
          rcases h with rfl | rfl
          · exact ⟨k, p, init, hd, hi⟩
          · exact ⟨k, p, init, hd, hi⟩
      · rename_i hi
        split at h
        · rename_i hm
          simp only [Bool.and_eq_true, Bool.not_eq_true'] at hm
          cases List.mem_singleton.mp h
          exact ⟨k, p, hd, hm.1, hm.2, by simpa using hi⟩
        · simp at h
    · simp at h

theorem applies_of_mem (h : rule ∈ matching t n) : rule.Applies t n := by
  unfold matching at h
  split at h
  case h_2 hk => exact mem_matchingDeclarator hk h
  case h_6 hk =>
    split at h
    · rename_i hb
      obtain ⟨body, hbody, hne⟩ := (Option.any_eq_true _ _).mp hb
      cases List.mem_singleton.mp h
      exact .inr ⟨hk, body, hbody, by simpa using hne⟩
    · simp at h
  all_goals simp_all [Applies, mem_ifChild]

theorem mem_of_applies (h : rule.Applies t n) : rule ∈ matching t n := by
  cases rule with
  | typeReference | loopBinding | switchDiscriminant =>
    simp [matching, show n.kind = _ from h]
  | uninitializedLet =>
    obtain ⟨k, p, ⟨hk, hp, hpk⟩, hm, hl, hi⟩ := h
    simp [matching, matchingDeclarator, hk, hp, hpk, hm, hl, hi]
  | nullishLet =>
    obtain ⟨k, p, init, ⟨hk, hp, hpk⟩, hm, hi⟩ := h
    simp [matching, matchingDeclarator, hk, hp, hpk, hm, hi]
  | unsafeInitializer | implicitAnyArray =>
    obtain ⟨k, p, init, ⟨hk, hp, hpk⟩, hi⟩ := h
    cases hm : k.isMutable <;> simp [matching, matchingDeclarator, hk, hp, hpk, hm, hi]
  | patternBinding => simp [matching, h.1, h.2]
  | returnValue =>
    rcases h with ⟨hk, v, hv⟩ | ⟨hk, body, hb, hne⟩
    · simp [matching, hk, ifChild, hv]
    · simp [matching, hk, hb, hne]
  | callArguments => rcases h with hk | hk <;> simp [matching, hk]
  | assignedValue =>
    obtain ⟨operator, hk⟩ := h
    simp [matching, hk]
  | updatedValue =>
    obtain ⟨operator, leading, hk⟩ := h
    simp [matching, hk]
  | booleanTest =>
    obtain ⟨hk, c, hc⟩ := h
    simp only [List.mem_cons, List.not_mem_nil, or_false] at hk
    rcases hk with hk | hk | hk | hk | hk <;> simp [matching, hk, ifChild, hc]
  | switchCaseTest =>
    obtain ⟨hk, c, hc⟩ := h
    simp [matching, hk, ifChild, hc]

/-- The dispatcher gives each node the rules that apply to it. -/
theorem mem_matching : rule ∈ matching t n ↔ rule.Applies t n := ⟨applies_of_mem, mem_of_applies⟩

theorem declares_of_applies (hr : rule ∈ declaratorRules) (ha : rule.Applies t n) :
    ∃ k p, Declares t n k p := by
  simp only [declaratorRules, List.mem_cons, List.not_mem_nil, or_false] at hr
  rcases hr with rfl | rfl | rfl | rfl
  · obtain ⟨k, p, hd, -⟩ := ha
    exact ⟨k, p, hd⟩
  · obtain ⟨k, p, init, hd, -⟩ := ha
    exact ⟨k, p, hd⟩
  · obtain ⟨k, p, init, hd, -⟩ := ha
    exact ⟨k, p, hd⟩
  · obtain ⟨k, p, init, hd, -⟩ := ha
    exact ⟨k, p, hd⟩

theorem nodup_matching : (matching t n).Nodup := by
  have hone (b : Bool) (rule : Rule) : (if b then [rule] else []).Nodup := by
    cases b
    · exact List.nodup_nil
    · exact List.nodup_singleton rule
  unfold matching ifChild
  split
  case h_2 =>
    unfold matchingDeclarator
    split
    · exact List.nodup_nil
    · split
      · split_ifs <;> decide
      · exact List.nodup_nil
  all_goals first | exact hone _ _ | exact List.nodup_singleton _ | exact List.nodup_nil

def messages : Rule → List Message
  | .typeReference => [.typeReference]
  | .uninitializedLet => [.letWithoutInitial]
  | .nullishLet => [.letNullish]
  | .unsafeInitializer => [.initialUnannotated, .initialAnnotated]
  | .implicitAnyArray => [.initialEmptyArray]
  | .patternBinding => [.patternVariable]
  | .loopBinding => [.loopVariable]
  | .returnValue => [.returned]
  | .callArguments => [.passedArgument]
  | .assignedValue => [.assigned]
  | .updatedValue => [.updated]
  | .booleanTest => [.booleanTest]
  | .switchDiscriminant => [.switchDiscriminant]
  | .switchCaseTest => [.switchCaseTest]

theorem eq_of_mem_messages {rule rule' : Rule} {m : Message} (h : m ∈ rule.messages)
    (h' : m ∈ rule'.messages) : rule = rule' := by
  have hall : ∀ r ∈ (Keyword.all : List Rule), ∀ r' ∈ (Keyword.all : List Rule),
      ∀ m ∈ r.messages, m ∈ r'.messages → r = r' := by
    decide
  exact hall rule (Keyword.mem_all rule) rule' (Keyword.mem_all rule') m h h'

def anchor? (t : Tree) (n : Node) : Rule → Option Node
  | .loopBinding => t.childIn? n.id .left
  | .returnValue => if n.kind = .returnStatement then some n else t.childIn? n.id .body
  | .booleanTest | .switchCaseTest => t.childIn? n.id .test
  | .switchDiscriminant => t.childIn? n.id .discriminant
  | _ => some n

theorem mem_preorder_of_anchor? (h : t.WellLinked) (hn : n ∈ t.preorder) {a : Node}
    (ha : rule.anchor? t n = some a) : a ∈ t.preorder := by
  cases rule with
  | loopBinding | booleanTest | switchCaseTest | switchDiscriminant =>
    exact Tree.mem_preorder_of_childIn? h hn ha
  | returnValue =>
    rw [anchor?] at ha
    split at ha
    · exact Option.some.inj ha ▸ hn
    · exact Tree.mem_preorder_of_childIn? h hn ha
  | _ => exact Option.some.inj ha ▸ hn

end Rule

/-- The data of a finding on an anchor. A passed argument also tells which one it is. -/
def Message.dataOn (t : Tree) (a : Node) : Message → List (String × String)
  | .typeReference => a.text?.toList.map fun name ↦ ("typeName", name)
  | .patternVariable => a.text?.toList.map fun name ↦ ("name", name)
  | .letWithoutInitial | .letNullish => match (t.parent? a.id).map Node.kind with
    | some (.variableDeclaration k) => [("kind", Keyword.word k)]
    | _ => []
  | .assigned => match a.kind with
    | .assignmentExpression operator => [("operator", Keyword.word operator)]
    | _ => []
  | .updated => match a.kind with
    | .updateExpression operator _ => [("operator", Keyword.word operator)]
    | _ => []
  | _ => []

theorem Rule.Declares.dataOn {t : Tree} {n p : Node} {k : VariableKind} {m : Message}
    (h : Declares t n k p) (hm : m = .letWithoutInitial ∨ m = .letNullish) :
    m.dataOn t n = [("kind", Keyword.word k)] := by
  rcases hm with rfl | rfl <;> simp only [Message.dataOn, h.2.1, Option.map_some, h.2.2]

namespace Context

variable {cx : Context} {n : Node} {rule : Rule} {f : Finding}

theorem variableKind_of_declares {k : VariableKind} {p : Node} (h : Rule.Declares cx.tree n k p) :
    cx.variableKind n = .ok k := by
  rw [variableKind, h.2.1, Option.map_some, h.2.2]

theorem mem_map_filter_leaks {c? : Option Node} {g : Node → Finding} :
    f ∈ ((c?.toList.filter cx.leaks).map g) ↔ ∃ c, c? = some c ∧ cx.leaks c ∧ g c = f := by
  simp [and_assoc]

/-- A finding of a rule is made at the anchor of the rule and has one of its messages. It has a
datum for each placeholder, and the anchor tells its data. -/
theorem found_form (ha : rule.Applies cx.tree n) (hf : f ∈ cx.foundBy n rule) :
    ∃ a m data, rule.anchor? cx.tree n = some a ∧ m ∈ rule.messages ∧
      data.map Prod.fst = m.placeholders ∧ (m ≠ .passedArgument → data = m.dataOn cx.tree a) ∧
      f = .ofNode a m data := by
  cases rule with
  | typeReference =>
    obtain ⟨-, name, hv, rfl⟩ := mem_foundBy_typeReference.mp hf
    have hdata : Message.dataOn cx.tree n .typeReference = [("typeName", name)] := by
      rw [Message.dataOn, Node.text?_eq_some.mpr hv]
      rfl
    exact ⟨n, _, _, rfl, List.mem_singleton_self _, rfl, fun _ ↦ hdata.symm, rfl⟩
  | patternBinding =>
    obtain ⟨-, name, hv, rfl⟩ := mem_foundBy_patternBinding.mp hf
    have hdata : Message.dataOn cx.tree n .patternVariable = [("name", name)] := by
      rw [Message.dataOn, Node.text?_eq_some.mpr hv]
      rfl
    exact ⟨n, _, _, rfl, List.mem_singleton_self _, rfl, fun _ ↦ hdata.symm, rfl⟩
  | uninitializedLet =>
    obtain ⟨k, p, hd, -⟩ := ha
    cases hb : cx.tree.childIn? n.id .id with
    | none => simp [foundBy_of_no_id .uninitializedLet (by decide) hb] at hf
    | some b =>
      rw [foundBy_uninitializedLet (variableKind_of_declares hd) hb] at hf
      split at hf
      · simp at hf
      · exact ⟨n, _, _, rfl, List.mem_singleton_self _, rfl, fun _ ↦ (hd.dataOn (.inl rfl)).symm,
          List.mem_singleton.mp hf⟩
  | nullishLet =>
    obtain ⟨k, p, init, hd, -, hi⟩ := ha
    cases hb : cx.tree.childIn? n.id .id with
    | none => simp [foundBy_of_no_id .nullishLet (by decide) hb] at hf
    | some b =>
      rw [foundBy_nullishLet hb hi (variableKind_of_declares hd)] at hf
      split at hf
      · exact ⟨n, _, _, rfl, List.mem_singleton_self _, rfl, fun _ ↦ (hd.dataOn (.inr rfl)).symm,
          List.mem_singleton.mp hf⟩
      · simp at hf
  | unsafeInitializer =>
    obtain ⟨k, p, init, hd, hi⟩ := ha
    cases hb : cx.tree.childIn? n.id .id with
    | none => simp [foundBy_of_no_id .unsafeInitializer (by decide) hb] at hf
    | some b =>
      rw [foundBy_unsafeInitializer hb hi] at hf
      split_ifs at hf
      · exact ⟨n, _, _, rfl, List.mem_cons_self, rfl, fun _ ↦ rfl, List.mem_singleton.mp hf⟩
      · simp at hf
      · exact ⟨n, _, _, rfl, List.mem_cons_of_mem _ List.mem_cons_self, rfl, fun _ ↦ rfl,
          List.mem_singleton.mp hf⟩
      · simp at hf
  | implicitAnyArray =>
    obtain ⟨k, p, init, hd, hi⟩ := ha
    cases hb : cx.tree.childIn? n.id .id with
    | none => simp [foundBy_of_no_id .implicitAnyArray (by decide) hb] at hf
    | some b =>
      rw [foundBy_implicitAnyArray hb hi] at hf
      split at hf
      · exact ⟨n, _, _, rfl, List.mem_singleton_self _, rfl, fun _ ↦ rfl, List.mem_singleton.mp hf⟩
      · simp at hf
  | loopBinding =>
    obtain ⟨left, right, ty, hl, -, -, -, rfl⟩ := mem_foundBy_loopBinding.mp hf
    exact ⟨left, _, _, hl, List.mem_singleton_self _, rfl, fun _ ↦ rfl, rfl⟩
  | returnValue =>
    rcases ha with ⟨hk, -⟩ | ⟨hk, -⟩
    · rw [foundBy_returnStatement hk, mem_map_filter_leaks] at hf
      obtain ⟨v, -, -, rfl⟩ := hf
      exact ⟨n, _, _, by simp [Rule.anchor?, hk], List.mem_singleton_self _, rfl, fun _ ↦ rfl, rfl⟩
    · rw [foundBy_arrowFunction hk, mem_map_filter_leaks] at hf
      obtain ⟨body, hb, -, rfl⟩ := hf
      exact ⟨body, _, _, by simp [Rule.anchor?, hk, hb], List.mem_singleton_self _, rfl,
        fun _ ↦ rfl, rfl⟩
  | callArguments =>
    rw [foundBy_callArguments] at hf
    obtain ⟨x, -, rfl⟩ := List.mem_map.mp hf
    exact ⟨n, _, _, rfl, List.mem_singleton_self _, rfl, fun hne ↦ absurd rfl hne, rfl⟩
  | assignedValue =>
    obtain ⟨operator, hk⟩ := ha
    rw [foundBy_assignedValue hk, mem_map_filter_leaks] at hf
    obtain ⟨v, -, -, rfl⟩ := hf
    exact ⟨n, _, _, rfl, List.mem_singleton_self _, rfl, fun _ ↦ by simp [Message.dataOn, hk], rfl⟩
  | updatedValue =>
    obtain ⟨operator, leading, hk⟩ := ha
    rw [foundBy_updatedValue hk, mem_map_filter_leaks] at hf
    obtain ⟨v, -, -, rfl⟩ := hf
    exact ⟨n, _, _, rfl, List.mem_singleton_self _, rfl, fun _ ↦ by simp [Message.dataOn, hk], rfl⟩
  | booleanTest =>
    rw [foundBy_booleanTest, mem_map_filter_leaks] at hf
    obtain ⟨c, hc, -, rfl⟩ := hf
    exact ⟨c, _, _, hc, List.mem_singleton_self _, rfl, fun _ ↦ rfl, rfl⟩
  | switchDiscriminant =>
    rw [foundBy_switchDiscriminant, mem_map_filter_leaks] at hf
    obtain ⟨c, hc, -, rfl⟩ := hf
    exact ⟨c, _, _, hc, List.mem_singleton_self _, rfl, fun _ ↦ rfl, rfl⟩
  | switchCaseTest =>
    rw [foundBy_switchCaseTest, mem_map_filter_leaks] at hf
    obtain ⟨c, hc, -, rfl⟩ := hf
    exact ⟨c, _, _, hc, List.mem_singleton_self _, rfl, fun _ ↦ rfl, rfl⟩

theorem mem_foundAt :
    f ∈ cx.foundAt n ↔ ∃ rule : Rule, rule.Applies cx.tree n ∧ f ∈ cx.foundBy n rule := by
  simp only [foundAt, List.mem_flatMap, Rule.mem_matching]

theorem foundBy_of_mem_messages (hf : f ∈ cx.foundAt n) (hm : f.message ∈ rule.messages) :
    rule.Applies cx.tree n ∧ f ∈ cx.foundBy n rule := by
  obtain ⟨rule', ha, hf⟩ := mem_foundAt.mp hf
  obtain ⟨a, m, data, -, hmem, -, -, rfl⟩ := found_form ha hf
  cases Rule.eq_of_mem_messages hm hmem
  exact ⟨ha, hf⟩

theorem exists_ofNode (h : cx.tree.WellLinked) (hn : n ∈ cx.tree.preorder)
    (hf : f ∈ cx.foundAt n) : ∃ a ∈ cx.tree.preorder, ∃ data, f = .ofNode a f.message data ∧
      data.map Prod.fst = f.message.placeholders ∧
      (f.message ≠ .passedArgument → data = f.message.dataOn cx.tree a) := by
  obtain ⟨rule, ha, hf⟩ := mem_foundAt.mp hf
  obtain ⟨a, m, data, hanchor, -, hkeys, hdata, rfl⟩ := found_form ha hf
  exact ⟨a, Rule.mem_preorder_of_anchor? h hn hanchor, data, rfl, hkeys, hdata⟩

theorem exists_visited_anchor (h : cx.tree.WellLinked) (hn : n ∈ cx.tree.preorder)
    (hf : f ∈ cx.foundAt n) : ∃ a ∈ cx.tree.preorder, f.anchor = a.id ∧
      (f.message ≠ .passedArgument → f.data = .ofList (f.message.dataOn cx.tree a)) := by
  obtain ⟨a, ha, data, he, -, hdata⟩ := exists_ofNode h hn hf
  refine ⟨a, ha, congrArg Finding.anchor he, fun hm ↦ ?_⟩
  rw [← hdata hm]
  exact congrArg Finding.data he

/-- The anchor tells the location of a finding, so its key tells the whole finding. -/
theorem eq_of_key_eq {m : Node} {g : Finding} (h : cx.tree.WellLinked) (hn : n ∈ cx.tree.preorder)
    (hm : m ∈ cx.tree.preorder) (hf : f ∈ cx.foundAt n) (hg : g ∈ cx.foundAt m)
    (hk : f.key = g.key) : f = g := by
  obtain ⟨hanchor, hmessage, hdata⟩ := Finding.key_eq_iff.mp hk
  obtain ⟨a, ha, x, hfa, -⟩ := exists_ofNode h hn hf
  obtain ⟨b, hb, y, hgb, -⟩ := exists_ofNode h hm hg
  have hid : a.id = b.id :=
    (congrArg Finding.anchor hfa).symm.trans (hanchor.trans (congrArg Finding.anchor hgb))
  cases (Tree.has_of_mem_preorder h ha).eq_of_id (Tree.has_of_mem_preorder h hb) hid
  have hxy : Dict.ofList x = Dict.ofList y :=
    (congrArg Finding.data hfa).symm.trans (hdata.trans (congrArg Finding.data hgb))
  rw [hfa, hgb, hmessage, Finding.ofNode, Finding.ofNode, hxy]

theorem mem_findings (h : cx.tree.WellLinked) :
    f ∈ cx.findings ↔ ∃ n ∈ cx.tree.preorder, f ∈ cx.foundAt n := by
  refine ⟨cx.exists_foundAt_of_mem_findings, fun hf ↦ ?_⟩
  obtain ⟨n, hn, hf⟩ := hf
  obtain ⟨g, hg, hk⟩ := cx.exists_finding_iff.mpr ⟨n, hn, f, hf, rfl⟩
  obtain ⟨m, hm, hgm⟩ := cx.exists_foundAt_of_mem_findings hg
  rwa [← eq_of_key_eq h hm hn hgm hf hk]

theorem anchor_eq_id (hf : f ∈ cx.foundAt n)
    (hm : f.message ∉
      [.loopVariable, .returned, .booleanTest, .switchDiscriminant, .switchCaseTest]) :
    f.anchor = n.id := by
  obtain ⟨rule, ha, hf⟩ := mem_foundAt.mp hf
  obtain ⟨a, m, data, hanchor, hmem, -, -, rfl⟩ := found_form ha hf
  have hself : rule.anchor? cx.tree n = some n := by
    have hm' : m ∉ _ := hm
    cases rule <;> first | rfl | simp_all [Rule.messages]
  cases Option.some.inj (hanchor.symm.trans hself)
  rfl

theorem findings_on_node (h : cx.tree.WellLinked) (hn : n ∈ cx.tree.preorder) {ms : List Message}
    (hms : ∀ m ∈ cx.tree.preorder, ∀ f ∈ cx.foundAt m, f.message ∈ ms → f.anchor = m.id)
    (hnodup : (((cx.foundAt n).filter (·.message ∈ ms)).map Finding.key).Nodup) :
    cx.findings.filter (fun f ↦ f.anchor = n.id ∧ f.message ∈ ms) =
      (cx.foundAt n).filter (·.message ∈ ms) := by
  have hp (f g : Finding) (hfg : f.key = g.key) :
      decide (f.anchor = n.id ∧ f.message ∈ ms) = decide (g.anchor = n.id ∧ g.message ∈ ms) := by
    obtain ⟨ha, hm, -⟩ := Finding.key_eq_iff.mp hfg
    rw [ha, hm]
  have hother (m : Node) (hm : m ∈ cx.tree.preorder) (hne : m ≠ n) :
      (cx.foundAt m).filter (fun f ↦ f.anchor = n.id ∧ f.message ∈ ms) = [] := by
    refine List.filter_eq_nil_iff.mpr fun f hf hpf ↦ hne ?_
    obtain ⟨hanchor, hmem⟩ := of_decide_eq_true hpf
    have hid := (hms m hm f hf hmem).symm.trans hanchor
    exact (Tree.has_of_mem_preorder h hm).eq_of_id (Tree.has_of_mem_preorder h hn) hid
  have hself : (cx.foundAt n).filter (fun f ↦ f.anchor = n.id ∧ f.message ∈ ms) =
      (cx.foundAt n).filter (·.message ∈ ms) := by
    refine List.filter_congr fun f hf ↦ decide_eq_decide.mpr ?_
    exact and_iff_right_of_imp (hms n hn f hf)
  rw [filter_findings _ hp, flatMap_eq_of_nodup (Tree.nodup_preorder h) hn hother, hself,
    Report.findings_addAll hnodup]
  rfl

end Context

end AnyFlow
