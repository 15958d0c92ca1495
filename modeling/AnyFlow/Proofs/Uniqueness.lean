import AnyFlow.Proofs.Matching
import AnyFlow.Proofs.Recorded
import AnyFlow.Tree.Builder

namespace AnyFlow

namespace Context

variable {cx : Context} {n : Node} {rule : Rule} {f g : Finding}

theorem key_eq_of_anchor_eq (h : cx.tree.WellLinked) (hf : f ∈ cx.findings)
    (hg : g ∈ cx.findings) (hanchor : f.anchor = g.anchor) (hmessage : f.message = g.message)
    (hm : f.message ≠ .passedArgument) : f.key = g.key := by
  obtain ⟨n, hn, hf⟩ := cx.exists_foundAt_of_mem_findings hf
  obtain ⟨m, hm', hg⟩ := cx.exists_foundAt_of_mem_findings hg
  obtain ⟨a, ha, hfa, hfd⟩ := exists_visited_anchor h hn hf
  obtain ⟨b, hb, hgb, hgd⟩ := exists_visited_anchor h hm' hg
  have hid : a.id = b.id := hfa.symm.trans (hanchor.trans hgb)
  cases (Tree.has_of_mem_preorder h ha).eq_of_id (Tree.has_of_mem_preorder h hb) hid
  rw [Finding.key, Finding.key, hanchor, hfd hm, hgd (hmessage ▸ hm), hmessage]

theorem nodup_keys_findings (cx : Context) : (cx.findings.map Finding.key).Nodup :=
  Report.nodup_keys_addAll List.nodup_nil

theorem length_findings_le_one (cx : Context) (h : cx.tree.WellLinked) {a : Nat} {m : Message}
    (hm : m ≠ .passedArgument) :
    (cx.findings.filter fun f ↦ f.anchor = a ∧ f.message = m).length ≤ 1 := by
  let p (f : Finding) : Bool := f.anchor = a ∧ f.message = m
  change (cx.findings.filter p).length ≤ 1
  have hfs (f : Finding) (hf : f ∈ cx.findings.filter p) :
      f ∈ cx.findings ∧ f.anchor = a ∧ f.message = m := by
    simpa [p] using hf
  have hsub : (cx.findings.filter p).Sublist cx.findings := List.filter_sublist
  have hnodup := cx.nodup_keys_findings.sublist (hsub.map Finding.key)
  generalize cx.findings.filter p = fs at hfs hnodup
  match fs with
  | [] => exact Nat.zero_le 1
  | [f] => exact Nat.le_refl 1
  | f :: g :: later =>
    obtain ⟨hf, hfa, hfm⟩ := hfs f List.mem_cons_self
    obtain ⟨hg, hga, hgm⟩ := hfs g (List.mem_cons_of_mem _ List.mem_cons_self)
    have hkey := key_eq_of_anchor_eq h hf hg (hfa.trans hga.symm) (hfm.trans hgm.symm) (hfm ▸ hm)
    simp [hkey] at hnodup

def leakingArguments (cx : Context) (call : Node) : List Nat :=
  ((cx.tree.childrenIn call.id .arguments).zipIdx.filter fun x ↦ cx.leaks x.1).map Prod.snd

theorem pairwise_leakingArguments : (cx.leakingArguments n).Pairwise (· < ·) := by
  have hsub := (List.filter_sublist (p := fun x ↦ cx.leaks x.1)
    (l := (cx.tree.childrenIn n.id .arguments).zipIdx)).map Prod.snd
  rw [List.zipIdx_map_snd] at hsub
  exact (List.pairwise_lt_range' 1).sublist hsub

theorem mem_leakingArguments {i : Nat} : i ∈ cx.leakingArguments n ↔
    ∃ arg, (cx.tree.childrenIn n.id .arguments)[i]? = some arg ∧ cx.leaks arg := by
  simp only [leakingArguments, List.mem_map, List.mem_filter, Prod.exists, exists_eq_right,
    List.mk_mem_zipIdx_iff_getElem?]

theorem foundAt_call (hk : n.kind = .callExpression ∨ n.kind = .newExpression) :
    cx.foundAt n = (cx.leakingArguments n).map fun i ↦
      .ofNode n .passedArgument [("index", i.repr)] := by
  have hmatch : Rule.matching cx.tree n = [.callArguments] := by
    rcases hk with hk | hk <;> rw [Rule.matching, hk]
  rw [foundAt, hmatch, List.flatMap_singleton, foundBy_callArguments, leakingArguments,
    List.map_map]
  rfl

theorem index_injective :
    Function.Injective fun i : Nat ↦ Dict.ofList [("index", i.repr)] := by
  intro i j hij
  have hentries : [("index", i.repr)] = [("index", j.repr)] := congrArg Dict.entries hij
  have hrepr : i.repr = j.repr := by simpa using hentries
  have hdigits : Nat.toDigits 10 i = Nat.toDigits 10 j := by
    rw [← Nat.toList_repr, hrepr, Nat.toList_repr]
  calc
    i = Nat.ofDigitChars 10 (Nat.toDigits 10 i) 0 := Nat.ofDigitChars_ten_toDigits.symm
    _ = Nat.ofDigitChars 10 (Nat.toDigits 10 j) 0 := by rw [hdigits]
    _ = j := Nat.ofDigitChars_ten_toDigits

theorem nodup_data_call : (((cx.leakingArguments n).map fun i ↦
    Finding.ofNode n .passedArgument [("index", i.repr)]).map Finding.data).Nodup := by
  rw [List.map_map]
  exact List.Nodup.map index_injective (pairwise_leakingArguments.imp Nat.ne_of_lt)

theorem length_foundBy_declarator_le_one (hr : rule ∈ Rule.declaratorRules)
    (ha : rule.Applies cx.tree n) : (cx.foundBy n rule).length ≤ 1 := by
  cases hb : cx.tree.childIn? n.id .id with
  | none =>
    rw [foundBy_of_no_id rule hr hb]
    exact Nat.zero_le 1
  | some b =>
    simp only [Rule.declaratorRules, List.mem_cons, List.not_mem_nil, or_false] at hr
    rcases hr with rfl | rfl | rfl | rfl
    · obtain ⟨k, p, hd, -⟩ := ha
      rw [foundBy_uninitializedLet (variableKind_of_declares hd) hb]
      split <;> simp
    · obtain ⟨k, p, init, hd, -, hi⟩ := ha
      rw [foundBy_nullishLet hb hi (variableKind_of_declares hd)]
      split <;> simp
    · obtain ⟨k, p, init, -, hi⟩ := ha
      rw [foundBy_unsafeInitializer hb hi]
      split_ifs <;> simp
    · obtain ⟨k, p, init, -, hi⟩ := ha
      rw [foundBy_implicitAnyArray hb hi]
      split <;> simp

/-- Only the rule for calls can find more than one thing on a node. -/
theorem length_foundBy_le_one (ha : rule.Applies cx.tree n) (hr : rule ≠ .callArguments) :
    (cx.foundBy n rule).length ≤ 1 := by
  have hname (P : Prop) [Decidable P] (name? : Option String) (g : String → Finding) :
      (if P then name?.toList.map g else []).length ≤ 1 := by
    split
    · rw [List.length_map]
      exact Option.length_toList_le
    · exact Nat.zero_le 1
  have hleak (c? : Option Node) (g : Node → Finding) :
      ((c?.toList.filter cx.leaks).map g).length ≤ 1 := by
    rw [List.length_map]
    exact (List.length_filter_le _ _).trans Option.length_toList_le
  cases rule with
  | callArguments => exact absurd rfl hr
  | typeReference => exact foundBy_typeReference ▸ hname _ _ _
  | patternBinding => exact foundBy_patternBinding ▸ hname _ _ _
  | uninitializedLet | nullishLet | unsafeInitializer | implicitAnyArray =>
    exact length_foundBy_declarator_le_one (by decide) ha
  | loopBinding =>
    cases hl : cx.tree.childIn? n.id .left with
    | none => simp [foundBy_loopBinding_of_none (.inl hl)]
    | some left =>
      cases hr : cx.tree.childIn? n.id .right with
      | none => simp [foundBy_loopBinding_of_none (.inr hr)]
      | some right =>
        rw [foundBy_loopBinding hl hr]
        split <;> simp
  | returnValue =>
    rcases ha with ⟨hk, -⟩ | ⟨hk, -⟩
    · exact foundBy_returnStatement hk ▸ hleak _ _
    · exact foundBy_arrowFunction hk ▸ hleak _ _
  | assignedValue =>
    obtain ⟨operator, hk⟩ := ha
    exact foundBy_assignedValue hk ▸ hleak _ _
  | updatedValue =>
    obtain ⟨operator, leading, hk⟩ := ha
    exact foundBy_updatedValue hk ▸ hleak _ _
  | booleanTest => exact foundBy_booleanTest ▸ hleak _ _
  | switchDiscriminant => exact foundBy_switchDiscriminant ▸ hleak _ _
  | switchCaseTest => exact foundBy_switchCaseTest ▸ hleak _ _

theorem nodup_keys_foundBy (ha : rule.Applies cx.tree n) :
    ((cx.foundBy n rule).map Finding.key).Nodup := by
  by_cases hr : rule = .callArguments
  · cases hr
    have hcall : cx.foundAt n = cx.foundBy n .callArguments := by
      rcases ha with hk | hk <;> rw [foundAt, Rule.matching, hk, List.flatMap_singleton]
    rw [← hcall, foundAt_call ha]
    refine List.Nodup.of_map (fun k ↦ k.2.2) ?_
    rw [List.map_map]
    exact nodup_data_call
  · have hlen := length_foundBy_le_one ha hr
    refine List.pairwise_iff_getElem.mpr fun i j hi hj hlt ↦ ?_
    rw [List.length_map] at hj
    omega

/-- The findings on one node differ in their messages or in their data. -/
theorem nodup_keys_foundAt : ((cx.foundAt n).map Finding.key).Nodup := by
  rw [foundAt, List.map_flatMap, List.nodup_flatMap]
  refine ⟨fun rule hrule ↦ nodup_keys_foundBy (Rule.mem_matching.mp hrule), ?_⟩
  refine List.Pairwise.imp_of_mem (fun {rule rule'} hr hr' hne ↦ ?_) Rule.nodup_matching
  intro k hk hk'
  obtain ⟨f, hf, rfl⟩ := List.mem_map.mp hk
  obtain ⟨g, hg, hkey⟩ := List.mem_map.mp hk'
  obtain ⟨a, m, data, -, hm, -, -, rfl⟩ := found_form (Rule.mem_matching.mp hr) hf
  obtain ⟨a', m', data', -, hm', -, -, rfl⟩ := found_form (Rule.mem_matching.mp hr') hg
  have hmessage : m' = m := congrArg (·.2.1) hkey
  exact hne (Rule.eq_of_mem_messages hm (hmessage ▸ hm'))

theorem findings_call (cx : Context) (h : cx.tree.WellLinked) (hn : n ∈ cx.tree.preorder)
    (hk : n.kind = .callExpression ∨ n.kind = .newExpression) :
    cx.findings.filter (fun f ↦ f.anchor = n.id ∧ f.message = .passedArgument) =
      (cx.leakingArguments n).map fun i ↦ .ofNode n .passedArgument [("index", i.repr)] := by
  have hself : (cx.foundAt n).filter (·.message ∈ [.passedArgument]) = cx.foundAt n := by
    rw [foundAt_call hk, List.filter_eq_self, List.forall_mem_map]
    exact fun i _ ↦ rfl
  have hnodup :
      (((cx.foundAt n).filter (·.message ∈ [.passedArgument])).map Finding.key).Nodup :=
    nodup_keys_foundAt.sublist (List.filter_sublist.map Finding.key)
  have hon := findings_on_node h hn (fun m _ f hf hm ↦ anchor_eq_id hf ?_) hnodup
  · rw [hself, foundAt_call hk] at hon
    simpa only [List.mem_singleton] using hon
  · rw [List.mem_singleton.mp hm]
    decide

theorem exists_call (cx : Context) (hf : f ∈ cx.findings) (hm : f.message = .passedArgument) :
    ∃ n ∈ cx.tree.preorder, (n.kind = .callExpression ∨ n.kind = .newExpression) ∧
      f.anchor = n.id := by
  obtain ⟨n, hn, hf⟩ := cx.exists_foundAt_of_mem_findings hf
  have hmem : f.message ∈ Rule.callArguments.messages := List.mem_singleton.mpr hm
  refine ⟨n, hn, (foundBy_of_mem_messages hf hmem).1, anchor_eq_id hf ?_⟩
  rw [hm]
  decide

theorem findings_call_of_not_visited (cx : Context) (h : cx.tree.WellLinked)
    (hn : cx.tree.Has n) (hnot : n ∉ cx.tree.preorder) :
    cx.findings.filter (fun f ↦ f.anchor = n.id ∧ f.message = .passedArgument) = [] := by
  refine List.filter_eq_nil_iff.mpr fun f hf hp ↦ hnot ?_
  obtain ⟨hanchor, hm⟩ := of_decide_eq_true hp
  obtain ⟨m, hmem, -, hm⟩ := cx.exists_call hf hm
  rwa [hn.eq_of_id (Tree.has_of_mem_preorder h hmem) (hanchor.symm.trans hm)]

end Context

/-- There is at most one finding for an anchor and a message, whatever its data, unless it is about
a passed argument. On a call there is one for each unsafe argument if the call is visited, in the
order of the arguments, and they differ in their data. -/
theorem findings_unique_on_node {t : Tree} (T : TypeTable) (o : Options)
    (h : t.checkLinks = .ok ()) :
    (∀ a m, m ≠ .passedArgument →
      ((analyze t T.oracle o).filter fun f ↦ f.anchor = a ∧ f.message = m).length ≤ 1) ∧
    (∀ n, t.Has n → n.kind = .callExpression ∨ n.kind = .newExpression →
      let fs := (analyze t T.oracle o).filter fun f ↦ f.anchor = n.id ∧ f.message = .passedArgument
      (fs.map Finding.data).Nodup ∧
      ∃ indices : List Nat, indices.Pairwise (· < ·) ∧
        (∀ i, i ∈ indices ↔ n ∈ t.preorder ∧
          ∃ arg, (t.childrenIn n.id .arguments)[i]? = some arg ∧ T.RecordsUnsafe arg) ∧
        fs = indices.map fun i ↦ .ofNode n .passedArgument [("index", i.repr)]) ∧
    ∀ f ∈ analyze t T.oracle o, f.message = .passedArgument →
      ∃ n ∈ t.preorder, (n.kind = .callExpression ∨ n.kind = .newExpression) ∧
        f.anchor = n.id := by
  let cx : Context := ⟨t, T.oracle, o⟩
  have hw : cx.tree.WellLinked := Tree.checkLinks_eq_ok_iff.mp h
  refine ⟨fun a m hm ↦ cx.length_findings_le_one hw hm, fun n hn hk ↦ ?_,
    fun f hf hm ↦ cx.exists_call hf hm⟩
  intro fs
  by_cases hv : n ∈ t.preorder
  · have hfs : fs = _ := cx.findings_call hw hv hk
    rw [hfs]
    refine ⟨Context.nodup_data_call, cx.leakingArguments n, Context.pairwise_leakingArguments,
      fun i ↦ ?_, rfl⟩
    rw [Context.mem_leakingArguments, and_iff_right hv]
    simp only [cx, Context.leaks, TypeTable.isLeaking_exposure]
  · have hfs : fs = [] := cx.findings_call_of_not_visited hw hn hv
    rw [hfs]
    exact ⟨List.nodup_nil, [], List.Pairwise.nil, fun i ↦ by simp [hv], rfl⟩

/-- A call `f(a, 1, b)`, and an arrow function with a return statement for its body. -/
def callSample : Tree :=
  (Builder.performAll (.new "call.ts")
    [.root .callExpression, .child 0 .callee .identifier, .child 0 .arguments .identifier,
      .child 0 .arguments .literal, .child 0 .arguments .identifier,
      .root .arrowFunctionExpression, .child 5 .body .returnStatement,
      .child 6 .argument .identifier]).tree

def callTypes : TypeTable :=
  .ofList [(2, .any), (3, .number), (4, .arrayOf .any), (6, .any), (7, .any)]

theorem findings_unique_on_node_callSample :
    callSample.checkLinks = .ok () ∧
    ((analyze callSample callTypes.oracle .defaults).filter fun f ↦
      f.anchor = 6 ∧ f.message = .returned).length ≤ 1 ∧
    ∃ indices : List Nat, 0 ∈ indices ∧ 1 ∉ indices ∧ 2 ∈ indices ∧
      (analyze callSample callTypes.oracle .defaults).filter
          (fun f ↦ f.anchor = 0 ∧ f.message = .passedArgument) =
        indices.map fun i ↦ .ofNode callSample.nodes[0]! .passedArgument [("index", i.repr)] := by
  have h : callSample.checkLinks = .ok () := rfl
  obtain ⟨hone, hcall, -⟩ := findings_unique_on_node callTypes .defaults h
  have hmem : callSample.nodes[0]! ∈ callSample.preorder :=
    List.mem_iff_getElem?.mpr ⟨0, rfl⟩
  obtain ⟨-, indices, -, hi, hfs⟩ := hcall callSample.nodes[0]! rfl (.inl rfl)
  have hsafe : ¬ callTypes.RecordsUnsafe callSample.nodes[3]! := by
    rw [← TypeTable.isLeaking_exposure]
    decide
  refine ⟨h, hone 6 .returned (by decide), indices, ?_, fun hx ↦ ?_, ?_, hfs⟩
  · exact (hi 0).mpr ⟨hmem, callSample.nodes[2]!, rfl, .inl rfl⟩
  · obtain ⟨-, arg, harg, hu⟩ := (hi 1).mp hx
    cases Option.some.inj harg
    exact hsafe hu
  · exact (hi 2).mpr ⟨hmem, callSample.nodes[4]!, rfl, .inr ⟨false, rfl⟩⟩

end AnyFlow
