import AnyFlow.Proofs.Declarator
import AnyFlow.Proofs.Leaf
import AnyFlow.Proofs.Uniqueness

namespace AnyFlow

/-- What becomes of the message of a finding on a declarator whose binding is annotated. -/
def Message.annotating (o : Options) : Message → Option Message
  | .letWithoutInitial | .letNullish | .initialEmptyArray => none
  | .initialUnannotated => if o.allowAnnotationFromAny then none else some .initialAnnotated
  | m => some m

def Finding.annotating (d : Node) (o : Options) (f : Finding) : Option Finding :=
  if f.anchor = d.id then (f.message.annotating o).map fun m ↦ { f with message := m }
  else some f

namespace Finding

variable {d : Node} {o : Options} {f f' : Finding}

theorem annotating_of_ne (h : f.anchor ≠ d.id) : f.annotating d o = some f := if_neg h

theorem annotating_ofNode {m : Message} {data : List (String × String)} :
    (ofNode d m data).annotating d o = (m.annotating o).map fun m ↦ .ofNode d m data := if_pos rfl

theorem annotating_of_notMem (h : f.message ∉ declaratorMessages) : f.annotating d o = some f := by
  have hm : f.message.annotating o = some f.message := by
    generalize f.message = m at h
    cases m <;> first | rfl | exact absurd (by decide) h
  rw [annotating, hm, Option.map_some, ite_self]

theorem isSome_annotating (hk : f.key = f'.key) :
    (f.annotating d o).isSome = (f'.annotating d o).isSome := by
  obtain ⟨hanchor, hmessage, -⟩ := key_eq_iff.mp hk
  rw [annotating, annotating, hanchor, hmessage]
  split
  · rw [Option.isSome_map, Option.isSome_map]
  · rfl

theorem getD_annotating (h : (f.annotating d o).isSome) : (f.annotating d o).getD f =
    if f.anchor = d.id ∧ f.message = .initialUnannotated then
      { f with message := .initialAnnotated }
    else f := by
  rw [annotating] at h ⊢
  by_cases ha : f.anchor = d.id
  · rw [if_pos ha] at h ⊢
    obtain ⟨rule, m, anchor, location, data⟩ := f
    cases m <;> simp_all [Message.annotating]
  · rw [if_neg ha, if_neg fun hc ↦ ha hc.1]
    rfl

end Finding

section Declarator

variable {t : Tree} {T : TypeTable} {o : Options} {x : Leaf} {d b p init n : Node} {i : Nat}
  {k : VariableKind}

theorem filterMap_row {P : Prop} [Decidable P] {m : Message} {data : List (String × String)}
    {φ : Finding → Option Finding} : ((row P m data).map (Row.finding d)).filterMap φ =
      if P then (φ (.ofNode d m data)).toList else [] := by
  rw [Context.map_row, apply_ite (List.filterMap φ)]
  refine if_congr Iff.rfl ?_ rfl
  rw [List.filterMap_cons, List.filterMap_nil]
  cases φ (.ofNode d m data) with
  | none => rfl
  | some f => rfl

theorem ofNode_listing {c : Nat} {m : Message} {data : List (String × String)} :
    Finding.ofNode (n.listing i c) m data = .ofNode n m data := by
  rw [Finding.ofNode, Finding.ofNode, Node.id_listing, Node.location_listing]

theorem startsAny_listing {c : Nat} : T.StartsAny (n.listing i c) ↔ T.StartsAny n := by
  rw [TypeTable.StartsAny, TypeTable.StartsAny, TypeTable.RecordsAny, TypeTable.RecordsAny,
    Node.kind_listing, Node.id_listing]

theorem resembles_context (h : t.WellLinked) (hx : x.role = .typeAscription) :
    (Context.mk t T.oracle o).Resembles ⟨t.withLeaf i x, T.oracle, o⟩
      (Node.listing i t.size) id where
  linked := h
  tree := Tree.resembles_withLeaf h hx
  type?_eq _ := by rw [TypeTable.type?_oracle, TypeTable.type?_oracle, Node.id_listing]
  options_eq := rfl
  ofNode_eq _ _ _ := ofNode_listing

variable (h : t.WellLinked) (hx : x.role = .typeAscription)

include h hx

theorem annotated_withLeaf (hb : t.Has b) :
    (t.withLeaf b.id x).Annotated (b.listing b.id t.size) := by
  rw [Tree.Annotated, Node.id_listing, Tree.childIn?_withLeaf h hb, if_pos ⟨rfl, hx⟩]
  cases t.childIn? b.id .typeAscription with
  | none => exact ⟨_, rfl⟩
  | some a => exact ⟨_, rfl⟩

/-- On the annotated declarator the finding on an initial value of type `any` is another one, or
none if such values are allowed, and there is no further finding. -/
theorem foundAt_annotated (hd : d ∈ t.preorder) (hdecl : Rule.Declares t d k p)
    (hb : t.childIn? d.id .id = some b) :
    (Context.mk (t.withLeaf b.id x) T.oracle o).foundAt (d.listing b.id t.size) =
      ((Context.mk t T.oracle o).foundAt d).filterMap (Finding.annotating d o) := by
  have hr : (Context.mk t T.oracle o).Resembles _ _ _ := resembles_context (i := b.id) h hx
  have hdecl' := hr.declares hd hdecl
  have hb' := hr.childIn?_eq_some hd (by decide) hb
  have hannotated := annotated_withLeaf h hx
    (Tree.has_of_mem_preorder h (Tree.mem_preorder_of_childIn? h hd hb))
  have hfinding : Row.finding (d.listing b.id t.size) = Row.finding d :=
    funext fun _ ↦ ofNode_listing
  cases hi : t.childIn? d.id .init with
  | none =>
    have hi' := hr.childIn?_eq_none hd (by decide) hi
    rw [Context.foundAt_without hdecl hb hi, Context.foundAt_without hdecl' hb' hi',
      rowsWithout, rowsWithout, filterMap_row, row, if_neg fun hrow ↦ hrow.2.2 hannotated,
      Finding.annotating_ofNode]
    exact (ite_self []).symm
  | some init =>
    have hi' := hr.childIn?_eq_some hd (by decide) hi
    rw [Context.foundAt_with hdecl hb hi, Context.foundAt_with hdecl' hb' hi', rowsWith, rowsWith,
      hfinding]
    simp only [List.map_append, List.filterMap_append, filterMap_row, Finding.annotating_ofNode,
      Message.annotating, hannotated, startsAny_listing]
    by_cases hs : T.StartsAny init
    · by_cases ha : t.Annotated b
      · cases ho : o.allowAnnotationFromAny <;> simp [row, hs, ha, Row.finding]
      · cases ho : o.allowAnnotationFromAny <;> simp [row, hs, ha, Row.finding]
    · simp [row, hs]

omit hx in
theorem isAnnotated_withLeaf (hn : t.Has n) (hne : n.id ≠ i) :
    (Context.mk (t.withLeaf i x) T.oracle o).isAnnotated (n.listing i t.size) =
      (Context.mk t T.oracle o).isAnnotated n := by
  have hnot : ¬(n.id = i ∧ x.role = .typeAscription) := fun he ↦ hne he.1
  rw [Context.isAnnotated, Context.isAnnotated, Node.id_listing]
  dsimp only
  rw [Tree.childIn?_withLeaf h hn, if_neg hnot, Option.or_none, Option.isSome_map]

theorem foundAt_beside (hd : d ∈ t.preorder) (hb : t.childIn? d.id .id = some b)
    (hn : n ∈ t.preorder) (hne : n ≠ d) :
    (Context.mk (t.withLeaf b.id x) T.oracle o).foundAt (n.listing b.id t.size) =
      ((Context.mk t T.oracle o).foundAt n).filterMap (Finding.annotating d o) := by
  have hr : (Context.mk t T.oracle o).Resembles _ _ _ := resembles_context (i := b.id) h hx
  have hdh := Tree.has_of_mem_preorder h hd
  have hnh := Tree.has_of_mem_preorder h hn
  -- a binding has one declarator only
  have hannotated (c : Node) (hc : t.childIn? n.id .id = some c) :
      (Context.mk (t.withLeaf b.id x) T.oracle o).isAnnotated (c.listing b.id t.size) =
        (Context.mk t T.oracle o).isAnnotated c := by
    have hch := Tree.has_of_mem_preorder h (Tree.mem_preorder_of_childIn? h hn hc)
    refine isAnnotated_withLeaf h hch fun hid ↦ hne ?_
    have hbh := Tree.has_of_mem_preorder h (Tree.mem_preorder_of_childIn? h hd hb)
    cases hch.eq_of_id hbh hid
    exact Tree.eq_of_childIn? h hnh hdh hc hb
  have hkept (f : Finding) (hf : f ∈ (Context.mk t T.oracle o).foundAt n) :
      f.annotating d o = some f := by
    by_cases hm : f.message ∈ declaratorMessages
    · refine Finding.annotating_of_ne fun hanchor ↦ hne (hnh.eq_of_id hdh ?_)
      rw [← hanchor, Context.anchor_of_mem_declaratorMessages hf hm]
    · exact Finding.annotating_of_notMem hm
  rw [hr.foundAt_eq hn fun _ c hc ↦ hannotated c hc, List.map_id, List.filterMap_congr hkept,
    List.filterMap_some]

omit hx in
/-- Of a declarator it is not found both that its binding is annotated and that it is not. -/
theorem message_ne_annotated {f f' : Finding} (hd : d ∈ t.preorder)
    (hf : f ∈ t.preorder.flatMap (Context.mk t T.oracle o).foundAt)
    (hf' : f' ∈ t.preorder.flatMap (Context.mk t T.oracle o).foundAt)
    (ha : f.anchor = d.id) (hm : f.message = .initialUnannotated) (ha' : f'.anchor = d.id) :
    f'.message ≠ .initialAnnotated := by
  intro hm'
  have hfoundBy {f : Finding} (hf : f ∈ t.preorder.flatMap (Context.mk t T.oracle o).foundAt)
      (ha : f.anchor = d.id) (hm : f.message = .initialUnannotated ∨ f.message = .initialAnnotated) :
      Rule.Applies t d .unsafeInitializer ∧
        f ∈ (Context.mk t T.oracle o).foundBy d .unsafeInitializer := by
    obtain ⟨n, hn, hf⟩ := List.mem_flatMap.mp hf
    have hmem : f.message ∈ declaratorMessages := by
      rcases hm with hm | hm <;> rw [hm] <;> decide
    have hid : n.id = d.id := (Context.anchor_of_mem_declaratorMessages hf hmem).symm.trans ha
    cases (Tree.has_of_mem_preorder h hn).eq_of_id (Tree.has_of_mem_preorder h hd) hid
    refine Context.foundBy_of_mem_messages hf ?_
    rcases hm with hm | hm <;> rw [hm] <;> decide
  obtain ⟨happlies, hf⟩ := hfoundBy hf ha (.inl hm)
  obtain ⟨-, hf'⟩ := hfoundBy hf' ha' (.inr hm')
  have hle : ((Context.mk t T.oracle o).foundBy d .unsafeInitializer).length ≤ 1 :=
    Context.length_foundBy_declarator_le_one (by decide) happlies
  obtain ⟨g, hg⟩ := List.length_eq_one_iff.mp (hle.antisymm (List.length_pos_of_mem hf))
  rw [hg, List.mem_singleton] at hf hf'
  rw [hf, ← hf', hm'] at hm
  cases hm

omit hx in
theorem key_ne_of_annotating {f f' : Finding} (hd : d ∈ t.preorder)
    (hf : f ∈ t.preorder.flatMap (Context.mk t T.oracle o).foundAt)
    (hf' : f' ∈ t.preorder.flatMap (Context.mk t T.oracle o).foundAt)
    (hc : f.anchor = d.id ∧ f.message = .initialUnannotated)
    (hc' : ¬(f'.anchor = d.id ∧ f'.message = .initialUnannotated)) :
    ({ f with message := .initialAnnotated } : Finding).key ≠ f'.key ∧ f.key ≠ f'.key := by
  constructor
  · intro hk
    obtain ⟨hanchor, hmessage, -⟩ := Finding.key_eq_iff.mp hk
    exact message_ne_annotated h hd hf hf' hc.1 hc.2 (hanchor.symm.trans hc.1) hmessage.symm
  · intro hk
    obtain ⟨hanchor, hmessage, -⟩ := Finding.key_eq_iff.mp hk
    exact hc' ⟨hanchor.symm.trans hc.1, hmessage.symm.trans hc.2⟩

omit hx in
theorem keepsKeys_annotating (hd : d ∈ t.preorder) :
    Report.KeepsKeys (fun f ↦ (Finding.annotating d o f).getD f)
      ((t.preorder.flatMap (Context.mk t T.oracle o).foundAt).filter fun f ↦
        (Finding.annotating d o f).isSome) := by
  intro f hf f' hf'
  obtain ⟨hf, hs⟩ := List.mem_filter.mp hf
  obtain ⟨hf', hs'⟩ := List.mem_filter.mp hf'
  dsimp only
  rw [Finding.getD_annotating hs, Finding.getD_annotating hs']
  by_cases hc : f.anchor = d.id ∧ f.message = .initialUnannotated
  · by_cases hc' : f'.anchor = d.id ∧ f'.message = .initialUnannotated
    · simp [Finding.key_eq_iff, hc, hc']
    · obtain ⟨hnew, hold⟩ := key_ne_of_annotating h hd hf hf' hc hc'
      rw [if_pos hc, if_neg hc']
      exact iff_of_false hnew hold
  · by_cases hc' : f'.anchor = d.id ∧ f'.message = .initialUnannotated
    · obtain ⟨hnew, hold⟩ := key_ne_of_annotating h hd hf' hf hc' hc
      rw [if_neg hc, if_pos hc']
      exact iff_of_false hnew.symm hold.symm
    · rw [if_neg hc, if_neg hc']

end Declarator

/-- Annotating a declarator is local. Whatever its binding is, if a type annotation is added to it,
the tree is still accepted, and the findings are the same in the same order but for those on the
declarator: that there is no initial value, that the value is nullish and that the array is open is
no longer found, and that the value is `any` is found with another message, unless the options allow
it in annotated declarations. If the binding was annotated already, nothing changes. -/
theorem analyze_annotated {t : Tree} (T : TypeTable) (o : Options) {d p b : Node}
    {k : VariableKind} (value : Json.Value) (location : Location) (h : t.checkLinks = .ok ())
    (hd : d ∈ t.preorder) (hdecl : Rule.Declares t d k p) (hb : t.childIn? d.id .id = some b) :
    let t' := t.withLeaf b.id ⟨.typeAscription, .typeAscription, value, location⟩
    t'.checkLinks = .ok () ∧
      analyze t' T.oracle o = (analyze t T.oracle o).filterMap (Finding.annotating d o) := by
  intro t'
  have hw := Tree.checkLinks_eq_ok_iff.mp h
  have hbh := Tree.has_of_mem_preorder hw (Tree.mem_preorder_of_childIn? hw hd hb)
  have hlt := Tree.lt_size_of_node? hbh
  refine ⟨Tree.checkLinks_eq_ok_iff.mpr (hw.withLeaf hlt), ?_⟩
  let cx : Context := ⟨t, T.oracle, o⟩
  let cx' : Context := ⟨t', T.oracle, o⟩
  have hfound : t'.preorder.flatMap cx'.foundAt =
      (t.preorder.flatMap cx.foundAt).filterMap (Finding.annotating d o) := by
    rw [Tree.flatMap_preorder_withLeaf hw hlt rfl, List.filterMap_flatMap]
    refine List.flatMap_congr fun n hn ↦ ?_
    by_cases hne : n = d
    · rw [hne]
      exact foundAt_annotated hw rfl hd hdecl hb
    · exact foundAt_beside hw rfl hd hb hn hne
  change cx'.findings = cx.findings.filterMap _
  rw [Context.findings_eq, Context.findings_eq, hfound]
  exact Report.findings_addAll_filterMap (fun _ _ ↦ Finding.isSome_annotating)
    (keepsKeys_annotating hw hd)

theorem analyze_annotated_nullish :
    let d := nullishSample.nodes[1]!
    let b := nullishSample.nodes[2]!
    let T := TypeTable.ofList [(3, .any)]
    let t' := nullishSample.withLeaf b.id ⟨.typeAscription, .typeAscription, .null, default⟩
    nullishSample.checkLinks = .ok () ∧ d ∈ nullishSample.preorder ∧
    Rule.Declares nullishSample d .letBound nullishSample.nodes[0]! ∧
    nullishSample.childIn? d.id .id = some b ∧ t'.checkLinks = .ok () ∧
    analyze t' T.oracle .defaults =
      (analyze nullishSample T.oracle .defaults).filterMap (Finding.annotating d .defaults) ∧
    analyze t' T.oracle .defaults = [.ofNode d .initialAnnotated []] := by
  intro d b T t'
  have h : nullishSample.checkLinks = .ok () := rfl
  have hd : d ∈ nullishSample.preorder :=
    List.mem_of_getElem? (show nullishSample.preorder[1]? = some d from rfl)
  have hdecl : Rule.Declares nullishSample d .letBound nullishSample.nodes[0]! := ⟨rfl, rfl, rfl⟩
  have hb : nullishSample.childIn? d.id .id = some b := rfl
  obtain ⟨hchecked, hfindings⟩ := analyze_annotated T .defaults .null default h hd hdecl hb
  exact ⟨h, hd, hdecl, hb, hchecked, hfindings, by decide +kernel⟩

end AnyFlow
