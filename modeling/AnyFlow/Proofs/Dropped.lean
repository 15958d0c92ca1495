import AnyFlow.Proofs.Roots

namespace AnyFlow

theorem Report.drops_eventsOf {file : String} (r : Report) (steps : List Step) :
    (r.eventsOf file steps).filter Event.isDrop =
      ((r.dropped (steps.filterMap Step.finding?)).map Finding.key).map fun k ↦
        .duplicateDropped k.1 k.2.1 := by
  induction steps generalizing r with
  | nil => rfl
  | cons step steps ih =>
    cases step with
    | unresolved cause => exact ih r
    | skipped rule node failure => exact ih r
    | found f =>
      have hfound : (Step.found f :: steps).filterMap Step.finding? =
          f :: steps.filterMap Step.finding? := rfl
      rw [eventsOf_found, List.filter_append, ih, hfound, dropped, List.map_append,
        List.map_append]
      split <;> rfl

namespace Tree

/-- The body of an arrow function is a return statement, and both its own type and that of what it
returns are unsafe. -/
def DoublesReturn (t : Tree) (T : TypeTable) (n : Node) : Prop :=
  n.kind = .arrowFunctionExpression ∧
    ∃ body ∈ t.childIn? n.id .body, body.kind = .returnStatement ∧ T.RecordsUnsafe body ∧
      ∃ value ∈ t.childIn? body.id .argument, T.RecordsUnsafe value

instance {t : Tree} {T : TypeTable} {n : Node} : Decidable (t.DoublesReturn T n) :=
  inferInstanceAs (Decidable (_ ∧ _))

end Tree

/-- Two nodes that have their findings at one place are one, or the one is a return statement and
the body of the other. -/
theorem Rule.eq_or_body_of_anchor? {t : Tree} {rule : Rule} {n m a : Node} (h : t.WellLinked)
    (hn : t.Has n) (hm : t.Has m) (ha : rule.anchor? t n = some a)
    (ha' : rule.anchor? t m = some a) :
    n = m ∨ rule = .returnValue ∧ (
      (n.kind = .returnStatement ∧ m.kind ≠ .returnStatement ∧ t.childIn? m.id .body = some n) ∨
      (m.kind = .returnStatement ∧ n.kind ≠ .returnStatement ∧ t.childIn? n.id .body = some m)
    ) := by
  cases rule with
  | loopBinding | booleanTest | switchCaseTest | switchDiscriminant =>
    exact .inl (Tree.eq_of_childIn? h hn hm ha ha')
  | returnValue =>
    rw [anchor?] at ha ha'
    by_cases hkn : n.kind = .returnStatement
    · rw [if_pos hkn] at ha
      by_cases hkm : m.kind = .returnStatement
      · rw [if_pos hkm] at ha'
        exact .inl (Option.some.inj (ha.trans ha'.symm))
      · rw [if_neg hkm] at ha'
        exact .inr ⟨rfl, .inl ⟨hkn, hkm, ha'.trans ha.symm⟩⟩
    · rw [if_neg hkn] at ha
      by_cases hkm : m.kind = .returnStatement
      · rw [if_pos hkm] at ha'
        exact .inr ⟨rfl, .inr ⟨hkm, hkn, ha.trans ha'.symm⟩⟩
      · rw [if_neg hkm] at ha'
        exact .inl (Tree.eq_of_childIn? h hn hm ha ha')
  | _ => exact .inl (Option.some.inj (ha.trans ha'.symm))

section Table

variable {t : Tree} {T : TypeTable} {o : Options} {n m : Node} {f g : Finding}

theorem doublesReturn_of_found (hn : n.kind = .returnStatement)
    (hm : m.kind = .arrowFunctionExpression) (hb : t.childIn? m.id .body = some n)
    (hf : f ∈ (Context.mk t T.oracle o).foundBy n .returnValue)
    (hg : g ∈ (Context.mk t T.oracle o).foundBy m .returnValue) : t.DoublesReturn T m := by
  rw [Context.foundBy_returnStatement hn, Context.mem_map_filter_leaks] at hf
  rw [Context.foundBy_arrowFunction hm, Context.mem_map_filter_leaks] at hg
  obtain ⟨value, hv, hvalue, -⟩ := hf
  obtain ⟨body, hbody, hleaks, -⟩ := hg
  cases Option.some.inj (hb.symm.trans hbody)
  exact ⟨hm, n, hb, hn, TypeTable.isLeaking_exposure.mp hleaks, value, hv,
    TypeTable.isLeaking_exposure.mp hvalue⟩

theorem eq_or_doublesReturn (h : t.WellLinked) (hn : n ∈ t.preorder) (hm : m ∈ t.preorder)
    (hf : f ∈ (Context.mk t T.oracle o).foundAt n) (hg : g ∈ (Context.mk t T.oracle o).foundAt m)
    (hk : f.key = g.key) : n = m ∨ t.DoublesReturn T n ∨ t.DoublesReturn T m := by
  obtain ⟨rule, ha, hf⟩ := Context.mem_foundAt.mp hf
  obtain ⟨rule', ha', hg⟩ := Context.mem_foundAt.mp hg
  obtain ⟨a, message, data, hanchor, hmem, -, -, hef⟩ := Context.found_form ha hf
  obtain ⟨a', message', data', hanchor', hmem', -, -, heg⟩ := Context.found_form ha' hg
  rw [hef, heg] at hk
  have hmessage : message = message' := congrArg (·.2.1) hk
  cases Rule.eq_of_mem_messages hmem (hmessage ▸ hmem')
  have hvisited := Tree.has_of_mem_preorder h (Rule.mem_preorder_of_anchor? h hn hanchor)
  have hvisited' := Tree.has_of_mem_preorder h (Rule.mem_preorder_of_anchor? h hm hanchor')
  cases hvisited.eq_of_id hvisited' (congrArg (·.1) hk)
  have hn := Tree.has_of_mem_preorder h hn
  have hm := Tree.has_of_mem_preorder h hm
  rcases Rule.eq_or_body_of_anchor? h hn hm hanchor hanchor' with
    he | ⟨rfl, ⟨hkn, hkm, hb⟩ | ⟨hkm, hkn, hb⟩⟩
  · exact .inl he
  · have harrow := (ha'.resolve_left fun hr ↦ hkm hr.1).1
    exact .inr (.inr (doublesReturn_of_found hkn harrow hb hf hg))
  · have harrow := (ha.resolve_left fun hr ↦ hkn hr.1).1
    exact .inr (.inl (doublesReturn_of_found hkm harrow hb hg hf))

theorem foundAt_of_doublesReturn (hd : t.DoublesReturn T n) :
    ∃ body, t.childIn? n.id .body = some body ∧ body.kind = .returnStatement ∧
      (Context.mk t T.oracle o).foundAt n = [.ofNode body .returned []] ∧
      .ofNode body .returned [] ∈ (Context.mk t T.oracle o).foundAt body := by
  obtain ⟨hk, body, hb, hbk, hbody, value, hv, hvalue⟩ := hd
  rw [Option.mem_def] at hb hv
  have hmatch : Rule.matching t n = [.returnValue] := by
    simp [Rule.matching, hk, hb, hbk]
  have hleaks : (Context.mk t T.oracle o).leaks body := TypeTable.isLeaking_exposure.mpr hbody
  refine ⟨body, hb, hbk, ?_, ?_⟩
  · rw [Context.foundAt, hmatch, List.flatMap_singleton, Context.foundBy_arrowFunction hk, hb,
      Option.toList_some, List.filter_singleton, hleaks]
    rfl
  · refine Context.mem_foundAt.mpr ⟨.returnValue, .inl ⟨hbk, value, hv⟩, ?_⟩
    rw [Context.foundBy_returnStatement hbk]
    have hleaks : (Context.mk t T.oracle o).leaks value := TypeTable.isLeaking_exposure.mpr hvalue
    exact Context.mem_map_filter_leaks.mpr ⟨value, hv, hleaks, rfl⟩

theorem nodup_keys_others (h : t.WellLinked) :
    (((t.preorder.filter fun n ↦ ¬ t.DoublesReturn T n).flatMap
      (Context.mk t T.oracle o).foundAt).map Finding.key).Nodup := by
  rw [List.map_flatMap, List.nodup_flatMap]
  refine ⟨fun n _ ↦ Context.nodup_keys_foundAt, ?_⟩
  refine List.Pairwise.imp_of_mem (fun {n m} hn hm hne ↦ ?_) ((Tree.nodup_preorder h).filter _)
  obtain ⟨hn, hdn⟩ := List.mem_filter.mp hn
  obtain ⟨hm, hdm⟩ := List.mem_filter.mp hm
  intro k hk hk'
  obtain ⟨f, hf, rfl⟩ := List.mem_map.mp hk
  obtain ⟨g, hg, hkey⟩ := List.mem_map.mp hk'
  rcases eq_or_doublesReturn h hn hm hf hg hkey.symm with he | hd | hd
  · exact hne he
  · exact of_decide_eq_true hdn hd
  · exact of_decide_eq_true hdm hd

/-- What a doubled return makes its arrow function find is found on another node too. -/
theorem keys_doubled_subset (h : t.WellLinked) :
    ((t.preorder.filter fun n ↦ t.DoublesReturn T n).flatMap
      (Context.mk t T.oracle o).foundAt).map Finding.key ⊆
    ((t.preorder.filter fun n ↦ ¬ t.DoublesReturn T n).flatMap
      (Context.mk t T.oracle o).foundAt).map Finding.key := by
  refine List.map_subset _ fun f hf ↦ ?_
  obtain ⟨n, hn, hf⟩ := List.mem_flatMap.mp hf
  obtain ⟨hn, hd⟩ := List.mem_filter.mp hn
  obtain ⟨body, hb, hbk, hfound, hbody⟩ :=
    foundAt_of_doublesReturn (o := o) (of_decide_eq_true hd)
  rw [hfound, List.mem_singleton] at hf
  refine List.mem_flatMap.mpr ⟨body, List.mem_filter.mpr ⟨?_, ?_⟩, hf ▸ hbody⟩
  · exact Tree.mem_preorder_of_childIn? h hn hb
  · exact decide_eq_true fun hd ↦ absurd (hbk.symm.trans hd.1) (by decide)

/-- One finding is dropped for each doubled return. -/
theorem perm_drops (h : t.WellLinked) : (Context.mk t T.oracle o).drops.Perm
    ((t.preorder.filter fun n ↦ t.DoublesReturn T n).filterMap fun n ↦
      (t.childIn? n.id .body).map fun body ↦ .duplicateDropped body.id .returned) := by
  let cx : Context := ⟨t, T.oracle, o⟩
  have hsplit : (t.preorder.flatMap cx.foundAt).Perm
      ((t.preorder.filter fun n ↦ ¬ t.DoublesReturn T n).flatMap cx.foundAt ++
        (t.preorder.filter fun n ↦ t.DoublesReturn T n).flatMap cx.foundAt) := by
    rw [← List.flatMap_append]
    refine List.Perm.flatMap_right _ (List.Perm.symm (List.perm_append_comm.trans ?_))
    simp only [decide_not]
    exact List.filter_append_perm _ _
  have hdropped := Report.perm_keys_dropped hsplit (nodup_keys_others h) (keys_doubled_subset h)
  rw [Context.drops_eq, Report.drops_eventsOf, Context.findings_steps]
  refine (hdropped.map _).trans (.of_eq ?_)
  rw [List.map_map, List.map_flatMap, List.filterMap_eq_flatMap_toList]
  refine List.flatMap_congr fun n hn ↦ ?_
  obtain ⟨body, hb, -, hfound, -⟩ :=
    foundAt_of_doublesReturn (o := o) (of_decide_eq_true (List.mem_filter.mp hn).2)
  rw [hfound, hb]
  rfl

end Table

/-- A pass drops as many findings as there are visited arrow functions whose body is a return
statement such that its type and the type of what it returns are unsafe. Each of these statements
is where one of them is dropped. -/
theorem drops_exact {t : Tree} (T : TypeTable) (o : Options) (h : t.checkLinks = .ok ())
    (sink : List Finding) :
    let drops := ((Context.mk t T.oracle o).pass sink).events.filter Event.isDrop
    let arrows := t.preorder.filter fun n ↦ t.DoublesReturn T n
    drops.length = arrows.length ∧
    drops.Perm (arrows.filterMap fun n ↦ (t.childIn? n.id .body).map fun body ↦
      .duplicateDropped body.id .returned) := by
  intro drops arrows
  have hdrops : drops = (Context.mk t T.oracle o).drops :=
    congrArg (List.filter Event.isDrop) ((Context.mk t T.oracle o).pass_eq sink).2
  have hperm := perm_drops (o := o) (Tree.checkLinks_eq_ok_iff.mp h) (T := T)
  rw [← hdrops] at hperm
  refine ⟨hperm.length_eq.trans (List.filterMap_length_eq_length.mpr fun n hn ↦ ?_), hperm⟩
  obtain ⟨-, body, hb, -⟩ := of_decide_eq_true (List.mem_filter.mp hn).2
  rw [Option.mem_def.mp hb]
  rfl

theorem drops_exact_callSample :
    let drops := ((Context.mk callSample callTypes.oracle .defaults).pass []).events.filter
      Event.isDrop
    callSample.checkLinks = .ok () ∧ drops.length = 1 ∧
    drops = [.duplicateDropped 6 .returned] := by
  intro drops
  have h : callSample.checkLinks = .ok () := rfl
  obtain ⟨hlength, hperm⟩ := drops_exact callTypes .defaults h []
  have hdropped :
      ((callSample.preorder.filter fun n ↦ callSample.DoublesReturn callTypes n).filterMap fun n ↦
        (callSample.childIn? n.id .body).map fun body ↦ .duplicateDropped body.id .returned) =
      [Event.duplicateDropped 6 .returned] := by
    decide +kernel
  rw [hdropped] at hperm
  exact ⟨h, hlength.trans (by decide +kernel), List.perm_singleton.mp hperm⟩

end AnyFlow
