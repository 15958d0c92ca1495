import AnyFlow.Proofs.Pass
import AnyFlow.Proofs.Preorder
import AnyFlow.Proofs.Uniqueness

namespace AnyFlow

namespace Report

variable {r old : Report} {file : String} {steps u v : List Step}

theorem eventsOf_after (h : ∀ f ∈ steps.filterMap Step.finding?, f.key ∉ old.keys) :
    (r.after old).eventsOf file steps = r.eventsOf file steps := by
  induction steps generalizing r with
  | nil => rfl
  | cons step steps ih =>
    cases step with
    | unresolved cause => exact congrArg (_ :: ·) (ih h)
    | skipped rule node failure => exact congrArg (_ :: ·) (ih h)
    | found f =>
      have hf := h f List.mem_cons_self
      rw [eventsOf_found, eventsOf_found, isNew_after hf, add_after hf,
        ih fun g hg ↦ h g (List.mem_cons_of_mem f hg)]

theorem eventsOf_append : r.eventsOf file (u ++ v) =
    r.eventsOf file u ++ (r.addAll (u.filterMap Step.finding?)).eventsOf file v := by
  induction u generalizing r with
  | nil => rfl
  | cons step u ih =>
    cases step with
    | unresolved cause => exact congrArg (_ :: ·) ih
    | skipped rule node failure => exact congrArg (_ :: ·) ih
    | found f =>
      rw [List.cons_append, eventsOf_found, eventsOf_found, ih, List.append_assoc]
      rfl

end Report

namespace Tree

variable {t : Tree} {rs rs₁ rs₂ : List Nat} {n x : Node}

def withRoots (t : Tree) (rs : List Nat) : Tree := { t with roots := rs }

theorem WellLinked.withRoots (h : t.WellLinked) (hnd : rs.Nodup) (hrs : rs ⊆ t.roots) :
    (t.withRoots rs).WellLinked where
  id_eq := h.id_eq
  parent_of_mem := h.parent_of_mem
  mem_of_parent := h.mem_of_parent
  nodup_children := h.nodup_children
  root_parent hr := h.root_parent (hrs hr)
  nodup_roots := hnd

theorem subtree_withRoots (d : Nat) (x : Node) : (t.withRoots rs).subtree d x = t.subtree d x := by
  induction d generalizing x with
  | zero => rfl
  | succ d ih =>
    rw [subtree, subtree, funext ih]
    rfl

theorem ancestorsUpTo_withRoots (m id : Nat) :
    (t.withRoots rs).ancestorsUpTo m id = t.ancestorsUpTo m id := by
  induction m generalizing id with
  | zero => rfl
  | succ m ih =>
    simp only [ancestorsUpTo, ih]
    rfl

theorem linksAbove_withRoots : (t.withRoots rs).linksAbove n = t.linksAbove n := by
  have ha : (t.withRoots rs).ancestors n.id = t.ancestors n.id := ancestorsUpTo_withRoots _ _
  rw [linksAbove, linksAbove, ha]

theorem preorder_withRoots (h : (t.withRoots rs).WellLinked) :
    (t.withRoots rs).preorder = (rs.filterMap t.node?).flatMap (t.subtree t.size) := by
  rw [preorder_eq h, funext (subtree_withRoots _)]
  rfl

theorem WellLinked.of_append (h : (t.withRoots (rs₁ ++ rs₂)).WellLinked) :
    (t.withRoots rs₁).WellLinked ∧ (t.withRoots rs₂).WellLinked := by
  have hnd : (rs₁ ++ rs₂).Nodup := h.nodup_roots
  exact ⟨h.withRoots hnd.of_append_left (List.subset_append_left rs₁ rs₂),
    h.withRoots hnd.of_append_right (List.subset_append_right rs₁ rs₂)⟩

theorem preorder_append (h : (t.withRoots (rs₁ ++ rs₂)).WellLinked) :
    (t.withRoots (rs₁ ++ rs₂)).preorder =
      (t.withRoots rs₁).preorder ++ (t.withRoots rs₂).preorder := by
  rw [preorder_withRoots h, preorder_withRoots h.of_append.1, preorder_withRoots h.of_append.2,
    List.filterMap_append, List.flatMap_append]

end Tree

theorem Rule.matching_withRoots {t : Tree} {rs : List Nat} {n : Node} :
    matching (t.withRoots rs) n = matching t n := by
  have hd : (t.withRoots rs).destructuringDeclarator? n = t.destructuringDeclarator? n := by
    rw [Tree.destructuringDeclarator?, Tree.patternExit?, Tree.linksAbove_withRoots]
    rfl
  rw [matching, matching, hd]
  rfl

def Event.isDrop : Event → Bool
  | .duplicateDropped .. => true
  | _ => false

namespace Context

def drops (cx : Context) : List Event := cx.events.filter Event.isDrop

theorem drops_eq (cx : Context) :
    cx.drops = (Report.empty.eventsOf cx.tree.file cx.steps).filter Event.isDrop := by
  rw [drops, events, List.filter_append, List.filter_cons_of_neg (by simp [Event.isDrop])]
  exact List.append_nil _

variable {cx : Context} {rs rs₁ rs₂ : List Nat} {n : Node} {f g : Finding}

def withRoots (cx : Context) (rs : List Nat) : Context := { cx with tree := cx.tree.withRoots rs }

theorem steps_withRoots :
    (cx.withRoots rs).steps = (cx.tree.withRoots rs).preorder.flatMap cx.stepsOfNode := by
  rw [steps]
  refine List.flatMap_congr fun n _ ↦ ?_
  have hm : Rule.matching (cx.withRoots rs).tree n = Rule.matching cx.tree n :=
    Rule.matching_withRoots
  rw [stepsOfNode, hm]
  rfl

section Append

variable (h : (cx.tree.withRoots (rs₁ ++ rs₂)).WellLinked)

include h

theorem steps_append :
    (cx.withRoots (rs₁ ++ rs₂)).steps = (cx.withRoots rs₁).steps ++ (cx.withRoots rs₂).steps := by
  simp only [steps_withRoots, Tree.preorder_append h, List.flatMap_append]

/-- The anchors of the findings lie in different parts, and no node lies in two. -/
theorem key_notMem_keys (hg : g ∈ (cx.withRoots rs₂).steps.filterMap Step.finding?) :
    g.key ∉ (cx.withRoots rs₁).report.keys := by
  intro hk
  obtain ⟨f, hf, hfg⟩ : ∃ f ∈ (cx.withRoots rs₁).steps.filterMap Step.finding?, f.key = g.key := by
    rw [report, Report.mem_keys_addAll] at hk
    exact List.mem_map.mp (hk.resolve_left List.not_mem_nil)
  have hanchor {rs : List Nat} {f : Finding} (hw : (cx.tree.withRoots rs).WellLinked)
      (hf : f ∈ (cx.withRoots rs).steps.filterMap Step.finding?) :
      f.anchor ∈ (cx.tree.withRoots rs).preorder.map Node.id := by
    rw [findings_steps] at hf
    obtain ⟨n, hn, hf⟩ := List.mem_flatMap.mp hf
    obtain ⟨a, ha, he, -⟩ := exists_visited_anchor hw hn hf
    exact List.mem_map.mpr ⟨a, ha, he.symm⟩
  have hnd := Tree.nodup_map_preorder h
  rw [Tree.preorder_append h, List.map_append, List.nodup_append'] at hnd
  refine hnd.2.2 (hanchor h.of_append.1 hf) ?_
  rw [show f.anchor = g.anchor from congrArg Prod.fst hfg]
  exact hanchor h.of_append.2 hg

theorem report_append : (cx.withRoots (rs₁ ++ rs₂)).report =
    (cx.withRoots rs₂).report.after (cx.withRoots rs₁).report := by
  rw [report, steps_append h, List.filterMap_append, Report.addAll_append, ← report,
    ← Report.empty_after (cx.withRoots rs₁).report,
    Report.addAll_after fun g hg ↦ key_notMem_keys h hg, Report.empty_after]
  rfl

theorem findings_append : (cx.withRoots (rs₁ ++ rs₂)).findings =
    (cx.withRoots rs₁).findings ++ (cx.withRoots rs₂).findings :=
  congrArg Report.findings (report_append h)

theorem drops_append : (cx.withRoots (rs₁ ++ rs₂)).drops =
    (cx.withRoots rs₁).drops ++ (cx.withRoots rs₂).drops := by
  rw [drops_eq, drops_eq, drops_eq, steps_append h, Report.eventsOf_append, ← report,
    ← Report.empty_after (cx.withRoots rs₁).report,
    Report.eventsOf_after fun g hg ↦ key_notMem_keys h hg, List.filter_append]
  rfl

end Append

/-- Each root has its own block of findings and of drops. -/
theorem withRoots_eq_flatMap (h : (cx.tree.withRoots rs).WellLinked) :
    (cx.withRoots rs).findings = rs.flatMap (fun r ↦ (cx.withRoots [r]).findings) ∧
      (cx.withRoots rs).drops = rs.flatMap fun r ↦ (cx.withRoots [r]).drops := by
  induction rs with
  | nil =>
    have hs : (cx.withRoots []).steps = [] := by
      rw [steps_withRoots, Tree.preorder_withRoots h]
      rfl
    rw [findings, report, drops_eq, hs]
    exact ⟨rfl, rfl⟩
  | cons r rs ih =>
    rw [show r :: rs = [r] ++ rs from rfl] at h ⊢
    obtain ⟨hfindings, hdrops⟩ := ih h.of_append.2
    rw [findings_append h, drops_append h, hfindings, hdrops, List.flatMap_append,
      List.flatMap_append, List.flatMap_singleton, List.flatMap_singleton]
    exact ⟨rfl, rfl⟩

end Context

/-- What lies below different roots is analysed independently. The findings with the roots `rs₁`
and `rs₂` are those with `rs₁` and after them those with `rs₂`, and the host receives and counts
the same from one pass as from two. So another order of the roots only changes the order of their
blocks, and every finding that is dropped is dropped in the block of one root. -/
theorem roots_independent {t : Tree} (o : Oracle) (options : Options) (h : t.checkLinks = .ok ()) :
    let found (rs : List Nat) : List Finding := analyze (t.withRoots rs) o options
    let run (rs : List Nat) : Context := ⟨t.withRoots rs, o, options⟩
    (∀ rs₁ rs₂, t.roots = rs₁ ++ rs₂ → analyze t o options = found rs₁ ++ found rs₂ ∧
      ∀ sink, let e := ((Context.mk t o options).pass sink).emitter
        let e₁ := ((run rs₁).pass sink).emitter
        let e₂ := ((run rs₂).pass e₁.sink).emitter
        e.sink = e₂.sink ∧ e.emitted = e₁.emitted + e₂.emitted) ∧
    ∀ rs, rs.Perm t.roots → (t.withRoots rs).checkLinks = .ok () ∧
      found rs = rs.flatMap (fun r ↦ found [r]) ∧
      (run rs).drops = rs.flatMap fun r ↦ (run [r]).drops := by
  intro found run
  let cx : Context := ⟨t, o, options⟩
  have hw : t.WellLinked := Tree.checkLinks_eq_ok_iff.mp h
  refine ⟨fun rs₁ rs₂ hr ↦ ?_, fun rs hrs ↦ ?_⟩
  · have hcx : cx.withRoots (rs₁ ++ rs₂) = cx := by
      rw [← hr]
      rfl
    have hfindings : cx.findings = (run rs₁).findings ++ (run rs₂).findings := by
      rw [← hcx]
      exact Context.findings_append (hr ▸ hw)
    refine ⟨hfindings, fun sink ↦ ?_⟩
    intro e e₁ e₂
    have he : e.Tracks sink cx.report := (cx.pass_eq sink).1
    have he₁ : e₁.Tracks sink (run rs₁).report := ((run rs₁).pass_eq sink).1
    have he₂ : e₂.Tracks e₁.sink (run rs₂).report := ((run rs₂).pass_eq e₁.sink).1
    constructor
    · rw [he.sink_eq, he₂.sink_eq, he₁.sink_eq, List.append_assoc]
      exact congrArg (sink ++ ·) hfindings
    · rw [he.emitted_eq, he₁.emitted_eq, he₂.emitted_eq]
      exact (congrArg List.length hfindings).trans List.length_append
  · have hperm : (t.withRoots rs).WellLinked :=
      hw.withRoots (hrs.nodup_iff.mpr hw.nodup_roots) hrs.subset
    exact ⟨Tree.checkLinks_eq_ok_iff.mpr hperm, cx.withRoots_eq_flatMap hperm⟩

theorem roots_independent_callSample :
    let found (rs : List Nat) := analyze (callSample.withRoots rs) callTypes.oracle .defaults
    let run (rs : List Nat) : Context := ⟨callSample.withRoots rs, callTypes.oracle, .defaults⟩
    callSample.checkLinks = .ok () ∧ callSample.roots = [0] ++ [5] ∧
    analyze callSample callTypes.oracle .defaults = found [0] ++ found [5] ∧
    found [5, 0] = found [5] ++ found [0] ∧
    (run [5, 0]).drops = (run [5]).drops ++ (run [0]).drops ∧
    (run [5]).drops = [.duplicateDropped 6 .returned] := by
  intro found run
  have h : callSample.checkLinks = .ok () := rfl
  have hroots : callSample.roots = [0] ++ [5] := rfl
  obtain ⟨happend, hperm⟩ := roots_independent callTypes.oracle .defaults h
  have hswap : [5, 0].Perm callSample.roots := .swap 0 5 []
  obtain ⟨-, hfindings, hdrops⟩ := hperm [5, 0] hswap
  simp only [List.flatMap_cons, List.flatMap_nil, List.append_nil] at hfindings hdrops
  exact ⟨h, hroots, (happend [0] [5] hroots).1, hfindings, hdrops, by decide +kernel⟩

end AnyFlow
