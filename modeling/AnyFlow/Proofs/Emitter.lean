import AnyFlow.Finding.Emitter
import AnyFlow.Proofs.Dict
import AnyFlow.Proofs.Report

namespace AnyFlow

/-- The emitter has handed on what the report holds, after what the sink held before. -/
structure Emitter.Tracks (sink : List Finding) (r : Report) (e : Emitter) : Prop where
  sink_eq : e.sink = sink ++ r.findings
  mem_seen {k : FindingKey} : k ∈ e.seen ↔ k ∈ r.keys
  emitted_eq : e.emitted = r.count

namespace Emitter.Tracks

variable {sink : List Finding} {r : Report} {e : Emitter}

theorem new : Tracks sink .empty (.new sink) := ⟨(List.append_nil sink).symm, Iff.rfl, rfl⟩

theorem emit (h : Tracks sink r e) (f : Finding) :
    (e.emit f).1 = r.isNew f ∧ Tracks sink (r.add f) (e.emit f).2 := by
  by_cases hf : f.key ∈ r.keys
  · have hnew : r.isNew f = false := by
      rw [Bool.eq_false_iff]
      exact fun hn ↦ Report.isNew_iff.mp hn hf
    rw [Emitter.emit, if_pos (h.mem_seen.mpr hf), hnew, Report.add_of_known hf]
    exact ⟨rfl, h⟩
  · rw [Emitter.emit, if_neg (mt h.mem_seen.mp hf), Report.isNew_iff.mpr hf,
      Report.add_of_new hf]
    refine ⟨rfl, ?_, fun {k} ↦ ?_, ?_⟩
    · rw [h.sink_eq, List.append_assoc]
    · rw [List.mem_cons, h.mem_seen]
      simp [Report.keys, or_comm]
    · rw [h.emitted_eq]
      simp [Report.count]

end Emitter.Tracks

namespace Finding

variable {fs : List Finding} {f : Finding} {k : FindingKey}

/-- No finding before this place has the key of the finding at this place. -/
def isFirst (fs : List Finding) (x : Finding × Nat) : Bool :=
  (fs.take x.2).all fun g ↦ g.key != x.1.key

def firsts (fs : List Finding) : List Finding := (fs.zipIdx.filter (isFirst fs)).map Prod.fst

theorem isFirst_concat {x : Finding × Nat} (h : x ∈ fs.zipIdx) :
    isFirst (fs ++ [f]) x = isFirst fs x := by
  have hle : x.2 ≤ fs.length := Nat.le_of_lt (List.snd_lt_of_mem_zipIdx h)
  rw [isFirst, isFirst, List.take_append_of_le_length hle]

theorem isFirst_last : isFirst (fs ++ [f]) (f, fs.length) = decide (f.key ∉ fs.map key) := by
  rw [isFirst, List.take_left, Bool.eq_iff_iff, decide_eq_true_iff]
  exact Report.isNew_iff (r := ⟨fs⟩)

theorem zipIdx_concat : (fs ++ [f]).zipIdx = fs.zipIdx ++ [(f, fs.length)] := by
  rw [List.zipIdx_append, Nat.zero_add]
  rfl

theorem map_isFirst_concat : (fs ++ [f]).zipIdx.map (isFirst (fs ++ [f])) =
    fs.zipIdx.map (isFirst fs) ++ [decide (f.key ∉ fs.map key)] := by
  rw [zipIdx_concat, List.map_append, List.map_singleton, isFirst_last,
    List.map_congr_left fun x hx ↦ isFirst_concat hx]

theorem firsts_concat :
    firsts (fs ++ [f]) = firsts fs ++ if f.key ∈ fs.map key then [] else [f] := by
  rw [firsts, zipIdx_concat, List.filter_append, List.map_append,
    List.filter_congr fun x hx ↦ isFirst_concat hx, ← firsts, List.filter_singleton, isFirst_last]
  by_cases h : f.key ∈ fs.map key
  · simp [h]
  · simp [h]

theorem firsts_eq : firsts fs = (Report.empty.addAll fs).findings := by
  induction fs using List.reverseRecOn with
  | nil => rfl
  | append_singleton fs f ih =>
    have hkeys : f.key ∈ (Report.empty.addAll fs).keys ↔ f.key ∈ fs.map key :=
      Report.mem_keys_addAll.trans (or_iff_right List.not_mem_nil)
    rw [firsts_concat, ih, Report.addAll_append]
    change _ = ((Report.empty.addAll fs).add f).findings
    by_cases h : f.key ∈ fs.map key
    · rw [if_pos h, Report.add_of_known (hkeys.mpr h), List.append_nil]
    · rw [if_neg h, Report.add_of_new (mt hkeys.mp h)]

theorem nodup_keys_firsts : ((firsts fs).map key).Nodup := by
  rw [firsts_eq]
  exact Report.nodup_keys_addAll (r := Report.empty) List.nodup_nil

theorem find?_firsts : (firsts fs).find? (·.key = k) = fs.find? (·.key = k) := by
  induction fs using List.reverseRecOn with
  | nil => rfl
  | append_singleton fs f ih =>
    rw [firsts_concat, List.find?_append, List.find?_append, ih]
    split
    · rename_i h
      obtain ⟨g, hg, hk⟩ := List.mem_map.mp h
      by_cases hf : f.key = k
      · have hsome : (fs.find? (·.key = k)).isSome :=
          List.find?_isSome.mpr ⟨g, hg, decide_eq_true (hk.trans hf)⟩
        rw [Option.or_of_isSome hsome, Option.or_of_isSome hsome]
      · simp [hf]
    · rfl

end Finding

namespace EmitterCall

def finding : EmitterCall → Finding
  | .emit f => f
  | .report anchor m data => .ofNode anchor m data

end EmitterCall

namespace Emitter

variable {e : Emitter} {c : EmitterCall} {calls later : List EmitterCall} {sink : List Finding}

theorem perform_eq : e.perform c = e.emit c.finding := by
  cases c with
  | emit f => rfl
  | report anchor m data => rfl

theorem performAll_append : e.performAll (calls ++ later) =
    ((e.performAll calls).1 ++ ((e.performAll calls).2.performAll later).1,
      ((e.performAll calls).2.performAll later).2) := by
  induction calls generalizing e with
  | nil => rfl
  | cons c calls ih =>
    rw [List.cons_append, performAll, ih]
    rfl

theorem length_performAll : (e.performAll calls).1.length = calls.length := by
  induction calls generalizing e with
  | nil => rfl
  | cons c calls ih => exact congrArg Nat.succ ih

theorem performAll_take (n : Nat) :
    (e.performAll (calls.take n)).1 = (e.performAll calls).1.take n := by
  by_cases h : n ≤ calls.length
  · have hlength : (e.performAll (calls.take n)).1.length = n := by
      rw [length_performAll, List.length_take_of_le h]
    rw [← List.take_append_drop n calls, performAll_append, List.take_append_drop,
      List.take_left' hlength]
  · have hle : calls.length ≤ n := Nat.le_of_not_le h
    rw [List.take_of_length_le hle, List.take_of_length_le (length_performAll.symm ▸ hle)]

theorem performAll_tracks :
    ((new sink).performAll calls).1 =
        (calls.map EmitterCall.finding).zipIdx.map
          (Finding.isFirst (calls.map EmitterCall.finding)) ∧
      Tracks sink (Report.empty.addAll (calls.map EmitterCall.finding))
        ((new sink).performAll calls).2 := by
  induction calls using List.reverseRecOn with
  | nil => exact ⟨rfl, .new⟩
  | append_singleton calls c ih =>
    obtain ⟨hanswers, htracks⟩ := ih
    obtain ⟨hnew, hadd⟩ := htracks.emit c.finding
    rw [← perform_eq] at hnew hadd
    rw [performAll_append, performAll, performAll, List.map_append, List.map_singleton,
      Finding.map_isFirst_concat, Report.addAll_append, ← hanswers]
    refine ⟨congrArg _ (congrArg (fun answer ↦ [answer]) (hnew.trans ?_)), hadd⟩
    rw [Bool.eq_iff_iff, Report.isNew_iff, Report.mem_keys_addAll, decide_eq_true_iff,
      Report.keys, Report.empty, List.map_nil, or_iff_right List.not_mem_nil]

theorem count_performAll : ((new sink).performAll calls).1.count true =
    (Finding.firsts (calls.map EmitterCall.finding)).length := by
  rw [performAll_tracks.1, Finding.firsts, List.length_map, ← List.countP_eq_length_filter,
    List.count_eq_countP, List.countP_map]
  refine List.countP_congr fun x _ ↦ ?_
  simp

theorem performAll_known (h : ∀ c ∈ calls, c.finding.key ∈ e.seen) :
    e.performAll calls = (calls.map fun _ ↦ false, e) := by
  induction calls with
  | nil => rfl
  | cons c calls ih =>
    obtain ⟨hc, hcalls⟩ := List.forall_mem_cons.mp h
    rw [performAll, perform_eq, emit, if_pos hc, ih hcalls]
    rfl

theorem performAll_again : ((new sink).performAll calls).2.performAll calls =
    (calls.map fun _ ↦ false, ((new sink).performAll calls).2) := by
  refine performAll_known fun c hc ↦ ?_
  rw [performAll_tracks.2.mem_seen, Report.mem_keys_addAll]
  exact .inr (List.mem_map_of_mem (List.mem_map_of_mem hc))

end Emitter

open Emitter Finding in
/-- A new emitter hands on, in the order of the calls, the first finding of each key and no other.
The key of a finding is its anchor, message and data, so its rule and location play no part. An
answer is true exactly at such a finding, and at any time so many answers were true as findings were
handed on. A report emits the finding with the location of its node, in which the last of the data
of one key stays. The same calls once more hand on nothing. -/
theorem emitter_keeps_firsts (sink : List Finding) (calls : List EmitterCall) :
    let fs := calls.map EmitterCall.finding
    let run := (new sink).performAll calls
    (∀ f g : Finding,
      f.key = g.key ↔ f.anchor = g.anchor ∧ f.message = g.message ∧ f.data = g.data) ∧
    run.1 = fs.zipIdx.map (isFirst fs) ∧
    run.2.sink = sink ++ firsts fs ∧
    ((firsts fs).map key).Nodup ∧
    (∀ k, (firsts fs).find? (·.key = k) = fs.find? (·.key = k)) ∧
    (∀ n, let part := (new sink).performAll (calls.take n)
      part.1 = run.1.take n ∧ part.2.emitted = part.1.count true ∧
      part.2.sink.length = sink.length + part.2.emitted) ∧
    (∀ (e : Emitter) (anchor : Node) (m : Message) (data : List (String × String)),
      ∃ d : Dict String String,
        (∀ d' : Dict String String, (∀ k, d'.get? k = data.reverse.lookup k) ↔ d' = d) ∧
        e.report anchor m data = e.emit ⟨ruleId, m, anchor.id, anchor.location, d⟩) ∧
    run.2.performAll calls = (calls.map fun _ ↦ false, run.2) := by
  intro fs run
  refine ⟨fun _ _ ↦ key_eq_iff, performAll_tracks.1, ?_, nodup_keys_firsts, fun k ↦ find?_firsts,
    fun n ↦ ?_, fun e anchor m data ↦ ?_, performAll_again⟩
  · rw [firsts_eq]
    exact performAll_tracks.2.sink_eq
  · have htracks : Tracks sink _ ((new sink).performAll (calls.take n)).2 := performAll_tracks.2
    refine ⟨performAll_take n, ?_, ?_⟩
    · rw [htracks.emitted_eq, count_performAll, firsts_eq, Report.count]
    · rw [htracks.emitted_eq, htracks.sink_eq, List.length_append, Report.count]
  · refine ⟨.ofList data, fun d' ↦ ⟨fun h ↦ ?_, ?_⟩, rfl⟩
    · exact Dict.ext_get? fun k ↦ (h k).trans Dict.get?_ofList.symm
    · rintro rfl k
      exact Dict.get?_ofList

end AnyFlow
