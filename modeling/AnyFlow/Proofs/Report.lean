import Mathlib.Data.List.Nodup
import Mathlib.Tactic.Tauto
import AnyFlow.Finding.Report

namespace AnyFlow.Report

variable {r old : Report} {f : Finding} {fs gs : List Finding} {k : FindingKey}

def keys (r : Report) : List FindingKey := r.findings.map Finding.key

theorem addAll_cons : r.addAll (f :: fs) = (r.add f).addAll fs := rfl

theorem isNew_iff : r.isNew f ↔ f.key ∉ r.keys := by
  simp [isNew, keys]

theorem add_of_new (h : f.key ∉ r.keys) : r.add f = ⟨r.findings ++ [f]⟩ :=
  if_pos (isNew_iff.mpr h)

theorem add_of_known (h : f.key ∈ r.keys) : r.add f = r :=
  if_neg fun hn ↦ isNew_iff.mp hn h

theorem mem_keys_add : k ∈ (r.add f).keys ↔ k ∈ r.keys ∨ k = f.key := by
  by_cases h : f.key ∈ r.keys
  · rw [add_of_known h]
    constructor
    · exact .inl
    · intro hx
      rcases hx with hk | rfl
      · exact hk
      · exact h
  · simp [add_of_new h, keys]

theorem mem_keys_addAll : k ∈ (r.addAll fs).keys ↔ k ∈ r.keys ∨ k ∈ fs.map Finding.key := by
  induction fs generalizing r with
  | nil => simp [addAll]
  | cons f fs ih =>
    rw [addAll_cons, ih, mem_keys_add, List.map_cons, List.mem_cons]
    tauto

theorem nodup_keys_add (h : r.keys.Nodup) : (r.add f).keys.Nodup := by
  by_cases hf : f.key ∈ r.keys
  · rwa [add_of_known hf]
  · rw [add_of_new hf]
    simpa [keys] using (List.nodup_concat r.keys f.key).mpr ⟨hf, h⟩

theorem nodup_keys_addAll (h : r.keys.Nodup) : (r.addAll fs).keys.Nodup := by
  induction fs generalizing r with
  | nil => exact h
  | cons f fs ih => exact ih (nodup_keys_add h)

theorem exists_findings_addAll (r : Report) (fs : List Finding) :
    ∃ gs : List Finding, gs.Sublist fs ∧ (r.addAll fs).findings = r.findings ++ gs := by
  induction fs generalizing r with
  | nil => exact ⟨[], .slnil, (List.append_nil _).symm⟩
  | cons f fs ih =>
    obtain ⟨gs, hgs, he⟩ := ih (r.add f)
    rw [addAll_cons, he]
    by_cases hf : f.key ∈ r.keys
    · rw [add_of_known hf]
      exact ⟨gs, hgs.cons f, rfl⟩
    · rw [add_of_new hf]
      exact ⟨f :: gs, hgs.cons_cons f, List.append_assoc ..⟩

theorem findings_addAll (h : (r.findings ++ fs).map Finding.key |>.Nodup) :
    (r.addAll fs).findings = r.findings ++ fs := by
  induction fs generalizing r with
  | nil => simp [addAll]
  | cons f fs ih =>
    have hf : f.key ∉ r.keys := by
      rw [List.map_append, List.nodup_append] at h
      intro hm
      exact h.2.2 _ hm _ (by simp) rfl
    rw [addAll_cons, add_of_new hf, ih]
    · simp
    · simpa using h

theorem filter_add {p : Finding → Bool} (hp : ∀ f g, f.key = g.key → p f = p g) :
    (r.add f).findings.filter p =
      if p f then ((⟨r.findings.filter p⟩ : Report).add f).findings
      else r.findings.filter p := by
  by_cases hf : f.key ∈ r.keys
  · rw [add_of_known hf]
    split
    · rename_i hpf
      obtain ⟨g, hg, hk⟩ := List.mem_map.mp hf
      rw [add_of_known]
      exact List.mem_map.mpr ⟨g, List.mem_filter.mpr ⟨hg, hp g f hk ▸ hpf⟩, hk⟩
    · rfl
  · rw [add_of_new hf, List.filter_append]
    split
    · rename_i hpf
      rw [add_of_new]
      · simp [hpf]
      · intro hm
        obtain ⟨g, hg, hk⟩ := List.mem_map.mp hm
        exact hf (List.mem_map.mpr ⟨g, (List.mem_filter.mp hg).1, hk⟩)
    · rename_i hpf
      simp [hpf]

/-- A selection by keys sees only the findings that it selects. -/
theorem filter_addAll {p : Finding → Bool} (hp : ∀ f g, f.key = g.key → p f = p g) :
    (r.addAll fs).findings.filter p =
      ((⟨r.findings.filter p⟩ : Report).addAll (fs.filter p)).findings := by
  induction fs generalizing r with
  | nil => rfl
  | cons f fs ih =>
    rw [addAll_cons, ih, filter_add hp, List.filter_cons]
    split
    · rfl
    · rfl

theorem addAll_append : r.addAll (fs ++ gs) = (r.addAll fs).addAll gs := List.foldl_append

def dropped (r : Report) : List Finding → List Finding
  | [] => []
  | f :: fs => (if r.isNew f then [] else [f]) ++ (r.add f).dropped fs

theorem perm_dropped : ((r.addAll fs).findings ++ r.dropped fs).Perm (r.findings ++ fs) := by
  induction fs generalizing r with
  | nil => rfl
  | cons f fs ih =>
    rw [addAll_cons, dropped]
    split
    · rename_i hf
      have hadd : (r.add f).findings = r.findings ++ [f] :=
        congrArg findings (add_of_new (isNew_iff.mp hf))
      have h := ih (r := r.add f)
      rwa [hadd, List.append_assoc] at h
    · rename_i hf
      rw [add, if_neg hf]
      exact List.perm_middle.trans ((ih.cons f).trans List.perm_middle.symm)

/-- If the keys of some findings are all different and the others repeat them, so many findings
are dropped for each key as the others have of it. -/
theorem perm_keys_dropped {firsts others : List Finding} (hp : fs.Perm (firsts ++ others))
    (hfirsts : (firsts.map Finding.key).Nodup)
    (hothers : others.map Finding.key ⊆ firsts.map Finding.key) :
    ((empty.dropped fs).map Finding.key).Perm (others.map Finding.key) := by
  have hmem (k : FindingKey) : k ∈ (empty.addAll fs).keys ↔ k ∈ firsts.map Finding.key := by
    rw [mem_keys_addAll, (hp.map Finding.key).mem_iff, List.map_append, List.mem_append]
    simp only [keys, empty, List.map_nil, List.not_mem_nil, false_or]
    exact or_iff_left_of_imp fun h ↦ hothers h
  have hnodup : (empty.addAll fs).keys.Nodup := nodup_keys_addAll (r := empty) List.nodup_nil
  have hkept : (empty.addAll fs).keys.Perm (firsts.map Finding.key) :=
    (List.perm_ext_iff_of_nodup hnodup hfirsts).mpr hmem
  have hall : ((empty.addAll fs).findings ++ empty.dropped fs).Perm (firsts ++ others) :=
    perm_dropped.trans hp
  have hkeys := hall.map Finding.key
  rw [List.map_append, List.map_append] at hkeys
  exact (List.perm_append_left_iff _).mp ((hkept.symm.append_right _).trans hkeys)

def after (r old : Report) : Report := ⟨old.findings ++ r.findings⟩

theorem empty_after (old : Report) : empty.after old = old := by
  rw [after, empty, List.append_nil]

theorem keys_after : (r.after old).keys = old.keys ++ r.keys := List.map_append

theorem isNew_after (h : f.key ∉ old.keys) : (r.after old).isNew f = r.isNew f := by
  rw [Bool.eq_iff_iff, isNew_iff, isNew_iff, keys_after, List.mem_append, or_iff_right h]

theorem add_after (h : f.key ∉ old.keys) : (r.after old).add f = (r.add f).after old := by
  rw [add, add, isNew_after h]
  split
  · rw [after, after, List.append_assoc]
  · rfl

/-- Findings with other keys than the old report has do not know of it. -/
theorem addAll_after (h : ∀ f ∈ fs, f.key ∉ old.keys) :
    (r.after old).addAll fs = (r.addAll fs).after old := by
  induction fs generalizing r with
  | nil => rfl
  | cons f fs ih =>
    rw [addAll_cons, addAll_cons, add_after (h f List.mem_cons_self)]
    exact ih fun g hg ↦ h g (List.mem_cons_of_mem f hg)

section Map

variable {g : Finding → Finding}

/-- The two findings have equal keys exactly if their images have. -/
def KeepsKeys (g : Finding → Finding) (fs : List Finding) : Prop :=
  ∀ x ∈ fs, ∀ y ∈ fs, (g x).key = (g y).key ↔ x.key = y.key

theorem KeepsKeys.subset {gs : List Finding} (hg : KeepsKeys g gs) (hs : fs ⊆ gs) :
    KeepsKeys g fs := fun x hx y hy ↦ hg x (hs hx) y (hs hy)

theorem mem_keys_map (hg : KeepsKeys g (r.findings ++ [f])) :
    (g f).key ∈ (⟨r.findings.map g⟩ : Report).keys ↔ f.key ∈ r.keys := by
  have hkey (x : Finding) (hx : x ∈ r.findings) : (g x).key = (g f).key ↔ x.key = f.key :=
    hg x (List.mem_append_left _ hx) f (List.mem_append_right _ (List.mem_singleton_self f))
  simp only [keys, List.mem_map, List.map_map, Function.comp_apply]
  exact exists_congr fun x ↦ and_congr_right (hkey x)

theorem add_map (hg : KeepsKeys g (r.findings ++ [f])) :
    (⟨r.findings.map g⟩ : Report).add (g f) = ⟨(r.add f).findings.map g⟩ := by
  by_cases hf : f.key ∈ r.keys
  · rw [add_of_known hf, add_of_known ((mem_keys_map hg).mpr hf)]
  · rw [add_of_new hf, add_of_new (mt (mem_keys_map hg).mp hf), List.map_append]
    rfl

theorem findings_add_subset : (r.add f).findings ⊆ r.findings ++ [f] := by
  rw [add]
  split
  · exact List.Subset.refl _
  · exact List.subset_append_left _ _

/-- If the keys are told apart as before, the images of the findings that stay are those that
stay of the images. -/
theorem addAll_map (hg : KeepsKeys g (r.findings ++ fs)) :
    (⟨r.findings.map g⟩ : Report).addAll (fs.map g) = ⟨(r.addAll fs).findings.map g⟩ := by
  induction fs generalizing r with
  | nil => rfl
  | cons f fs ih =>
    rw [List.append_cons] at hg
    rw [List.map_cons, addAll_cons, addAll_cons, add_map (hg.subset (List.subset_append_left _ _))]
    refine ih (hg.subset fun x hx ↦ ?_)
    rcases List.mem_append.mp hx with hx | hx
    · exact List.mem_append_left _ (findings_add_subset hx)
    · exact List.mem_append_right _ hx

/-- If the findings that become something are told apart as before, what becomes of the findings
that stay are those that stay of what becomes of the findings. -/
theorem findings_addAll_filterMap {φ : Finding → Option Finding}
    (hsome : ∀ f f', f.key = f'.key → (φ f).isSome = (φ f').isSome)
    (hkeys : KeepsKeys (fun f ↦ (φ f).getD f) (fs.filter fun f ↦ (φ f).isSome)) :
    (empty.addAll (fs.filterMap φ)).findings = (empty.addAll fs).findings.filterMap φ := by
  have hsplit (l : List Finding) :
      l.filterMap φ = (l.filter fun f ↦ (φ f).isSome).map fun f ↦ (φ f).getD f := by
    induction l with
    | nil => rfl
    | cons f l ih =>
      rw [List.filterMap_cons, ih]
      cases hf : φ f with
      | none => simp [hf]
      | some g => simp [hf]
  have hmap := addAll_map (r := empty) hkeys
  rw [hsplit, hsplit, filter_addAll hsome]
  exact congrArg findings hmap

end Map

end AnyFlow.Report
