import Mathlib.Data.List.Induction
import AnyFlow.Dict

namespace AnyFlow

variable {κ α : Type} [LT κ] [DecidableLT κ] [LE κ] [Std.IsLinearOrder κ] [Std.LawfulOrderLT κ]

namespace Entries

theorem insert_of_forall_lt {k : κ} {a : α} {l : List (κ × α)} (h : ∀ x ∈ l, x.1 < k) :
    insert k a l = l ++ [(k, a)] := by
  induction l with
  | nil => rfl
  | cons x l ih =>
    obtain ⟨hx, hl⟩ := List.forall_mem_cons.mp h
    have hnot : ¬ k < x.1 := Std.not_lt.mpr (Std.le_of_lt hx)
    rw [insert, if_neg hnot, if_pos hx, ih hl, List.cons_append]

theorem ofList_of_ordered {l : List (κ × α)} (h : Ordered l) : ofList l = l := by
  have go (l acc : List (κ × α)) (h : Ordered (acc ++ l)) :
      l.foldl (fun acc x ↦ insert x.1 x.2 acc) acc = acc ++ l := by
    induction l generalizing acc with
    | nil => exact (List.append_nil acc).symm
    | cons x l ih =>
      rw [List.append_cons] at h
      have hlt : ∀ y ∈ acc, y.1 < x.1 := fun y hy ↦
        (List.pairwise_append.mp (List.pairwise_append.mp h).1).2.2 y hy x List.mem_cons_self
      rw [List.foldl_cons, insert_of_forall_lt hlt, ih _ h, ← List.append_cons]
  exact go l [] h

omit [LE κ] [Std.IsLinearOrder κ] [Std.LawfulOrderLT κ] in
theorem mem_of_mem_ofList {x : κ × α} {l : List (κ × α)} (h : x ∈ ofList l) : x ∈ l := by
  have go (l acc : List (κ × α))
      (h : x ∈ l.foldl (fun acc x ↦ insert x.1 x.2 acc) acc) : x ∈ acc ∨ x ∈ l := by
    induction l generalizing acc with
    | nil => exact .inl h
    | cons y l ih =>
      rcases ih _ h with h | h
      · rcases mem_of_mem_insert h with rfl | h
        · exact .inr List.mem_cons_self
        · exact .inl h
      · exact .inr (List.mem_cons_of_mem y h)
  exact (go l [] h).resolve_left List.not_mem_nil

section Lookup

variable [BEq κ] [LawfulBEq κ] {k k' : κ} {a : α} {l : List (κ × α)}

omit [Std.IsLinearOrder κ] in
theorem lookup_insert_self : (insert k a l).lookup k = some a := by
  induction l with
  | nil => exact List.lookup_cons_self
  | cons x l ih =>
    rw [insert]
    split
    · exact List.lookup_cons_self
    · split
      · rename_i hx
        have hne : k ≠ x.1 := fun he ↦ Std.lt_irrefl (he ▸ hx)
        rw [List.lookup_cons, beq_false_of_ne hne]
        exact ih
      · exact List.lookup_cons_self

theorem lookup_insert_of_ne (h : k' ≠ k) : (insert k a l).lookup k' = l.lookup k' := by
  induction l with
  | nil => rw [insert, List.lookup_cons, beq_false_of_ne h]
  | cons x l ih =>
    rw [insert]
    split
    · rw [List.lookup_cons, beq_false_of_ne h]
    · split
      · rw [List.lookup_cons, List.lookup_cons, ih]
      · rename_i hk hx
        have he : x.1 = k := Std.le_antisymm (Std.not_lt.mp hk) (Std.not_lt.mp hx)
        rw [List.lookup_cons, List.lookup_cons, he, beq_false_of_ne h]

theorem lookup_ofList : (ofList l).lookup k = l.reverse.lookup k := by
  induction l using List.reverseRecOn with
  | nil => rfl
  | append_singleton l x ih =>
    rw [ofList, List.foldl_append, ← ofList, List.foldl_cons, List.foldl_nil, List.reverse_concat,
      List.lookup_cons]
    by_cases he : k = x.1
    · rw [he, lookup_insert_self, beq_self_eq_true]
    · rw [lookup_insert_of_ne he, ih, beq_false_of_ne he]

omit [DecidableLT κ] [Std.IsLinearOrder κ] in
theorem Ordered.mem_iff_lookup (h : Ordered l) : (k, a) ∈ l ↔ l.lookup k = some a := by
  induction l with
  | nil => simp
  | cons x l ih =>
    obtain ⟨hx, hl⟩ := List.pairwise_cons.mp h
    rw [List.mem_cons, ih hl, List.lookup_cons]
    by_cases he : k = x.1
    · have hnone : l.lookup k = none := List.lookup_eq_none_iff.mpr fun y hy ↦
        bne_iff_ne.mpr fun hk ↦ Std.lt_irrefl (he ▸ hk ▸ hx y hy)
      rw [he, beq_self_eq_true]
      rw [he] at hnone
      simp [hnone, Prod.ext_iff, eq_comm]
    · rw [beq_false_of_ne he]
      exact or_iff_right fun hp ↦ he (congrArg Prod.fst hp)

omit [DecidableLT κ] in
theorem Ordered.eq_of_lookup {l' : List (κ × α)} (h : Ordered l) (h' : Ordered l')
    (he : ∀ k, l.lookup k = l'.lookup k) : l = l' := by
  have hnodup {m : List (κ × α)} (hm : Ordered m) : m.Nodup := by
    rw [Ordered] at hm
    refine hm.imp fun {x y} hlt ↦ ?_
    rintro rfl
    exact Std.lt_irrefl hlt
  have hmem (x : κ × α) : x ∈ l ↔ x ∈ l' := by
    rw [h.mem_iff_lookup, h'.mem_iff_lookup, he]
  exact ((List.perm_ext_iff_of_nodup (hnodup h) (hnodup h')).mpr hmem).eq_of_pairwise
    (fun x y _ _ hxy hyx ↦ absurd (Std.lt_trans hxy hyx) Std.lt_irrefl) h h'

end Lookup

end Entries

namespace Dict

theorem ofList_eq_foldl (l : List (κ × α)) :
    ofList l = l.foldl (fun d x ↦ d.insert x.1 x.2) empty := by
  have go (d : Dict κ α) (l : List (κ × α)) :
      (l.foldl (fun d x ↦ d.insert x.1 x.2) d).entries =
        l.foldl (fun acc x ↦ Entries.insert x.1 x.2 acc) d.entries := by
    induction l generalizing d with
    | nil => rfl
    | cons x l ih => exact ih (d.insert x.1 x.2)
  exact ext_entries (go empty l).symm

theorem ofList_entries (d : Dict κ α) : ofList d.entries = d :=
  ext_entries (Entries.ofList_of_ordered d.ordered)

variable [BEq κ] [LawfulBEq κ]

theorem get?_ofList {k : κ} {l : List (κ × α)} : (ofList l).get? k = l.reverse.lookup k :=
  Entries.lookup_ofList

omit [DecidableLT κ] in
theorem ext_get? {d d' : Dict κ α} (h : ∀ k, d.get? k = d'.get? k) : d = d' :=
  ext_entries (d.ordered.eq_of_lookup d'.ordered h)

end Dict

end AnyFlow
