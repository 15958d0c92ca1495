import AnyFlow.Proofs.Json.Record
import Mathlib.Data.List.Perm.Basic

namespace AnyFlow.Json

variable {α : Type} {depth : Nat}

/-- How a member may be written otherwise: with which values it may be left out, and what may
stand in the place of its value. -/
structure Leeway where
  omits : Document → Prop
  rewrites : Document → Document → Prop

namespace Leeway

def fixed : Leeway := ⟨fun _ ↦ False, Eq⟩

def omissible (d : Document) : Leeway := ⟨(· = d), Eq⟩

def nested (R : Document → Document → Prop) : Leeway := ⟨fun _ ↦ False, R⟩

end Leeway

namespace Document

inductive RewriteItems (R : Document → Document → Prop) : Document → Document → Prop
  | intro {ds es : List Document} (h : List.Forall₂ R ds es) :
    RewriteItems R (.array ds) (.array es)

inductive Reorder : Document → Document → Prop
  | intro {members others : List (String × Document)} (h : others.Perm members) :
    Reorder (.record members) (.record others)

inductive Kept (leeway : String → Leeway) :
    List (String × Document) → List (String × Document) → Prop
  | nil : Kept leeway [] []
  | leave {k : String} {d : Document} {members kept : List (String × Document)}
    (hd : (leeway k).omits d) (h : Kept leeway members kept) : Kept leeway ((k, d) :: members) kept
  | keep {k : String} {d e : Document} {members kept : List (String × Document)}
    (he : (leeway k).rewrites d e) (h : Kept leeway members kept) :
    Kept leeway ((k, d) :: members) ((k, e) :: kept)

/-- A record is rewritten with the members that are kept of it and with others, whose keys it does
not have, in any order. -/
inductive Rewrite (leeway : String → Leeway) : Document → Document → Prop
  | intro {members kept : List (String × Document)} {extra ms : List (Quoted × Document)}
    (hkept : Kept leeway members kept)
    (hextra : ∀ m ∈ extra, ∃ k, m.1.text? = some k ∧ k ∉ members.map Prod.fst)
    (hms : ms.Perm (kept.map (fun (k, d) ↦ (Quoted.ofText k, d)) ++ extra)) :
    Rewrite leeway (.record members) (.object ms)

theorem record_inj {members others : List (String × Document)} :
    record members = record others ↔ members = others := by
  have hkey {k l : String} (h : Quoted.ofText k = Quoted.ofText l) : k = l := by
    have htext := congrArg Quoted.text? h
    rw [Quoted.text?_ofText, Quoted.text?_ofText] at htext
    exact Option.some.inj htext
  have hmember : Function.Injective fun m : String × Document ↦ (Quoted.ofText m.1, m.2) := by
    intro m n h
    obtain ⟨hk, hd⟩ := Prod.mk.inj h
    exact Prod.ext (hkey hk) hd
  rw [record, record, object.injEq]
  exact (List.map_injective_iff.mpr hmember).eq_iff

variable {leeway : String → Leeway} {members kept : List (String × Document)} {k : String}
  {d : Document}

theorem Kept.sublist (h : Kept leeway members kept) :
    (kept.map Prod.fst).Sublist (members.map Prod.fst) := by
  induction h with
  | nil => exact .slnil
  | leave _ _ ih => exact ih.cons _
  | keep _ _ ih => exact ih.cons_cons _

theorem Kept.exists_or (h : Kept leeway members kept) (hn : (members.map Prod.fst).Nodup)
    (hm : (k, d) ∈ members) :
    (∃ e, (k, e) ∈ kept ∧ (leeway k).rewrites d e) ∨
      (leeway k).omits d ∧ k ∉ kept.map Prod.fst := by
  induction h with
  | nil => cases hm
  | leave hd h ih =>
    obtain ⟨hfresh, hn⟩ := List.nodup_cons.mp hn
    rcases List.mem_cons.mp hm with he | hrest
    · cases he
      exact .inr ⟨hd, fun hk ↦ hfresh (h.sublist.subset hk)⟩
    · exact ih hn hrest
  | keep he h ih =>
    obtain ⟨hfresh, hn⟩ := List.nodup_cons.mp hn
    rcases List.mem_cons.mp hm with heq | hrest
    · cases heq
      exact .inl ⟨_, List.mem_cons_self, he⟩
    · refine (ih hn hrest).imp (fun ⟨e, hmem, he⟩ ↦ ⟨e, List.mem_cons_of_mem _ hmem, he⟩) ?_
      rintro ⟨hd, hk⟩
      refine ⟨hd, fun hcons ↦ ?_⟩
      rcases List.mem_cons.mp hcons with rfl | hcons
      · exact hfresh (List.mem_map.mpr ⟨(k, d), hrest, rfl⟩)
      · exact hk hcons

end Document

namespace Record

open Document

variable {leeway : String → Leeway} {members : List (String × Document)} {k : String}
  {d : Document}

theorem lookup_of_mem (h : (k, d) ∈ members) (hk : (members.map Prod.fst).count k ≤ 1) :
    members.lookup k = some d := by
  obtain ⟨l₁, l₂, rfl⟩ := List.append_of_mem h
  rw [List.map_append, List.map_cons, List.count_append, List.count_cons_self] at hk
  have hbefore : k ∉ l₁.map Prod.fst := List.count_eq_zero.mp (by omega)
  refine List.lookup_eq_some_iff.mpr ⟨l₁, l₂, rfl, fun m hm ↦ bne_iff_ne.mpr ?_⟩
  rintro rfl
  exact hbefore (List.mem_map_of_mem hm)

theorem lookup_of_notMem (h : k ∉ members.map Prod.fst) : members.lookup k = none := by
  refine List.lookup_eq_none_iff.mpr fun m hm ↦ bne_iff_ne.mpr ?_
  rintro rfl
  exact h (List.mem_map_of_mem hm)

/-- What the slot of a member holds: its value, as far as the leeway goes. -/
def Holds (l : Leeway) (d : Document) (s : Slot) : Prop :=
  (∃ e, s = .given e ∧ l.rewrites d e) ∨ s = .omitted ∧ l.omits d

theorem exists_names {fields : List String} {extra : List (Quoted × Document)}
    (h : ∀ m ∈ extra, ∃ k, m.1.text? = some k ∧ k ∉ fields) :
    ∃ others : List (String × Document),
      List.Forall₂ (fun m n ↦ m.1.text?.map (·, m.2) = some n) extra others ∧
      fields.Disjoint (others.map Prod.fst) := by
  induction extra with
  | nil => exact ⟨[], .nil, List.disjoint_nil_right _⟩
  | cons m extra ih =>
    obtain ⟨⟨k, hk, hfresh⟩, hextra⟩ := List.forall_mem_cons.mp h
    obtain ⟨others, hothers, hdisjoint⟩ := ih hextra
    refine ⟨(k, m.2) :: others, .cons ?_ hothers, List.disjoint_cons_right.mpr ⟨hfresh, hdisjoint⟩⟩
    rw [hk, Option.map_some]

theorem exists_named {fields : List String} {kept : List (String × Document)}
    {extra ms : List (Quoted × Document)}
    (hextra : ∀ m ∈ extra, ∃ k, m.1.text? = some k ∧ k ∉ fields)
    (hms : ms.Perm (kept.map (fun (k, d) ↦ (Quoted.ofText k, d)) ++ extra)) :
    ∃ named others, ms.mapM (fun (k, d) ↦ k.text?.map (·, d)) = some named ∧
      named.Perm (kept ++ others) ∧ fields.Disjoint (others.map Prod.fst) := by
  obtain ⟨others, hothers, hdisjoint⟩ := exists_names hextra
  have hself : List.Forall₂ (fun m n ↦ m.1.text?.map (·, m.2) = some n)
      (kept.map fun (k, d) ↦ (Quoted.ofText k, d)) kept := mapM_eq_some_iff.mp (mapM_text? kept)
  obtain ⟨named, hnamed, hperm⟩ := List.perm_comp_forall₂ hms (List.rel_append hself hothers)
  exact ⟨named, others, mapM_eq_some_iff.mpr hnamed, hperm, hdisjoint⟩

section Kept

variable {kept named others : List (String × Document)}

theorem count_named (hkept : Kept leeway members kept) (hn : (members.map Prod.fst).Nodup)
    (hperm : named.Perm (kept ++ others))
    (hdisjoint : (members.map Prod.fst).Disjoint (others.map Prod.fst))
    (hk : k ∈ members.map Prod.fst) : (named.map Prod.fst).count k ≤ 1 := by
  rw [(hperm.map Prod.fst).count_eq, List.map_append, List.count_append,
    List.count_eq_zero.mpr (hdisjoint hk)]
  exact List.nodup_iff_count_le_one.mp (hkept.sublist.nodup hn) k

theorem holds_named (hkept : Kept leeway members kept) (hn : (members.map Prod.fst).Nodup)
    (hperm : named.Perm (kept ++ others))
    (hdisjoint : (members.map Prod.fst).Disjoint (others.map Prod.fst))
    (h : members.lookup k = some d) : Holds (leeway k) d (member? named k) := by
  have hm : (k, d) ∈ members := mem_of_lookup h
  have hk : k ∈ members.map Prod.fst := List.mem_map_of_mem hm
  rcases hkept.exists_or hn hm with ⟨e, he, hrewrites⟩ | ⟨homits, hgone⟩
  · have hmem : (k, e) ∈ named := hperm.mem_iff.mpr (List.mem_append_left _ he)
    have hlookup := lookup_of_mem hmem (count_named hkept hn hperm hdisjoint hk)
    exact .inl ⟨e, by rw [member?, hlookup], hrewrites⟩
  · have hnone : k ∉ named.map Prod.fst := by
      rw [(hperm.map Prod.fst).mem_iff, List.map_append, List.mem_append, not_or]
      exact ⟨hgone, hdisjoint hk⟩
    exact .inr ⟨by rw [member?, lookup_of_notMem hnone], homits⟩

end Kept

/-- A rewritten record is a record, and each field holds its value with its leeway. -/
theorem exists_slot_of_rewrite (fields : List String) (depth : Nat) {e : Document}
    (h : Rewrite leeway (.record members) e) (hfields : members.map Prod.fst = fields)
    (hn : fields.Nodup) :
    ∃ slot, ofDocument? fields (depth + 1) e = some ⟨depth, slot⟩ ∧
      ∀ k d, members.lookup k = some d → Holds (leeway k) d (slot k) := by
  subst hfields
  generalize hd : Document.record members = d at h
  obtain @⟨members', kept, extra, ms, hkept, hextra, hms⟩ := h
  cases record_inj.mp hd
  obtain ⟨named, others, hnamed, hperm, hdisjoint⟩ := exists_named hextra hms
  refine ⟨member? named, ?_, fun k d h ↦ holds_named hkept hn hperm hdisjoint h⟩
  rw [ofDocument?, hnamed, Option.bind_eq_bind, Option.bind_some, if_pos]
  · rfl
  · refine List.all_eq_true.mpr fun k hk ↦ decide_eq_true ?_
    have hone := count_named hkept hn hperm hdisjoint hk
    rwa [List.count, List.countP_map] at hone

section Holds

variable {slot : String → Slot} {read : Decoder α} {l : Leeway}

theorem required_of_holds (h : Holds l d (slot k))
    (hread : ∀ e, l.rewrites d e → read depth e = read depth d) (homits : ¬ l.omits d) :
    required ⟨depth, slot⟩ k read = read depth d := by
  rcases h with ⟨e, hk, he⟩ | ⟨-, hd⟩
  · simp only [required, hk, hread e he]
  · exact absurd hd homits

theorem withDefault_of_holds {a : α} (h : Holds l d (slot k))
    (hread : ∀ e, l.rewrites d e → read depth e = read depth d)
    (homits : l.omits d → read depth d = some a) :
    withDefault ⟨depth, slot⟩ k a read = read depth d := by
  rcases h with ⟨e, hk, he⟩ | ⟨hk, hd⟩
  · simp only [withDefault, hk, hread e he]
  · simp only [withDefault, hk, homits hd]

theorem required_fixed (h : Holds .fixed d (slot k)) :
    required ⟨depth, slot⟩ k read = read depth d :=
  required_of_holds h (fun _ he ↦ congrArg (read depth) he.symm) id

theorem withDefault_omissible {a : α} {e : Document} (h : Holds (.omissible e) d (slot k))
    (ha : read depth e = some a) : withDefault ⟨depth, slot⟩ k a read = read depth d :=
  withDefault_of_holds h (fun _ he ↦ congrArg (read depth) he.symm) fun hd ↦ by rw [hd, ha]

theorem optional_omissible (h : Holds (.omissible .null) d (slot k)) :
    Record.optional ⟨depth, slot⟩ k read = read.optional depth d := by
  rcases h with ⟨e, hk, rfl⟩ | ⟨hk, rfl⟩
  · simp only [Record.optional, hk]
  · simp only [Record.optional, hk]
    rfl

end Holds

theorem ofDocument?_reorder {fields : List String} {others : List (String × Document)}
    (h : others.Perm members) (hn : (members.map Prod.fst).Nodup) :
    ofDocument? fields (depth + 1) (.record others) =
      ofDocument? fields (depth + 1) (.record members) := by
  have hn' : (others.map Prod.fst).Nodup := (h.map Prod.fst).nodup_iff.mpr hn
  have hslot : member? others = member? members := by
    funext k
    by_cases hk : k ∈ members.map Prod.fst
    · obtain ⟨⟨k, d⟩, hm, rfl⟩ := List.mem_map.mp hk
      rw [member?, member?, lookup_of_mem hm (List.nodup_iff_count_le_one.mp hn k),
        lookup_of_mem (h.mem_iff.mpr hm) (List.nodup_iff_count_le_one.mp hn' k)]
    · rw [member?, member?, lookup_of_notMem hk,
        lookup_of_notMem (mt (h.map Prod.fst).mem_iff.mp hk)]
  rw [ofDocument?_record hn', ofDocument?_record hn, hslot]

end Record

namespace Tagged

variable {members others : List (String × Document)} {tag : Document}

theorem ofDocument?_reorder (h : others.Perm (("type", tag) :: members))
    (hfresh : "type" ∉ members.map Prod.fst) :
    ∃ rest, rest.Perm members ∧ ofDocument? (.record others) = some ⟨tag, .record rest⟩ := by
  obtain ⟨htag, hrest⟩ := filter_members tag hfresh
  have hone := h.filter fun m ↦ m.1 == "type"
  have hothers := h.filter fun m ↦ m.1 != "type"
  rw [htag] at hone
  rw [hrest] at hothers
  exact ⟨_, hothers, ofDocument?_of_filter (List.perm_singleton.mp hone)⟩

end Tagged

end AnyFlow.Json
