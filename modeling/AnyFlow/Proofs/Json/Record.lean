import AnyFlow.Json.Record
import AnyFlow.Proofs.Json.Value
import Mathlib.Data.List.Forall2
import Mathlib.Data.List.Nodup

namespace AnyFlow.Json

variable {α : Type} {depth : Nat}

theorem mapM_eq_some_iff {β : Type} {f : β → Option α} {xs : List β} {ys : List α} :
    xs.mapM f = some ys ↔ List.Forall₂ (fun x y ↦ f x = some y) xs ys := by
  induction xs generalizing ys with
  | nil =>
    rw [List.mapM_nil, List.forall₂_nil_left_iff]
    exact ⟨fun h ↦ (Option.some.inj h).symm, fun h ↦ congrArg some h.symm⟩
  | cons x xs ih =>
    rw [List.mapM_cons, List.forall₂_cons_left_iff]
    simp only [Option.bind_eq_bind, Option.bind_eq_some_iff, ih]
    constructor
    · rintro ⟨y, hy, zs, hzs, he⟩
      exact ⟨y, zs, hy, hzs, (Option.some.inj he).symm⟩
    · rintro ⟨y, zs, hy, hzs, rfl⟩
      exact ⟨y, hy, zs, hzs, rfl⟩

theorem mapM_eq_of_forall₂ {β γ : Type} {f : β → Option α} {g : γ → Option α} {xs : List β}
    {ys : List γ} (h : List.Forall₂ (fun x y ↦ f x = g y) xs ys) : xs.mapM f = ys.mapM g := by
  induction h with
  | nil => rfl
  | cons hxy _ ih => rw [List.mapM_cons, List.mapM_cons, hxy, ih]

theorem mapM_ite {β : Type} {xs : List β} {f : β → Option α} {P : β → Prop} [DecidablePred P] :
    (xs.mapM fun x ↦ if P x then f x else none) = if ∀ x ∈ xs, P x then xs.mapM f else none := by
  induction xs with
  | nil => rfl
  | cons x xs ih =>
    rw [List.mapM_cons, List.mapM_cons, ih]
    simp only [List.forall_mem_cons]
    by_cases hP : P x
    · rw [if_pos hP]
      by_cases hall : ∀ y ∈ xs, P y
      · rw [if_pos hall, if_pos ⟨hP, hall⟩]
      · rw [if_neg hall, if_neg (not_and_of_not_right _ hall)]
        cases f x <;> rfl
    · rw [if_neg hP, if_neg (not_and_of_not_left _ hP)]
      rfl

theorem mapM_map_eq_ite {β γ : Type} {xs : List α} {write : α → β} {read : β → Option γ}
    {g : α → γ} {P : α → Prop} [DecidablePred P]
    (h : ∀ x ∈ xs, read (write x) = if P x then some (g x) else none) :
    (xs.map write).mapM read = if ∀ x ∈ xs, P x then some (xs.map g) else none := by
  have hread : (xs.map write).mapM read = xs.mapM fun x ↦ if P x then some (g x) else none :=
    mapM_eq_of_forall₂ (List.forall₂_map_left_iff.mpr (List.forall₂_same.mpr h))
  have hmap : (xs.mapM fun x ↦ some (g x)) = some (xs.map g) := List.mapM_pure
  rw [hread, mapM_ite, hmap]

theorem mapM_map_eq_some_iff {β : Type} {xs : List α} {write : α → β} {read : β → Option α} :
    (xs.map write).mapM read = some xs ↔ ∀ x ∈ xs, read (write x) = some x := by
  rw [mapM_eq_some_iff, List.forall₂_map_left_iff, List.forall₂_same]

namespace Document

theorem nestingItems_le_iff {ds : List Document} :
    nestingItems ds ≤ depth ↔ ∀ d ∈ ds, d.nesting ≤ depth := by
  induction ds with
  | nil => simp [nestingItems]
  | cons d ds ih => rw [nestingItems, Nat.max_le, ih, List.forall_mem_cons]

theorem nestingMembers_le_iff {ms : List (Quoted × Document)} :
    nestingMembers ms ≤ depth ↔ ∀ m ∈ ms, m.2.nesting ≤ depth := by
  induction ms with
  | nil => simp [nestingMembers]
  | cons m ms ih => rw [nestingMembers, Nat.max_le, ih, List.forall_mem_cons]

theorem fits_iff {d : Document} :
    d.fits depth ↔ d.nesting ≤ depth ∧ ∃ v, Value.ofDocument? d = some v := by
  rw [fits, Bool.and_eq_true, decide_eq_true_iff, Option.isSome_iff_exists]

theorem fits_ofText (s : String) : (ofText s).fits depth :=
  fits_iff.mpr ⟨Nat.zero_le _, .text s, by
    rw [ofText, Value.ofDocument?, Quoted.text?_ofText, Option.map_some]⟩

theorem fits_bool (b : Bool) : (bool b).fits depth := fits_iff.mpr ⟨Nat.zero_le _, .bool b, rfl⟩

theorem fits_float {x : Binary64} (h : x.ReadsBack) : (numeral (.ofFloat x)).fits depth := by
  have hvalue : Number.ofNumeral? (.ofFloat x) = some (.float x) := h
  refine fits_iff.mpr ⟨Nat.zero_le _, .number (.float x), ?_⟩
  rw [Value.ofDocument?, hvalue, Option.map_some]

theorem exists_ofItems? {ds : List Document} (h : ∀ d ∈ ds, d.fits depth) :
    ∃ vs, Value.ofItems? ds = some vs := by
  induction ds with
  | nil => exact ⟨[], rfl⟩
  | cons d ds ih =>
    obtain ⟨hd, hds⟩ := List.forall_mem_cons.mp h
    obtain ⟨v, hv⟩ := (fits_iff.mp hd).2
    obtain ⟨vs, hvs⟩ := ih hds
    refine ⟨v :: vs, ?_⟩
    rw [Value.ofItems?, hv, hvs]
    rfl

theorem exists_ofMembers? {ms : List (Quoted × Document)}
    (h : ∀ m ∈ ms, (∃ k, m.1.text? = some k) ∧ m.2.fits depth) :
    ∃ vs, Value.ofMembers? ms = some vs := by
  induction ms with
  | nil => exact ⟨[], rfl⟩
  | cons m ms ih =>
    obtain ⟨⟨⟨k, hk⟩, hm⟩, hms⟩ := List.forall_mem_cons.mp h
    obtain ⟨v, hv⟩ := (fits_iff.mp hm).2
    obtain ⟨vs, hvs⟩ := ih hms
    refine ⟨(k, v) :: vs, ?_⟩
    rw [Value.ofMembers?, hk, hv, hvs]
    rfl

theorem fits_array {ds : List Document} (h : ∀ d ∈ ds, d.fits depth) :
    (array ds).fits (depth + 1) := by
  obtain ⟨vs, hvs⟩ := exists_ofItems? h
  have hdepth : nestingItems ds ≤ depth :=
    nestingItems_le_iff.mpr fun d hd ↦ (fits_iff.mp (h d hd)).1
  refine fits_iff.mpr ⟨Nat.succ_le_succ hdepth, .array vs, ?_⟩
  rw [Value.ofDocument?, hvs, Option.map_some]

theorem fits_object {ms : List (Quoted × Document)}
    (h : ∀ m ∈ ms, (∃ k, m.1.text? = some k) ∧ m.2.fits depth) :
    (object ms).fits (depth + 1) := by
  obtain ⟨vs, hvs⟩ := exists_ofMembers? h
  have hdepth : nestingMembers ms ≤ depth :=
    nestingMembers_le_iff.mpr fun m hm ↦ (fits_iff.mp (h m hm).2).1
  refine fits_iff.mpr ⟨Nat.succ_le_succ hdepth, .object (Entries.ofList vs), ?_⟩
  rw [Value.ofDocument?, hvs, Option.map_some]

theorem forall_of_ofItems? {ds : List Document} {vs : List Value}
    (h : Value.ofItems? ds = some vs) : ∀ d ∈ ds, ∃ v, Value.ofDocument? d = some v := by
  induction ds generalizing vs with
  | nil => exact nofun
  | cons d ds ih =>
    simp only [Value.ofItems?, Option.bind_eq_bind, Option.bind_eq_some_iff] at h
    obtain ⟨v, hv, us, hus, -⟩ := h
    exact List.forall_mem_cons.mpr ⟨⟨v, hv⟩, ih hus⟩

theorem forall_of_ofMembers? {ms : List (Quoted × Document)} {vs : List (String × Value)}
    (h : Value.ofMembers? ms = some vs) :
    ∀ m ∈ ms, (∃ k, m.1.text? = some k) ∧ ∃ v, Value.ofDocument? m.2 = some v := by
  induction ms generalizing vs with
  | nil => exact nofun
  | cons m ms ih =>
    simp only [Value.ofMembers?, Option.bind_eq_bind, Option.bind_eq_some_iff] at h
    obtain ⟨k, hk, v, hv, us, hus, -⟩ := h
    exact List.forall_mem_cons.mpr ⟨⟨⟨k, hk⟩, v, hv⟩, ih hus⟩

theorem fits_array_iff {ds : List Document} :
    (array ds).fits (depth + 1) ↔ ∀ d ∈ ds, d.fits depth := by
  refine ⟨fun h d hd ↦ ?_, fits_array⟩
  obtain ⟨hdepth, v, hv⟩ := fits_iff.mp h
  obtain ⟨vs, hvs, -⟩ := Option.map_eq_some_iff.mp hv
  exact fits_iff.mpr ⟨nestingItems_le_iff.mp (Nat.le_of_succ_le_succ hdepth) d hd,
    forall_of_ofItems? hvs d hd⟩

theorem fits_object_iff {ms : List (Quoted × Document)} :
    (object ms).fits (depth + 1) ↔
      ∀ m ∈ ms, (∃ k, m.1.text? = some k) ∧ m.2.fits depth := by
  refine ⟨fun h m hm ↦ ?_, fits_object⟩
  obtain ⟨hdepth, v, hv⟩ := fits_iff.mp h
  obtain ⟨vs, hvs, -⟩ := Option.map_eq_some_iff.mp hv
  obtain ⟨hk, hvalue⟩ := forall_of_ofMembers? hvs m hm
  have hnesting := nestingMembers_le_iff.mp (Nat.le_of_succ_le_succ hdepth) m hm
  exact ⟨hk, fits_iff.mpr ⟨hnesting, hvalue⟩⟩

theorem fits_record_iff {members : List (String × Document)} :
    (record members).fits (depth + 1) ↔ ∀ m ∈ members, m.2.fits depth := by
  rw [record, fits_object_iff, List.forall_mem_map]
  exact forall₂_congr fun m _ ↦ and_iff_right ⟨m.1, Quoted.text?_ofText m.1⟩

theorem fits_record {members : List (String × Document)} (h : ∀ m ∈ members, m.2.fits depth) :
    (record members).fits (depth + 1) :=
  fits_object (List.forall_mem_map.mpr fun m hm ↦ ⟨⟨m.1, Quoted.text?_ofText m.1⟩, h m hm⟩)

end Document

namespace Decoder

theorem nat_ofNat {n : Nat} (h : n < UInt64.size) : nat depth (.ofNat n) = some n := by
  have hsome : (Numeral.ofNat n).nat? = some n := rfl
  rw [Document.ofNat, nat, hsome]
  exact Option.filter_some_pos (decide_eq_true h)

theorem text_ofText (s : String) : text depth (.ofText s) = some s := Quoted.text?_ofText s

theorem keyword_word [Keyword α] (a : α) : keyword depth (.ofText (Keyword.word a)) = some a := by
  rw [Document.ofText, keyword, Quoted.text?_ofText, Option.bind_some, Keyword.ofWord?_word]

theorem innerKeyword_word [Keyword α] (a : α) :
    innerKeyword depth (.ofText (Keyword.word a)) = some a := by
  have hword : keyword depth (.ofText (Keyword.word a)) = some a := keyword_word a
  rw [← hword]
  cases depth <;> rfl

theorem optional_ofOption {read : Decoder α} {write : α → Document} {a : Option α}
    (h : ∀ x ∈ a, read depth (write x) = some x ∧ write x ≠ .null) :
    optional read depth (.ofOption write a) = some a := by
  cases a with
  | none => rfl
  | some x =>
    obtain ⟨hread, hne⟩ := h x rfl
    rw [Document.ofOption, optional, hread, Option.map_some]
    exact hne

theorem list_array {read : Decoder α} {write : α → Document} {xs : List α}
    (h : ∀ x ∈ xs, read depth (write x) = some x) :
    list read (depth + 1) (.array (xs.map write)) = some xs := mapM_map_eq_some_iff.mpr h

theorem members_record {κ : Type} {key : Quoted → Option κ} {read : Decoder α} {f : κ → String}
    {write : α → Document} {xs : List (κ × α)}
    (h : ∀ x ∈ xs, key (Quoted.ofText (f x.1)) = some x.1 ∧ read depth (write x.2) = some x.2) :
    members key read (depth + 1) (.record (xs.map fun x ↦ (f x.1, write x.2))) = some xs := by
  rw [Document.record, List.map_map, members]
  refine mapM_map_eq_some_iff.mpr fun x hx ↦ ?_
  obtain ⟨hkey, hread⟩ := h x hx
  simp only [Function.comp_apply, hkey, hread]
  rfl

theorem value_toDocument {v : Value} {f : Binary64 → Binary64} (h : v.Fits)
    (hx : ∀ x ∈ v.floats, x.ReadsAs (f x)) :
    value depth v.toDocument = if v.nesting ≤ depth then some (v.mapFloats f) else none := by
  rw [value, Value.nesting_toDocument, Value.ofDocument?_toDocument v h hx]

end Decoder

namespace Record

variable {fields : List String} {members : List (String × Document)} {k : String} {d : Document}

theorem mem_of_lookup {β : Type} {k : String} {b : β} {l : List (String × β)}
    (h : l.lookup k = some b) : (k, b) ∈ l := by
  obtain ⟨l₁, l₂, rfl, -⟩ := List.lookup_eq_some_iff.mp h
  exact List.mem_append_right l₁ List.mem_cons_self

theorem mapM_text? (members : List (String × Document)) :
    (members.map fun (k, d) ↦ (Quoted.ofText k, d)).mapM (fun (k, d) ↦ k.text?.map (·, d)) =
      some members := by
  induction members with
  | nil => rfl
  | cons m members ih =>
    rw [List.map_cons, List.mapM_cons, ih]
    simp only [Quoted.text?_ofText]
    rfl

theorem ofDocument?_record (h : (members.map Prod.fst).Nodup) :
    ofDocument? fields (depth + 1) (.record members) = some ⟨depth, member? members⟩ := by
  have hcount (k : String) : (members.countP fun m ↦ m.1 == k) ≤ 1 := by
    have hone := List.nodup_iff_count_le_one.mp h k
    rwa [List.count, List.countP_map] at hone
  rw [Document.record, ofDocument?, mapM_text?, Option.bind_eq_bind, Option.bind_some, if_pos]
  · rfl
  · exact List.all_eq_true.mpr fun k _ ↦ decide_eq_true (hcount k)

theorem required_member {read : Decoder α} (h : members.lookup k = some d) :
    required ⟨depth, member? members⟩ k read = read depth d := by
  simp only [required, member?, h]

theorem optional_member {read : Decoder α} (h : members.lookup k = some d) :
    Record.optional ⟨depth, member? members⟩ k read = read.optional depth d := by
  simp only [Record.optional, member?, h]

theorem withDefault_member {read : Decoder α} {a : α} (h : members.lookup k = some d) :
    withDefault ⟨depth, member? members⟩ k a read = read depth d := by
  simp only [withDefault, member?, h]

end Record

namespace Tagged

def isTag (m : Quoted × Document) : Bool := m.1.text? == some "type"

theorem ofDocument?_object (ms : List (Quoted × Document)) :
    ofDocument? (.object ms) = match ms.filter isTag with
      | [m] => some ⟨m.2, .object (ms.filter (not ∘ isTag))⟩
      | _ => none := by
  have hpart : ms.partition (fun m ↦ m.1.text? == some "type") =
    (ms.filter isTag, ms.filter (not ∘ isTag)) := List.partition_eq_filter_filter
  rw [ofDocument?, hpart]
  cases ms.filter isTag with
  | nil => rfl
  | cons m rest => cases rest <;> rfl

theorem ofDocument?_of_filter {members : List (String × Document)} {tag : Document}
    (h : members.filter (fun m ↦ m.1 == "type") = [("type", tag)]) :
    ofDocument? (.record members) =
      some ⟨tag, .record (members.filter fun m ↦ m.1 != "type")⟩ := by
  have htag : isTag ∘ (fun (k, d) ↦ (Quoted.ofText k, d)) = fun m ↦ m.1 == "type" := by
    funext m
    rw [Function.comp_apply, isTag, Quoted.text?_ofText, Option.some_beq_some]
  have hrest : (not ∘ isTag) ∘ (fun (k, d) ↦ (Quoted.ofText k, d)) = fun m ↦ m.1 != "type" := by
    funext m
    exact congrArg not (congrFun htag m)
  rw [Document.record, ofDocument?_object, List.filter_map, List.filter_map, htag, hrest, h]
  rfl

theorem filter_members {members : List (String × Document)} (tag : Document)
    (h : "type" ∉ members.map Prod.fst) :
    (("type", tag) :: members).filter (fun m ↦ m.1 == "type") = [("type", tag)] ∧
      (("type", tag) :: members).filter (fun m ↦ m.1 != "type") = members := by
  have hne : ∀ m ∈ members, m.1 ≠ "type" := fun m hm he ↦ h (he ▸ List.mem_map_of_mem hm)
  have hnone : members.filter (fun m ↦ m.1 == "type") = [] :=
    List.filter_eq_nil_iff.mpr fun m hm ↦ by simpa using hne m hm
  have hall : members.filter (fun m ↦ m.1 != "type") = members :=
    List.filter_eq_self.mpr fun m hm ↦ by simpa using hne m hm
  rw [List.filter_cons_of_pos rfl, hnone, List.filter_cons_of_neg (by simp), hall]
  exact ⟨rfl, rfl⟩

theorem ofDocument?_record {members : List (String × Document)} (tag : Document)
    (h : "type" ∉ members.map Prod.fst) :
    ofDocument? (.record (("type", tag) :: members)) = some ⟨tag, .record members⟩ := by
  obtain ⟨htag, hrest⟩ := filter_members tag h
  rw [ofDocument?_of_filter htag, hrest]

end Tagged

end AnyFlow.Json
