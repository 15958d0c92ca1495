import AnyFlow.Proofs.TypeDump

namespace AnyFlow

open Json

variable {α : Type} {depth : Nat}

namespace Json

namespace Record

variable {fields : List String} {d : Document} {r : Record}

theorem map_snd_of_mapM {ms : List (Quoted × Document)} {members : List (String × Document)}
    (h : ms.mapM (fun (k, d) ↦ k.text?.map (·, d)) = some members) :
    members.map Prod.snd = ms.map Prod.snd := by
  replace h := mapM_eq_some_iff.mp h
  induction h with
  | nil => rfl
  | cons hm _ ih =>
    obtain ⟨k, -, rfl⟩ := Option.map_eq_some_iff.mp hm
    rw [List.map_cons, List.map_cons, ih]

theorem exists_slot (h : ofDocument? fields (depth + 1) d = some r)
    (hd : d.nesting ≤ depth + 1) :
    ∃ slot, r = ⟨depth, slot⟩ ∧ ∀ k e, slot k = .given e → e.nesting ≤ depth := by
  cases d with
  | object ms =>
    simp only [ofDocument?, Option.bind_eq_bind, Option.bind_eq_some_iff] at h
    obtain ⟨members, hmembers, h⟩ := h
    split at h
    · cases h
      refine ⟨_, rfl, fun k e he ↦ ?_⟩
      rw [member?] at he
      split at he
      · rename_i hx
        cases he
        have hmem := List.mem_map_of_mem (f := Prod.snd) (mem_of_lookup hx)
        rw [map_snd_of_mapM hmembers] at hmem
        obtain ⟨m, hm, rfl⟩ := List.mem_map.mp hmem
        exact Document.nestingMembers_le_iff.mp (Nat.le_of_succ_le_succ hd) m hm
      · cases he
    · cases h
  | array items =>
    rw [ofDocument?] at h
    split at h
    · cases h
      refine ⟨_, rfl, fun k e he ↦ ?_⟩
      rw [item?] at he
      split at he
      · rename_i hx
        cases he
        have hmem := (List.of_mem_zip (mem_of_lookup hx)).2
        exact Document.nestingItems_le_iff.mp (Nat.le_of_succ_le_succ hd) e hmem
      · cases he
    · cases h
  | _ => cases h

theorem ofDocument?_succ (fields : List String) (depth : Nat) (d : Document) :
    ofDocument? fields (depth + 2) d =
      (ofDocument? fields (depth + 1) d).map fun r ↦ ⟨depth + 1, r.slot⟩ := by
  cases d with
  | object ms =>
    simp only [ofDocument?]
    cases ms.mapM fun (k, d) ↦ k.text?.map (·, d) with
    | none => rfl
    | some members =>
      simp only [Option.bind_eq_bind, Option.bind_some]
      split <;> rfl
  | array items =>
    simp only [ofDocument?]
    split <;> rfl
  | _ => rfl

end Record

namespace Decoder

/-- The decoders read the same where at most `depth` containers nest, the second one with one
more to open. -/
def Agree (depth : Nat) (read read' : Decoder α) : Prop :=
  ∀ d : Document, d.nesting ≤ depth → read' (depth + 1) d = read depth d

theorem agree_text : Agree depth text text := by
  intro d _
  cases d <;> rfl

theorem agree_bool : Agree depth bool bool := by
  intro d _
  cases d <;> rfl

theorem agree_list {f g : Document → Option α} (h : ∀ d : Document, d.nesting < depth → g d = f d) :
    Agree depth (list fun _ d ↦ f d) (list fun _ d ↦ g d) := by
  intro d hd
  cases d with
  | array items =>
    obtain ⟨depth, rfl⟩ : ∃ k, depth = k + 1 := ⟨depth - 1, by rw [Document.nesting] at hd; omega⟩
    have hitems := Document.nestingItems_le_iff.mp (Nat.le_of_succ_le_succ hd)
    refine mapM_eq_of_forall₂ (List.forall₂_same.mpr fun d hd ↦ ?_)
    exact h d (Nat.lt_succ_of_le (hitems d hd))
  | _ => cases depth <;> rfl

end Decoder

namespace Record

variable {read read' : Decoder α} {slot : String → Slot}

theorem required_deeper (k : String) (h : read.Agree depth read')
    (hslot : ∀ e, slot k = .given e → e.nesting ≤ depth) :
    required ⟨depth + 1, slot⟩ k read' = required ⟨depth, slot⟩ k read := by
  simp only [required]
  cases he : slot k with
  | given e => exact h e (hslot e he)
  | _ => rfl

theorem withDefault_deeper (k : String) (a : α) (h : read.Agree depth read')
    (hslot : ∀ e, slot k = .given e → e.nesting ≤ depth) :
    withDefault ⟨depth + 1, slot⟩ k a read' = withDefault ⟨depth, slot⟩ k a read := by
  simp only [withDefault]
  cases he : slot k with
  | given e => exact h e (hslot e he)
  | _ => rfl

theorem bind_deeper {β : Type} {f g : Record → Option β} (hd : d.nesting ≤ depth + 1)
    (h : ∀ slot, (∀ k e, slot k = .given e → e.nesting ≤ depth) →
      g ⟨depth + 1, slot⟩ = f ⟨depth, slot⟩) :
    (ofDocument? fields (depth + 2) d).bind g = (ofDocument? fields (depth + 1) d).bind f := by
  rw [ofDocument?_succ]
  cases hr : ofDocument? fields (depth + 1) d with
  | none => rfl
  | some r =>
    obtain ⟨slot, rfl, hslot⟩ := exists_slot hr hd
    exact h slot hslot

end Record

namespace Tagged

theorem nesting_content {d : Document} {t : Tagged} (h : ofDocument? d = some t) :
    t.content.nesting ≤ d.nesting := by
  cases d with
  | object ms =>
    rw [ofDocument?_object] at h
    split at h
    · cases h
      refine Nat.succ_le_succ (Document.nestingMembers_le_iff.mpr fun m hm ↦ ?_)
      exact Document.nestingMembers_le_iff.mp (Nat.le_refl _) m (List.mem_of_mem_filter hm)
    · cases h
  | array items =>
    cases items with
    | nil => cases h
    | cons tag rest =>
      cases h
      exact Nat.succ_le_succ (Nat.le_max_right _ _)
  | _ => cases h

end Tagged

end Json

namespace Ty

variable {f g : Document → Option Ty} {d : Document}

theorem ofContent?_deeper (h : ∀ d : Document, d.nesting ≤ depth → g d = f d) (tag : String)
    (hd : d.nesting ≤ depth + 1) :
    ofContent? (fun _ d ↦ g d) tag (depth + 2) d =
      ofContent? (fun _ d ↦ f d) tag (depth + 1) d := by
  have hfloat : Decoder.Agree depth decodeFloat decodeFloat := fun d _ ↦ by cases d <;> rfl
  have htype : Decoder.Agree depth (fun _ d ↦ f d) (fun _ d ↦ g d) := h
  have htypes : Decoder.Agree depth (Decoder.list fun _ d ↦ f d) (Decoder.list fun _ d ↦ g d) :=
    Decoder.agree_list fun d hd ↦ h d (Nat.le_of_lt hd)
  have htext {field : String} {f : String → Ty} :
      ((Record.ofDocument? [field] (depth + 2) d).bind fun r ↦
        (r.required field Decoder.text).bind fun s ↦ some (f s)) =
      (Record.ofDocument? [field] (depth + 1) d).bind fun r ↦
        (r.required field Decoder.text).bind fun s ↦ some (f s) :=
    Record.bind_deeper hd fun slot hslot ↦ by
      rw [Record.required_deeper _ Decoder.agree_text (hslot _)]
  unfold ofContent?
  split
  · exact Record.bind_deeper hd fun slot hslot ↦ by
      rw [Record.required_deeper _ hfloat (hslot _)]
  split
  · exact htext
  split
  · exact htext
  split
  · exact Record.bind_deeper hd fun slot hslot ↦ by
      rw [Record.required_deeper _ htype (hslot _),
        Record.withDefault_deeper _ _ Decoder.agree_bool (hslot _)]
  split
  · exact Record.bind_deeper hd fun slot hslot ↦ by
      rw [Record.required_deeper _ htypes (hslot _)]
  split
  · exact htext
  · exact Record.bind_deeper hd fun _ _ ↦ rfl

theorem ofTagged?_succ (inner : Bool) (hd : d.nesting ≤ depth) :
    ofTagged? inner (depth + 1) d = ofTagged? inner depth d := by
  induction depth generalizing inner d with
  | zero =>
    cases d with
    | array items => exact absurd hd (Nat.not_succ_le_zero _)
    | object ms => exact absurd hd (Nat.not_succ_le_zero _)
    | _ => rfl
  | succ depth ih =>
    rw [ofTagged?, ofTagged?]
    cases ht : Tagged.ofDocument? d with
    | none => rfl
    | some t =>
      have hcontent := Nat.le_trans (Tagged.nesting_content ht) hd
      simp only [Option.bind_eq_bind, Option.bind_some]
      exact Option.bind_congr fun tag _ ↦
        ofContent?_deeper (fun e he ↦ ih true he) tag hcontent

/-- The tag as a word, if it is the number of one. -/
def spelled : Document → Document
  | .numeral n => match n.nat?.bind fun i ↦ tags[i]? with
    | some tag => .ofText tag
    | none => .numeral n
  | d => d

def spellMember (m : Quoted × Document) : Quoted × Document :=
  if Tagged.isTag m then (m.1, spelled m.2) else m

/-- The document of a type with the tag of the type as a word. The types inside it stay as they
are. -/
def spellTag : Document → Document
  | .object ms => .object (ms.map spellMember)
  | .array (tag :: rest) => .array (spelled tag :: rest)
  | d => d

def HasNumberedTag (d : Document) : Prop := ∃ n t, Tagged.ofDocument? d = some ⟨.numeral n, t⟩

theorem decodeTag_spelled (d : Document) : decodeTag false (spelled d) = decodeTag true d := by
  cases d with
  | numeral n =>
    rw [spelled, decodeTag, if_pos rfl]
    split
    · rename_i tag htag
      rw [decodeTag_ofText, htag]
    · rename_i hnone
      exact hnone.symm
  | _ => rfl

theorem spelled_of_not_numeral (h : ∀ n, d ≠ .numeral n) : spelled d = d := by
  cases d with
  | numeral n => exact absurd rfl (h n)
  | _ => rfl

theorem fits_spelled : (spelled d).fits depth ↔ d.fits depth := by
  cases d with
  | numeral n =>
    rw [spelled]
    split
    · rename_i tag htag
      obtain ⟨i, hn, hi⟩ := Option.bind_eq_some_iff.mp htag
      obtain ⟨hlt, -⟩ := List.getElem?_eq_some_iff.mp hi
      refine iff_of_true (Document.fits_ofText tag) (Document.fits_iff.mpr ⟨Nat.zero_le _, ?_⟩)
      rw [Numeral.nat?] at hn
      split at hn
      · rename_i hint
        cases hn
        obtain ⟨hint, hneg⟩ := Bool.and_eq_true_iff.mp hint
        have hsize : n.whole < UInt64.size := Nat.lt_trans hlt (by decide)
        have hvalue : Number.ofNumeral? n = some (.int n.whole) :=
          if_pos ⟨hint, by simpa using hneg, hsize⟩
        exact ⟨_, by rw [Value.ofDocument?, hvalue, Option.map_some]⟩
      · cases hn
    · rfl
  | _ => rfl

theorem fits_spellTag : (spellTag d).fits depth ↔ d.fits depth := by
  cases depth with
  | zero =>
    cases d with
    | array items => cases items <;> simp [spellTag, Document.fits_iff, Document.nesting]
    | object ms => simp [spellTag, Document.fits_iff, Document.nesting]
    | _ => rfl
  | succ depth =>
    cases d with
    | object ms =>
      rw [spellTag, Document.fits_object_iff, Document.fits_object_iff, List.forall_mem_map]
      refine forall₂_congr fun m _ ↦ ?_
      rw [spellMember]
      split
      · rw [fits_spelled]
      · rfl
    | array items =>
      cases items with
      | nil => rfl
      | cons tag rest =>
        rw [spellTag, Document.fits_array_iff, Document.fits_array_iff, List.forall_mem_cons,
          List.forall_mem_cons, fits_spelled]
    | _ => rfl

theorem isTag_spellMember (m : Quoted × Document) :
    Tagged.isTag (spellMember m) = Tagged.isTag m := by
  rw [spellMember]
  split <;> rfl

theorem ofDocument?_spellTag (d : Document) :
    Tagged.ofDocument? (spellTag d) =
      (Tagged.ofDocument? d).map fun t ↦ ⟨spelled t.tag, t.content⟩ := by
  cases d with
  | object ms =>
    have htags : (ms.map spellMember).filter Tagged.isTag =
        (ms.filter Tagged.isTag).map fun m ↦ (m.1, spelled m.2) := by
      rw [List.filter_map, funext (f := Tagged.isTag ∘ spellMember) isTag_spellMember]
      exact List.map_congr_left fun m hm ↦ if_pos (List.mem_filter.mp hm).2
    have hrest : (ms.map spellMember).filter (not ∘ Tagged.isTag) =
        ms.filter (not ∘ Tagged.isTag) := by
      have hsame : (not ∘ Tagged.isTag) ∘ spellMember = not ∘ Tagged.isTag :=
        funext fun m ↦ congrArg not (isTag_spellMember m)
      rw [List.filter_map, hsame]
      refine (List.map_congr_left fun m hm ↦ ?_).trans (List.map_id _)
      exact if_neg (by simpa using (List.mem_filter.mp hm).2)
    rw [spellTag, Tagged.ofDocument?_object, Tagged.ofDocument?_object, htags, hrest]
    cases ms.filter Tagged.isTag with
    | nil => rfl
    | cons m rest => cases rest <;> rfl
  | array items => cases items <;> rfl
  | _ => rfl

/-- Inside another type a type is read as it would be alone with its tag as a word. -/
theorem ofTagged?_spellTag (depth : Nat) (d : Document) :
    ofTagged? false depth (spellTag d) = ofTagged? true depth d := by
  cases depth with
  | zero => rfl
  | succ depth =>
    rw [ofTagged?, ofTagged?, ofDocument?_spellTag]
    cases Tagged.ofDocument? d with
    | none => rfl
    | some t =>
      simp only [Option.map_some, Option.bind_eq_bind, Option.bind_some, decodeTag_spelled]

theorem ofTagged?_of_le {k : Nat} (inner : Bool) (hd : d.nesting ≤ k) (hk : k ≤ depth) :
    ofTagged? inner depth d = ofTagged? inner k d := by
  induction hk with
  | refl => rfl
  | step hk ih => rw [ofTagged?_succ inner (Nat.le_trans hd hk), ih]

theorem fits_of_le {k : Nat} (hd : d.nesting ≤ k) (hk : k ≤ depth) : d.fits depth ↔ d.fits k := by
  rw [Document.fits_iff, Document.fits_iff, and_iff_right hd, and_iff_right (Nat.le_trans hd hk)]

theorem decode_spellTag {k : Nat} (hd : d.nesting ≤ k) (hk : k ≤ depth) :
    decode depth (spellTag d) = if d.fits k then ofTagged? true k d else none := by
  rw [decode, ofTagged?_spellTag, ofTagged?_of_le true hd hk]
  exact if_congr (fits_spellTag.trans (fits_of_le hd hk)) rfl rfl

def arrayDocument (d : Document) : Document :=
  .record [("type", .ofText "array"), ("element", d)]

def unionDocument (ds : List Document) : Document :=
  .record [("type", .ofText "union"), ("members", .array ds)]

theorem nesting_arrayDocument (d : Document) : (arrayDocument d).nesting = d.nesting + 1 := by
  simp [arrayDocument, Document.record, Document.ofText, Document.nesting,
    Document.nestingMembers]

theorem nesting_unionDocument (ds : List Document) :
    (unionDocument ds).nesting = Document.nestingItems ds + 2 := by
  simp [unionDocument, Document.record, Document.ofText, Document.nesting,
    Document.nestingMembers]

theorem fits_arrayDocument : (arrayDocument d).fits (depth + 1) ↔ d.fits depth := by
  simp [arrayDocument, Document.fits_record_iff, Document.fits_ofText]

theorem fits_unionDocument {ds : List Document} :
    (unionDocument ds).fits (depth + 2) ↔ ∀ d ∈ ds, d.fits depth := by
  simp [unionDocument, Document.fits_record_iff, Document.fits_ofText, Document.fits_array_iff]

theorem ofContent?_element {read : Decoder Ty} (d : Document) :
    ofContent? read "array" (depth + 1) (.record [("element", d)]) =
      (read depth d).map arrayOf := by
  rw [ofContent?, if_neg (by decide), if_neg (by decide), if_neg (by decide), if_pos rfl,
    Record.ofDocument?_record (by simp)]
  simp only [Option.bind_eq_bind, Option.bind_some]
  rw [Record.required_member rfl]
  cases read depth d <;> rfl

theorem decode_arrayDocument (hd : d.nesting ≤ depth) :
    decode (depth + 1) (arrayDocument d) = (decode (depth + 1) (spellTag d)).map arrayOf := by
  rw [decode_spellTag hd (Nat.le_succ depth), decode, if_congr fits_arrayDocument rfl rfl,
    arrayDocument, ofTagged?_record (by simp), ofContent?_element]
  split <;> rfl

theorem decode_unionDocument {ds : List Document} (hds : ∀ d ∈ ds, d.nesting ≤ depth) :
    decode (depth + 2) (unionDocument ds) =
      (ds.mapM fun d ↦ decode (depth + 2) (spellTag d)).map .union := by
  have hread : ds.mapM (fun d ↦ decode (depth + 2) (spellTag d)) =
      if ∀ d ∈ ds, d.fits depth then ds.mapM (ofTagged? true (depth + 1)) else none := by
    have hd : ∀ d ∈ ds, decode (depth + 2) (spellTag d) =
        if d.fits depth then ofTagged? true (depth + 1) d else none := fun d hd ↦ by
      rw [decode_spellTag (hds d hd) (Nat.le_add_right depth 2), ofTagged?_succ true (hds d hd)]
    rw [← mapM_ite]
    exact mapM_eq_of_forall₂ (List.forall₂_same.mpr hd)
  rw [hread, decode, if_congr fits_unionDocument rfl rfl, unionDocument,
    ofTagged?_record (by simp), ofContent?_union]
  split <;> rfl

theorem decode_of_numberedTag (h : HasNumberedTag d) : decode depth d = none := by
  obtain ⟨n, content, ht⟩ := h
  rw [decode, ite_eq_right_iff]
  intro
  cases depth with
  | zero => rfl
  | succ depth =>
    rw [ofTagged?, ht]
    rfl

theorem decode_spellTag_of_not_numberedTag (h : ¬ HasNumberedTag d) :
    decode depth (spellTag d) = decode depth d := by
  have hsame : Tagged.ofDocument? (spellTag d) = Tagged.ofDocument? d := by
    rw [ofDocument?_spellTag]
    cases ht : Tagged.ofDocument? d with
    | none => rfl
    | some t =>
      have htag : ∀ n, t.tag ≠ .numeral n := fun n hn ↦ h ⟨n, t.content, by rw [ht, ← hn]⟩
      rw [Option.map_some, spelled_of_not_numeral htag]
  rw [decode, decode]
  refine if_congr fits_spellTag ?_ rfl
  cases depth with
  | zero => rfl
  | succ depth => rw [ofTagged?, ofTagged?, hsame]

/-- As the element of an array or a member of a union a type is read exactly as alone, if its tag
is a word. A number in place of the tag is read inside as the word with that number, and makes the
document no type alone. -/
theorem decode_inside (depth : Nat) :
    (∀ d, (arrayDocument d).nesting ≤ depth →
      decode depth (arrayDocument d) = (decode depth (spellTag d)).map arrayOf) ∧
    (∀ ds, (unionDocument ds).nesting ≤ depth →
      decode depth (unionDocument ds) =
        (ds.mapM fun d ↦ decode depth (spellTag d)).map .union) ∧
    ∀ d, (HasNumberedTag d → decode depth d = none) ∧
      (¬ HasNumberedTag d → decode depth (spellTag d) = decode depth d) := by
  refine ⟨fun d hd ↦ ?_, fun ds hds ↦ ?_,
    fun d ↦ ⟨decode_of_numberedTag, decode_spellTag_of_not_numberedTag⟩⟩
  · rw [nesting_arrayDocument] at hd
    obtain ⟨k, rfl⟩ : ∃ k, depth = k + 1 := ⟨depth - 1, by omega⟩
    exact decode_arrayDocument (Nat.le_of_succ_le_succ hd)
  · rw [nesting_unionDocument] at hds
    obtain ⟨k, rfl⟩ : ∃ k, depth = k + 2 := ⟨depth - 2, by omega⟩
    exact decode_unionDocument
      (Document.nestingItems_le_iff.mp (Nat.le_of_succ_le_succ (Nat.le_of_succ_le_succ hds)))

def numberedAny : Document := .record [("type", .ofNat 0)]

/-- A type of each form: an object with a number, an array, and an object whose tag comes last. -/
theorem decode_inside_numberedAny :
    (unionDocument [numberedAny, .array [.ofText "string"],
      .record [("name", .ofText "E"), ("type", .ofText "numericEnum")]]).nesting ≤ 3 ∧
    decode 3 (unionDocument [numberedAny, .array [.ofText "string"],
      .record [("name", .ofText "E"), ("type", .ofText "numericEnum")]]) =
        some (.union [.any, .string, .numericEnum "E"]) := by
  have hnesting : (unionDocument [numberedAny, .array [.ofText "string"],
      .record [("name", .ofText "E"), ("type", .ofText "numericEnum")]]).nesting ≤ 3 := by decide
  exact ⟨hnesting, ((decode_inside 3).2.1 _ hnesting).trans rfl⟩

/-- Inside an array the number is a tag, and alone it is none. -/
theorem number_is_tag_inside_only :
    decode maxDepth (arrayDocument numberedAny) = some (arrayOf .any) ∧
      decode maxDepth numberedAny = none := by
  exact ⟨rfl, rfl⟩

end Ty

end AnyFlow
