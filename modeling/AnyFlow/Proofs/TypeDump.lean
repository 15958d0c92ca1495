import AnyFlow.Proofs.Json.Reader
import AnyFlow.Proofs.Json.Record
import AnyFlow.Types.Table

namespace AnyFlow

open Json

variable {depth : Nat}

namespace Ty

mutual

/-- The containers around a point of the encoded type: an object for each type, and a list for
each union. -/
def nesting : Ty → Nat
  | .array e _ => nesting e + 1
  | .union ts => nestingMembers ts + 2
  | _ => 1
termination_by structural t => t

def nestingMembers : List Ty → Nat
  | [] => 0
  | t :: ts => max (nesting t) (nestingMembers ts)
termination_by structural ts => ts

end

mutual

def floats : Ty → List Binary64
  | .numberLiteral x => [x]
  | .array e _ => floats e
  | .union ts => floatsOfMembers ts
  | _ => []
termination_by structural t => t

def floatsOfMembers : List Ty → List Binary64
  | [] => []
  | t :: ts => floats t ++ floatsOfMembers ts
termination_by structural ts => ts

end

theorem nesting_pos (t : Ty) : 0 < t.nesting := by
  cases t <;> exact Nat.succ_pos _

theorem toDocument_bare {t : Ty} (h : t ∈ bare) :
    t.toDocument = .record [("type", .ofText t.tag)] ∧ bare.find? (·.tag == t.tag) = some t ∧
      t.tag ∉ ["numberLiteral", "stringLiteral", "numericEnum", "array", "union", "named"] := by
  simp only [bare, List.mem_cons, List.not_mem_nil, or_false] at h
  rcases h with rfl | rfl | rfl | rfl | rfl | rfl | rfl | rfl | rfl | rfl
  all_goals exact ⟨rfl, rfl, by decide⟩

mutual

theorem fits_toDocument {depth : Nat} (t : Ty) (h : t.nesting ≤ depth)
    (hx : ∀ x ∈ t.floats, x.ReadsBack) : t.toDocument.fits depth := by
  have hpos := t.nesting_pos
  obtain ⟨depth, rfl⟩ : ∃ d, depth = d + 1 := ⟨depth - 1, by omega⟩
  match t with
  | .any | .unknown | .never | .void | .null | .undefined | .boolean | .string | .number
  | .bigInt => exact Document.fits_record (by simp [Document.fits_ofText])
  | .numberLiteral x =>
    have hfloat : (Document.numeral (.ofFloat x)).fits depth :=
      Document.fits_float (hx x List.mem_cons_self)
    exact Document.fits_record (by simp [Document.fits_ofText, hfloat])
  | .stringLiteral s | .numericEnum s | .named s =>
    exact Document.fits_record (by simp [Document.fits_ofText])
  | .array e readonly =>
    have he : e.toDocument.fits depth := fits_toDocument e (Nat.le_of_succ_le_succ h) hx
    exact Document.fits_record (by simp [Document.fits_ofText, Document.fits_bool, he])
  | .union ts =>
    have hdepth : nestingMembers ts + 1 ≤ depth := Nat.le_of_succ_le_succ h
    obtain ⟨depth, rfl⟩ : ∃ d, depth = d + 1 := ⟨depth - 1, by omega⟩
    have hts := fits_toDocuments ts (Nat.le_of_succ_le_succ hdepth) hx
    have harray := Document.fits_array hts
    exact Document.fits_record (by simp [Document.fits_ofText, harray])
termination_by structural t

theorem fits_toDocuments {depth : Nat} (ts : List Ty) (h : nestingMembers ts ≤ depth)
    (hx : ∀ x ∈ floatsOfMembers ts, x.ReadsBack) : ∀ d ∈ toDocuments ts, d.fits depth := by
  match ts with
  | [] => exact nofun
  | t :: ts =>
    obtain ⟨ht, hts⟩ := Nat.max_le.mp h
    obtain ⟨hxt, hxts⟩ := List.forall_mem_append.mp hx
    rw [toDocuments, List.forall_mem_cons]
    exact ⟨fits_toDocument t ht hxt, fits_toDocuments ts hts hxts⟩
termination_by structural ts

end

theorem decodeTag_ofText (inner : Bool) (s : String) : decodeTag inner (.ofText s) = some s :=
  Quoted.text?_ofText s

theorem decodeFloat_ofFloat {x : Binary64} (h : x.ReadsBack) :
    decodeFloat depth (.numeral (.ofFloat x)) = some x := by
  have hvalue : Number.ofNumeral? (.ofFloat x) = some (.float x) := h
  rw [decodeFloat, hvalue, Option.bind_some, Number.toFloat?]

theorem ofTagged?_record {inner : Bool} {tag : String} {members : List (String × Document)}
    (h : "type" ∉ members.map Prod.fst) :
    ofTagged? inner (depth + 1) (.record (("type", .ofText tag) :: members)) =
      ofContent? (fun _ d ↦ ofTagged? true depth d) tag (depth + 1) (.record members) := by
  rw [ofTagged?, Tagged.ofDocument?_record _ h]
  simp only [Option.bind_eq_bind, Option.bind_some, decodeTag_ofText]

section Content

variable {read : Decoder Ty}

theorem ofContent?_bare {t : Ty} (h : t ∈ bare) :
    ofContent? read t.tag (depth + 1) (.record []) = some t := by
  obtain ⟨-, hfind, htag⟩ := toDocument_bare h
  simp only [List.mem_cons, List.not_mem_nil, or_false, not_or] at htag
  obtain ⟨h₁, h₂, h₃, h₄, h₅, h₆⟩ := htag
  rw [ofContent?, if_neg h₁, if_neg h₂, if_neg h₃, if_neg h₄, if_neg h₅, if_neg h₆,
    Record.ofDocument?_record (by simp)]
  exact hfind

theorem ofContent?_numberLiteral {x : Binary64} (h : x.ReadsBack) :
    ofContent? read "numberLiteral" (depth + 1) (.record [("value", .numeral (.ofFloat x))]) =
      some (.numberLiteral x) := by
  rw [ofContent?, if_pos rfl, Record.ofDocument?_record (by simp)]
  simp only [Option.bind_eq_bind, Option.bind_some]
  rw [Record.required_member rfl, decodeFloat_ofFloat h]
  rfl

theorem ofContent?_text {tag field : String} {f : String → Ty} (s : String)
    (h : (tag, field, f) ∈ [("stringLiteral", "value", .stringLiteral),
      ("numericEnum", "name", .numericEnum), ("named", "name", .named)]) :
    ofContent? read tag (depth + 1) (.record [(field, .ofText s)]) = some (f s) := by
  simp only [List.mem_cons, List.not_mem_nil, or_false, Prod.mk.injEq] at h
  rcases h with ⟨rfl, rfl, rfl⟩ | ⟨rfl, rfl, rfl⟩ | ⟨rfl, rfl, rfl⟩
  all_goals
    rw [ofContent?]
    simp only [String.reduceEq, if_false, if_true, Option.bind_eq_bind]
    rw [Record.ofDocument?_record (by simp), Option.bind_some, Record.required_member rfl,
      Decoder.text_ofText]
    rfl

theorem ofContent?_array (d : Document) (readonly : Bool) :
    ofContent? read "array" (depth + 1) (.record [("element", d), ("readonly", .bool readonly)]) =
      (read depth d).map (.array · readonly) := by
  rw [ofContent?, if_neg (by decide), if_neg (by decide), if_neg (by decide), if_pos rfl,
    Record.ofDocument?_record (by simp)]
  simp only [Option.bind_eq_bind, Option.bind_some]
  rw [Record.required_member rfl]
  cases read depth d <;> rfl

theorem ofContent?_union (ds : List Document) :
    ofContent? read "union" (depth + 2) (.record [("members", .array ds)]) =
      (ds.mapM (read depth)).map .union := by
  rw [ofContent?, if_neg (by decide), if_neg (by decide), if_neg (by decide), if_neg (by decide),
    if_pos rfl, Record.ofDocument?_record (by simp)]
  simp only [Option.bind_eq_bind, Option.bind_some]
  rw [Record.required_member rfl, Decoder.list]
  cases ds.mapM (read depth) <;> rfl

end Content

theorem ofTagged?_bare {t : Ty} (inner : Bool) (h : t ∈ bare) :
    ofTagged? inner (depth + 1) t.toDocument = some t := by
  rw [(toDocument_bare h).1, ofTagged?_record (by simp), ofContent?_bare h]

mutual

theorem ofTagged?_toDocument {depth : Nat} (inner : Bool) (t : Ty) (h : t.nesting ≤ depth)
    (hx : ∀ x ∈ t.floats, x.ReadsBack) : ofTagged? inner depth t.toDocument = some t := by
  have hpos := t.nesting_pos
  obtain ⟨depth, rfl⟩ : ∃ d, depth = d + 1 := ⟨depth - 1, by omega⟩
  match t with
  | .any | .unknown | .never | .void | .null | .undefined | .boolean | .string | .number
  | .bigInt => exact ofTagged?_bare inner (by simp [bare])
  | .numberLiteral x =>
    rw [toDocument, ofTagged?_record (by simp),
      ofContent?_numberLiteral (hx x List.mem_cons_self)]
  | .stringLiteral s =>
    rw [toDocument, ofTagged?_record (by simp), ofContent?_text (f := .stringLiteral) s (by simp)]
  | .numericEnum s =>
    rw [toDocument, ofTagged?_record (by simp), ofContent?_text (f := .numericEnum) s (by simp)]
  | .named s =>
    rw [toDocument, ofTagged?_record (by simp), ofContent?_text (f := .named) s (by simp)]
  | .array e readonly =>
    have he := ofTagged?_toDocument true e (Nat.le_of_succ_le_succ h) hx
    rw [toDocument, ofTagged?_record (by simp), ofContent?_array, he, Option.map_some]
  | .union ts =>
    -- the list of the members takes a level, but `ofTagged?` counts only the types
    have hdepth : nestingMembers ts + 1 ≤ depth := Nat.le_of_succ_le_succ h
    obtain ⟨depth, rfl⟩ : ∃ d, depth = d + 1 := ⟨depth - 1, by omega⟩
    have hts := mapM_toDocuments true ts (Nat.le_of_succ_le hdepth) hx
    rw [toDocument, ofTagged?_record (by simp), ofContent?_union, hts, Option.map_some]
termination_by structural t

theorem mapM_toDocuments {depth : Nat} (inner : Bool) (ts : List Ty)
    (h : nestingMembers ts ≤ depth) (hx : ∀ x ∈ floatsOfMembers ts, x.ReadsBack) :
    (toDocuments ts).mapM (ofTagged? inner depth) = some ts := by
  match ts with
  | [] => rfl
  | t :: ts =>
    obtain ⟨ht, hts⟩ := Nat.max_le.mp h
    obtain ⟨hxt, hxts⟩ := List.forall_mem_append.mp hx
    rw [toDocuments, List.mapM_cons, ofTagged?_toDocument inner t ht hxt,
      mapM_toDocuments inner ts hts hxts]
    rfl
termination_by structural ts

end

theorem decode_toDocument {t : Ty} (h : t.nesting ≤ depth) (hx : ∀ x ∈ t.floats, x.ReadsBack) :
    decode depth t.toDocument = some t := by
  rw [decode, if_pos (fits_toDocument t h hx), ofTagged?_toDocument false t h hx]

end Ty

namespace TypeTable

/-- What a dump can hold: node numbers of 64 bits, and types that neither nest too deeply nor have
a float that does not read back. -/
structure Writable (entries : List (Nat × Ty)) : Prop where
  ids : ∀ x ∈ entries, x.1 < UInt64.size
  nesting : ∀ x ∈ entries, x.2.nesting ≤ 125
  floats : ∀ x ∈ entries, ∀ y ∈ x.2.floats, y.ReadsBack

theorem keyId?_repr {id : Nat} (h : id < UInt64.size) :
    keyId? (Quoted.ofText id.repr) = some id := by
  have hdigits : id.repr.toList = Nat.toDigits 10 id := Nat.toList_repr
  have hdigit : ∀ d, ' ' ≤ Numeral.digitChar d ∧ shortEscape? (Numeral.digitChar d) = none := by
    decide
  have hplain : ∀ c ∈ id.repr.toList, ' ' ≤ c ∧ shortEscape? c = none := by
    obtain ⟨d, ds, hds, -⟩ := Numeral.exists_digits id
    rw [hdigits, hds, List.forall_mem_map]
    exact fun d _ ↦ hdigit d
  have hread : Numeral.readWhole (Nat.toDigits 10 id ++ []) = some (id, []) :=
    Numeral.readWhole_toDigits id nofun
  rw [List.append_nil] at hread
  rw [keyId?, Quoted.unescaped?_ofText hplain, hdigits, Option.bind_eq_bind, Option.bind_some,
    hread]
  exact if_pos ⟨rfl, h⟩

variable {entries : List (Nat × Ty)}

theorem decode_documentOfEntries (h : Writable entries) :
    decode maxDepth (documentOfEntries entries) = some (ofList entries) := by
  have hmembers : (Decoder.members keyId? Ty.decode) 126
      (.record (entries.map fun x ↦ (x.1.repr, x.2.toDocument))) = some entries :=
    Decoder.members_record fun x hx ↦
      ⟨keyId?_repr (h.ids x hx), Ty.decode_toDocument (h.nesting x hx) (h.floats x hx)⟩
  rw [decode, documentOfEntries, maxDepth, Record.ofDocument?_record (by simp)]
  simp only [Option.bind_eq_bind, Option.bind_some]
  rw [Record.required_member rfl, hmembers]
  rfl

theorem types_foldl_insert (T : TypeTable) (entries : List (Nat × Ty)) :
    (entries.foldl (fun T x ↦ T.insert x.1 x.2) T).types =
      entries.foldl (fun d x ↦ d.insert x.1 x.2) T.types := by
  induction entries generalizing T with
  | nil => rfl
  | cons x entries ih => exact ih (T.insert x.1 x.2)

theorem ofList_eq_foldl (entries : List (Nat × Ty)) :
    ofList entries = entries.foldl (fun T x ↦ T.insert x.1 x.2) empty := by
  rw [ofList, Dict.ofList_eq_foldl]
  exact congrArg TypeTable.mk (types_foldl_insert empty entries).symm

theorem ofJson?_of_writable (h : Writable entries) :
    ofJson? (documentOfEntries entries).compact = some (ofList entries) ∧
      ofJson? (documentOfEntries entries).indented = some (ofList entries) := by
  rw [ofJson?, ofJson?, Decoder.run, Decoder.run, Document.parse?_compact,
    Document.parse?_indented, Option.bind_some, decode_documentOfEntries h]
  exact ⟨rfl, rfl⟩

theorem Writable.ofList (h : Writable entries) : Writable (ofList entries).types.entries where
  ids x hx := h.ids x (Entries.mem_of_mem_ofList hx)
  nesting x hx := h.nesting x (Entries.mem_of_mem_ofList hx)
  floats x hx := h.floats x (Entries.mem_of_mem_ofList hx)

/-- The text that writes the entries in their order is read as the table into which they were
inserted in that order, and so is the text of that table. -/
theorem ofJson?_entries {entries : List (Nat × Ty)} (h : Writable entries) :
    let written := documentOfEntries entries
    let table := entries.foldl (fun T x ↦ T.insert x.1 x.2) empty
    (ofJson? written.compact = some table ∧ ofJson? written.indented = some table) ∧
      ofJson? table.toDocument.compact = some table ∧
      ofJson? table.toDocument.indented = some table := by
  intro written table
  have htable : TypeTable.ofList entries = table := ofList_eq_foldl entries
  have hself : TypeTable.ofList table.types.entries = table :=
    congrArg TypeTable.mk (Dict.ofList_entries table.types)
  have hagain := ofJson?_of_writable h.ofList
  rw [htable, hself] at hagain
  exact ⟨htable ▸ ofJson?_of_writable h, hagain⟩

def nestedArrays : Nat → Ty
  | 0 => .union [.numberLiteral .tenth, .named "a\"b"]
  | n + 1 => .array (nestedArrays n) true

/-- Two types for one node, and the greatest number before the least. -/
def entriesSample : List (Nat × Ty) :=
  [(18446744073709551615, nestedArrays 122), (7, .any), (0, .stringLiteral "\n\x01"),
    (7, .union [])]

theorem writable_entriesSample : Writable entriesSample := by
  have hnesting (n : Nat) : (nestedArrays n).nesting = n + 3 := by
    induction n with
    | zero => rfl
    | succ n ih => rw [nestedArrays, Ty.nesting, ih]
  have hfloats (n : Nat) : (nestedArrays n).floats = [.tenth] := by
    induction n with
    | zero => rfl
    | succ n ih => rw [nestedArrays, Ty.floats, ih]
  refine ⟨by decide, ?_, ?_⟩
  · simp [entriesSample, hnesting, Ty.nesting, Ty.nestingMembers]
  · simp [entriesSample, hfloats, Ty.floats, Ty.floatsOfMembers, Binary64.readsBack_tenth]

theorem ofJson?_entriesSample : Writable entriesSample ∧
    ∃ T, ofJson? (documentOfEntries entriesSample).compact = some T ∧
      T.types.keys = [0, 7, 18446744073709551615] ∧ T.get? 7 = some (.union []) :=
  ⟨writable_entriesSample, _, (ofJson?_entries writable_entriesSample).1.1, rfl, rfl⟩

end TypeTable

end AnyFlow
