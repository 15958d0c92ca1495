import AnyFlow.Proofs.Json.Float
import AnyFlow.Proofs.Json.Reader
import AnyFlow.Proofs.Json.Record
import AnyFlow.Proofs.Links
import AnyFlow.Tree.Codec

namespace AnyFlow

open Json

variable {depth : Nat}

namespace Kind

theorem find?_bare {k : Kind} (h : k ∈ bare) : bare.find? (·.tag == k.tag) = some k := by
  revert k
  decide

theorem toDocument_bare {k : Kind} (h : k ∈ bare) :
    k.toDocument = .record [("type", .ofText k.tag)] ∧ k.tag ≠ "VariableDeclaration" ∧
      k.tag ≠ "AssignmentExpression" ∧ k.tag ≠ "UpdateExpression" := by
  cases k with
  | variableDeclaration v => simp [bare] at h
  | assignmentExpression o => simp [bare] at h
  | updateExpression o leading => simp [bare] at h
  | _ => exact ⟨rfl, by decide, by decide, by decide⟩

theorem mem_bare_or (k : Kind) : k ∈ bare ∨ (∃ v, k = .variableDeclaration v) ∨
    (∃ o, k = .assignmentExpression o) ∨ ∃ o leading, k = .updateExpression o leading := by
  cases k with
  | variableDeclaration v => exact .inr (.inl ⟨v, rfl⟩)
  | assignmentExpression o => exact .inr (.inr (.inl ⟨o, rfl⟩))
  | updateExpression o leading => exact .inr (.inr (.inr ⟨o, leading, rfl⟩))
  | _ => exact .inl (by decide)

theorem decode_of_tagged {tag : String} {members : List (String × Document)} {k : Kind}
    (hmembers : ∀ m ∈ members, m.2.fits depth) (hfresh : "type" ∉ members.map Prod.fst)
    (hk : ofTagged? tag (depth + 1) (.record members) = some k) :
    decode (depth + 1) (.record (("type", .ofText tag) :: members)) = some k := by
  have hfits : (Document.record (("type", .ofText tag) :: members)).fits (depth + 1) :=
    Document.fits_record (List.forall_mem_cons.mpr ⟨Document.fits_ofText tag, hmembers⟩)
  rw [decode, if_pos hfits, Tagged.ofDocument?_record _ hfresh, Option.bind_eq_bind,
    Option.bind_some, Decoder.text_ofText]
  exact hk

theorem decode_toDocument (k : Kind) : decode (depth + 1) k.toDocument = some k := by
  rcases k.mem_bare_or with hk | ⟨v, rfl⟩ | ⟨o, rfl⟩ | ⟨o, leading, rfl⟩
  · obtain ⟨hdoc, hv, ha, hu⟩ := toDocument_bare hk
    rw [hdoc]
    refine decode_of_tagged (by simp) (by simp) ?_
    rw [ofTagged?, if_neg hv, if_neg ha, if_neg hu, Record.ofDocument?_record (by simp)]
    exact find?_bare hk
  · refine decode_of_tagged (by simp [Document.fits_ofText]) (by simp) ?_
    change ofTagged? "VariableDeclaration" _ _ = _
    rw [ofTagged?, if_pos rfl, Record.ofDocument?_record (by simp), Option.bind_eq_bind,
      Option.bind_some, Record.required_member rfl, Decoder.innerKeyword_word]
    rfl
  · refine decode_of_tagged (by simp [Document.fits_ofText]) (by simp) ?_
    change ofTagged? "AssignmentExpression" _ _ = _
    rw [ofTagged?, if_neg (by decide), if_pos rfl, Record.ofDocument?_record (by simp),
      Option.bind_eq_bind, Option.bind_some, Record.required_member rfl,
      Decoder.innerKeyword_word]
    rfl
  · refine decode_of_tagged (by simp [Document.fits_ofText, Document.fits_bool]) (by simp) ?_
    change ofTagged? "UpdateExpression" _ _ = _
    rw [ofTagged?, if_neg (by decide), if_neg (by decide), if_pos rfl,
      Record.ofDocument?_record (by simp), Option.bind_eq_bind, Option.bind_some,
      Record.required_member rfl, Decoder.innerKeyword_word, Record.required_member rfl]
    rfl

end Kind

structure Location.Fits (l : Location) : Prop where
  line : l.line < UInt64.size
  column : l.column < UInt64.size
  start : l.span.start < UInt64.size
  stop : l.span.stop < UInt64.size

theorem Span.decode_toDocument {s : Span} (hstart : s.start < UInt64.size)
    (hstop : s.stop < UInt64.size) : decode (depth + 1) s.toDocument = some s := by
  rw [decode, toDocument, Record.ofDocument?_record (by simp)]
  simp only [Option.bind_eq_bind, Option.bind_some]
  rw [Record.required_member rfl, Decoder.nat_ofNat hstart, Option.bind_some,
    Record.required_member rfl, Decoder.nat_ofNat hstop]
  rfl

theorem Location.decode_toDocument {l : Location} (h : l.Fits) :
    decode (depth + 2) l.toDocument = some l := by
  rw [decode, toDocument, Record.ofDocument?_record (by simp)]
  simp only [Option.bind_eq_bind, Option.bind_some]
  rw [Record.required_member rfl, Decoder.text_ofText, Option.bind_some,
    Record.required_member rfl, Decoder.nat_ofNat h.line, Option.bind_some,
    Record.required_member rfl, Decoder.nat_ofNat h.column, Option.bind_some,
    Record.withDefault_member rfl, Span.decode_toDocument h.start h.stop]
  rfl

namespace Node

/-- The numbers of a node have 64 bits, also those in its value, where objects are in key order. -/
structure Fits (n : Node) : Prop where
  id : n.id < UInt64.size
  parent : ∀ p ∈ n.parent, p < UInt64.size
  children : ∀ c ∈ n.children, c < UInt64.size
  location : n.location.Fits
  value : n.value.Fits

def mapFloats (f : Binary64 → Binary64) (n : Node) : Node :=
  { n with value := n.value.mapFloats f }

variable {f : Binary64 → Binary64}

theorem mapFloats_eq_self_iff {n : Node} :
    n.mapFloats f = n ↔ ∀ x ∈ n.value.floats, f x = x := by
  rw [← Value.mapFloats_eq_self_iff]
  refine ⟨fun h ↦ congrArg Node.value h, fun h ↦ ?_⟩
  rw [mapFloats, h]

/-- Of a node only the value can nest too deeply, and only its floats can come back otherwise. -/
theorem decode_toDocument {n : Node} (h : n.Fits) (hx : ∀ x ∈ n.value.floats, x.ReadsAs (f x)) :
    decode (depth + 3) n.toDocument =
      if n.value.nesting ≤ depth + 2 then some (n.mapFloats f) else none := by
  have hparent : Decoder.nat.optional (depth + 2) (.ofOption .ofNat n.parent) = some n.parent :=
    Decoder.optional_ofOption fun p hp ↦ ⟨Decoder.nat_ofNat (h.parent p hp), nofun⟩
  have hrole : (Decoder.optional Decoder.keyword) (depth + 2)
      (.ofOption (fun r ↦ .ofText (Keyword.word r)) n.role) = some n.role :=
    Decoder.optional_ofOption fun r _ ↦ ⟨Decoder.keyword_word r, nofun⟩
  have hchildren : (Decoder.list Decoder.nat) (depth + 2) (.array (n.children.map .ofNat)) =
      some n.children :=
    Decoder.list_array fun c hc ↦ Decoder.nat_ofNat (h.children c hc)
  rw [decode, toDocument, Record.ofDocument?_record (by simp)]
  simp only [Option.bind_eq_bind, Option.bind_some]
  rw [Record.required_member rfl, Decoder.nat_ofNat h.id, Option.bind_some,
    Record.optional_member rfl, hparent, Option.bind_some,
    Record.required_member rfl, Kind.decode_toDocument, Option.bind_some,
    Record.withDefault_member rfl, hrole, Option.bind_some,
    Record.withDefault_member rfl, Decoder.value_toDocument h.value hx]
  split
  · rw [Option.bind_some, Record.withDefault_member rfl, hchildren, Option.bind_some,
      Record.required_member rfl, Location.decode_toDocument h.location]
    rfl
  · rfl

end Node

namespace Tree

structure Fits (t : Tree) : Prop where
  roots : ∀ r ∈ t.roots, r < UInt64.size
  nodes : ∀ n ∈ t.nodes.toList, n.Fits

def mapFloats (f : Binary64 → Binary64) (t : Tree) : Tree :=
  { t with nodes := t.nodes.map (Node.mapFloats f) }

variable {t : Tree} {f : Binary64 → Binary64}

theorem mapFloats_eq_self_iff :
    t.mapFloats f = t ↔ ∀ n ∈ t.nodes.toList, ∀ x ∈ n.value.floats, f x = x := by
  have hnodes : t.mapFloats f = t ↔
      t.nodes.toList.map (Node.mapFloats f) = t.nodes.toList.map id := by
    rw [List.map_id, ← Array.toList_map, Array.toList_inj]
    exact ⟨fun h ↦ congrArg Tree.nodes h, fun h ↦ by rw [mapFloats, h]⟩
  rw [hnodes, List.map_inj_left]
  exact forall₂_congr fun n _ ↦ Node.mapFloats_eq_self_iff

theorem exists_node?_of_mapFloats {i : Nat} {n : Node} (h : (t.mapFloats f).node? i = some n) :
    ∃ m, t.node? i = some m ∧ m.mapFloats f = n := by
  rw [node?, mapFloats, Array.getElem?_map] at h
  exact Option.map_eq_some_iff.mp h

theorem node?_mapFloats {i : Nat} {n : Node} (h : t.node? i = some n) :
    (t.mapFloats f).node? i = some (n.mapFloats f) := by
  rw [node?, mapFloats, Array.getElem?_map]
  exact congrArg _ h

theorem WellLinked.mapFloats (h : t.WellLinked) (f : Binary64 → Binary64) :
    (t.mapFloats f).WellLinked where
  id_eq hn := by
    obtain ⟨m, hm, rfl⟩ := exists_node?_of_mapFloats hn
    exact h.id_eq (n := m) hm
  parent_of_mem hn hc := by
    obtain ⟨m, hm, rfl⟩ := exists_node?_of_mapFloats hn
    obtain ⟨c, hchild, hparent⟩ := h.parent_of_mem hm hc
    exact ⟨_, node?_mapFloats hchild, hparent⟩
  mem_of_parent hn hp := by
    obtain ⟨m, hm, rfl⟩ := exists_node?_of_mapFloats hn
    obtain ⟨p, hnode, hmem⟩ := h.mem_of_parent hm hp
    exact ⟨_, node?_mapFloats hnode, hmem⟩
  nodup_children := by
    have hsame : (t.mapFloats f).allChildren = t.allChildren := by
      rw [allChildren, Tree.mapFloats, Array.toList_map, List.flatMap_map]
      rfl
    rw [hsame]
    exact h.nodup_children
  root_parent hr := by
    obtain ⟨n, hn, hparent⟩ := h.root_parent hr
    exact ⟨_, node?_mapFloats hn, hparent⟩
  nodup_roots := h.nodup_roots

theorem decode_toDocument (h : t.Fits)
    (hx : ∀ n ∈ t.nodes.toList, ∀ x ∈ n.value.floats, x.ReadsAs (f x)) :
    decode (depth + 5) t.toDocument =
      if ∀ n ∈ t.nodes.toList, n.value.nesting ≤ depth + 2 then some (t.mapFloats f)
      else none := by
  have hroots : (Decoder.list Decoder.nat) (depth + 4) (.array (t.roots.map .ofNat)) =
      some t.roots :=
    Decoder.list_array fun r hr ↦ Decoder.nat_ofNat (h.roots r hr)
  rw [decode, toDocument, Record.ofDocument?_record (by simp)]
  simp only [Option.bind_eq_bind, Option.bind_some]
  rw [Record.required_member rfl, Decoder.text_ofText, Option.bind_some,
    Record.required_member rfl, hroots, Option.bind_some, Record.required_member rfl,
    Decoder.list, mapM_map_eq_ite fun n hn ↦ Node.decode_toDocument (h.nodes n hn) (hx n hn)]
  split
  · rw [Option.bind_some, mapFloats, ← Array.toList_map]
    rfl
  · rfl

theorem run_decode_toJson (h : t.Fits)
    (hx : ∀ n ∈ t.nodes.toList, ∀ x ∈ n.value.floats, x.ReadsBack) :
    Decoder.run decode t.toJson =
      if ∀ n ∈ t.nodes.toList, n.value.nesting ≤ 124 then some t else none := by
  have hself : t.mapFloats (fun x ↦ x) = t := mapFloats_eq_self_iff.mpr fun _ _ _ _ ↦ rfl
  have hread : decode (122 + 5) t.toDocument = _ := decode_toDocument h hx
  rw [hself] at hread
  rw [Decoder.run, toJson, Document.parse?_indented, Option.bind_some]
  exact hread

theorem ofJson_eq_ok_iff {s : String} {u : Tree} :
    ofJson s = .ok u ↔ Decoder.run decode s = some u ∧ u.checkLinks = .ok () := by
  rw [ofJson]
  cases Decoder.run decode s with
  | none => simp
  | some v =>
    cases hlinks : v.checkLinks with
    | error e =>
      simp only [hlinks, reduceCtorEq, Option.some.injEq, false_iff, not_and]
      rintro rfl
      simp [hlinks]
    | ok =>
      simp only [hlinks, Except.ok.injEq, Option.some.injEq, iff_self_and]
      rintro rfl
      exact hlinks

/-- What a dump can hold: a tree whose links are accepted, with values that nest at most 124
containers. -/
structure Writable (t : Tree) : Prop where
  fits : t.Fits
  canonical : ∀ n ∈ t.nodes.toList, ∀ x ∈ n.value.floats, x.Canonical
  links : t.checkLinks = .ok ()
  nesting : ∀ n ∈ t.nodes.toList, n.value.nesting ≤ 124

theorem Writable.ofJson_toJson (h : t.Writable) :
    ofJson t.toJson = .ok (t.mapFloats Binary64.reread) := by
  have hx : ∀ n ∈ t.nodes.toList, ∀ x ∈ n.value.floats, x.ReadsAs x.reread :=
    fun n hn x hx ↦ readsAs_reread (h.canonical n hn x hx)
  rw [ofJson_eq_ok_iff, Decoder.run, toJson, Document.parse?_indented, Option.bind_some, maxDepth,
    decode_toDocument h.fits hx, if_pos h.nesting]
  exact ⟨rfl, checkLinks_eq_ok_iff.mpr ((checkLinks_eq_ok_iff.mp h.links).mapFloats _)⟩

theorem Writable.mapFloats_reread_iff (h : t.Writable) :
    t.mapFloats Binary64.reread = t ↔
      ∀ n ∈ t.nodes.toList, ∀ x ∈ n.value.floats, x.ReadsBack := by
  rw [mapFloats_eq_self_iff]
  exact forall₂_congr fun n hn ↦ forall₂_congr fun x hx ↦
    reread_eq_self_iff (h.canonical n hn x hx)

/-- A tree that is written loads again exactly if its links are accepted and no value of a node
nests more than 124 containers, and nothing but the tree itself is loaded. -/
theorem exists_ofJson_toJson_iff {t : Tree} (h : t.Fits)
    (hx : ∀ n ∈ t.nodes.toList, ∀ x ∈ n.value.floats, x.ReadsBack) :
    ((∃ u, ofJson t.toJson = .ok u) ↔
      t.checkLinks = .ok () ∧ ∀ n ∈ t.nodes.toList, n.value.nesting ≤ 124) ∧
    ∀ u, ofJson t.toJson = .ok u → u = t := by
  have hload (u : Tree) : ofJson t.toJson = .ok u ↔
      ((∀ n ∈ t.nodes.toList, n.value.nesting ≤ 124) ∧ t = u) ∧ u.checkLinks = .ok () := by
    rw [ofJson_eq_ok_iff, run_decode_toJson h hx, Option.ite_none_right_eq_some,
      Option.some.injEq]
  refine ⟨⟨fun hu ↦ ?_, fun hu ↦ ?_⟩, fun u hu ↦ ?_⟩
  · obtain ⟨u, hu⟩ := hu
    obtain ⟨⟨hdeep, rfl⟩, hlinks⟩ := (hload u).mp hu
    exact ⟨hlinks, hdeep⟩
  · exact ⟨t, (hload t).mpr ⟨⟨hu.2, rfl⟩, hu.1⟩⟩
  · exact ((hload u).mp hu).1.2.symm

end Tree

def nestedSample : Nat → Value
  | 0 => .object [("\"\\", .number (.float .tenth)),
      ("é\n\x01", .number (.int (-9223372036854775808)))]
  | n + 1 => .array [nestedSample n, .number (.int 18446744073709551615)]

def literalSample (levels : Nat) : Node :=
  ⟨0, none, .literal, none, nestedSample levels, [], ⟨"a\tb.ts", 1, 1, Span.zero⟩⟩

/-- A tree of one literal, whose value is nested. -/
def dumpSample (levels : Nat) : Tree := ⟨"a\tb.ts", [0], #[literalSample levels]⟩

theorem nesting_nestedSample (n : Nat) : (nestedSample n).nesting = n + 1 := by
  induction n with
  | zero => rfl
  | succ n ih =>
    rw [nestedSample, Value.nesting, Value.nestingItems, ih]
    rfl

theorem fits_nestedSample (n : Nat) : (nestedSample n).Fits := by
  induction n with
  | zero =>
    refine ⟨List.pairwise_pair.mpr ?_, trivial, ⟨?_, ?_⟩, trivial⟩
    · decide
    · decide
    · decide
  | succ n ih => exact ⟨ih, ⟨by decide, by decide⟩, trivial⟩

theorem floats_nestedSample (n : Nat) : (nestedSample n).floats = [Binary64.tenth] := by
  induction n with
  | zero => rfl
  | succ n ih =>
    rw [nestedSample, Value.floats, Value.floatsOfItems, ih]
    rfl

theorem forall_dumpSample {levels : Nat} {P : Node → Prop} :
    (∀ n ∈ (dumpSample levels).nodes.toList, P n) ↔ P (literalSample levels) :=
  List.forall_mem_singleton

theorem fits_dumpSample (levels : Nat) : (dumpSample levels).Fits := by
  have hzero : (0 : Nat) < UInt64.size := by decide
  have hone : (1 : Nat) < UInt64.size := by decide
  refine ⟨List.forall_mem_singleton.mpr hzero, forall_dumpSample.mpr ?_⟩
  exact ⟨hzero, nofun, nofun, ⟨hone, hone, hzero, hzero⟩, fits_nestedSample levels⟩

theorem nesting_dumpSample (levels : Nat) :
    ∀ n ∈ (dumpSample levels).nodes.toList, n.value.nesting ≤ levels + 1 :=
  forall_dumpSample.mpr (Nat.le_of_eq (nesting_nestedSample levels))

theorem readsBack_dumpSample (levels : Nat) :
    ∀ n ∈ (dumpSample levels).nodes.toList, ∀ x ∈ n.value.floats, x.ReadsBack := by
  refine forall_dumpSample.mpr fun x hx ↦ ?_
  rw [literalSample, floats_nestedSample] at hx
  cases List.mem_singleton.mp hx
  exact Binary64.readsBack_tenth

/-- The sample loads again with a value that nests 124 containers, and not with one more. -/
theorem exists_ofJson_toJson_iff_dumpSample :
    (dumpSample 123).Fits ∧ Tree.ofJson (dumpSample 123).toJson = .ok (dumpSample 123) ∧
      (dumpSample 124).Fits ∧ (dumpSample 124).checkLinks = .ok () ∧
        ¬ ∃ u, Tree.ofJson (dumpSample 124).toJson = .ok u := by
  refine ⟨fits_dumpSample 123, ?_, fits_dumpSample 124, rfl, ?_⟩
  · obtain ⟨hloads, hsame⟩ :=
      Tree.exists_ofJson_toJson_iff (fits_dumpSample 123) (readsBack_dumpSample 123)
    obtain ⟨u, hu⟩ := hloads.mpr ⟨rfl, nesting_dumpSample 123⟩
    rw [hu, hsame u hu]
  · intro hu
    have hall := ((Tree.exists_ofJson_toJson_iff (fits_dumpSample 124)
      (readsBack_dumpSample 124)).1.mp hu).2
    have hdeep := forall_dumpSample.mp hall
    rw [literalSample, nesting_nestedSample] at hdeep
    exact absurd hdeep (by decide)

theorem writable_dumpSample : (dumpSample 123).Writable where
  fits := fits_dumpSample 123
  canonical := by
    refine forall_dumpSample.mpr fun x hx ↦ ?_
    rw [literalSample, floats_nestedSample] at hx
    cases List.mem_singleton.mp hx
    decide
  links := rfl
  nesting := nesting_dumpSample 123

def floatSample (x : Binary64) : Tree :=
  ⟨"f.ts", [0], #[⟨0, none, .literal, none, .number (.float x), [], ⟨"f.ts", 1, 1, Span.zero⟩⟩]⟩

theorem writable_floatSample {x : Binary64} (h : x.Canonical) : (floatSample x).Writable where
  fits := by
    have hzero : (0 : Nat) < UInt64.size := by decide
    have hone : (1 : Nat) < UInt64.size := by decide
    refine ⟨List.forall_mem_singleton.mpr hzero, List.forall_mem_singleton.mpr ?_⟩
    exact ⟨hzero, nofun, nofun, ⟨hone, hone, hzero, hzero⟩, trivial⟩
  canonical := List.forall_mem_singleton.mpr (List.forall_mem_singleton.mpr h)
  links := rfl
  nesting := List.forall_mem_singleton.mpr (Nat.zero_le _)

theorem mapFloats_floatSample (f : Binary64 → Binary64) (x : Binary64) :
    (floatSample x).mapFloats f = floatSample (f x) := by
  simp [floatSample, Tree.mapFloats, Node.mapFloats, Value.mapFloats]

theorem floatSample_inj {x y : Binary64} : floatSample x = floatSample y ↔ x = y := by
  simp [floatSample]

theorem ofJson_drifting :
    Tree.ofJson (floatSample .drifting).toJson = .ok (floatSample .drifted) := by
  have hread := (writable_floatSample (x := .drifting) (by decide)).ofJson_toJson
  rwa [mapFloats_floatSample, Binary64.readsAs_drifting.reread_eq] at hread

end AnyFlow
