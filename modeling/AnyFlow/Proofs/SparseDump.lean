import AnyFlow.Proofs.Json.Rewrite
import AnyFlow.Proofs.TreeDump

namespace AnyFlow

open Json Document

variable {depth : Nat} {e : Document}

namespace Kind

theorem exists_members (k : Kind) :
    ∃ members : List (String × Document),
      k.toDocument = .record (("type", .ofText k.tag) :: members) ∧
        "type" ∉ members.map Prod.fst ∧ (members.map Prod.fst).Nodup := by
  cases k <;> exact ⟨_, rfl, by simp, by simp⟩

theorem ofTagged?_reorder {members others : List (String × Document)} (tag : String)
    (h : others.Perm members) (hn : (members.map Prod.fst).Nodup) :
    ofTagged? tag (depth + 1) (.record others) = ofTagged? tag (depth + 1) (.record members) := by
  unfold ofTagged?
  simp only [Record.ofDocument?_reorder h hn]

theorem decode_reorder {k : Kind} (h : Reorder k.toDocument e) :
    decode (depth + 1) e = decode (depth + 1) k.toDocument := by
  obtain ⟨members, hdoc, hfresh, hn⟩ := k.exists_members
  rw [hdoc] at h ⊢
  generalize hd : record (("type", ofText k.tag) :: members) = d at h
  obtain @⟨full, others, hperm⟩ := h
  cases record_inj.mp hd
  obtain ⟨rest, hrest, htagged⟩ := Tagged.ofDocument?_reorder hperm hfresh
  have hfits : (record others).fits (depth + 1) ↔
      (record (("type", ofText k.tag) :: members)).fits (depth + 1) := by
    rw [fits_record_iff, fits_record_iff]
    exact forall_congr' fun m ↦ by rw [hperm.mem_iff]
  rw [decode, decode, htagged, Tagged.ofDocument?_record _ hfresh]
  simp only [Option.bind_eq_bind, Option.bind_some, Decoder.text_ofText,
    ofTagged?_reorder _ hrest hn, if_congr hfits rfl rfl]

end Kind

namespace Span

def leeway (_ : String) : Leeway := .fixed

theorem decode_rewrite {s : Span} (h : Rewrite leeway s.toDocument e) :
    decode (depth + 1) e = decode (depth + 1) s.toDocument := by
  obtain ⟨slot, hslots, hslot⟩ :=
    Record.exists_slot_of_rewrite ["start", "end"] depth h rfl (by simp)
  rw [decode, decode, hslots, toDocument, Record.ofDocument?_record (by simp)]
  simp only [Option.bind_eq_bind, Option.bind_some]
  rw [Record.required_fixed (hslot "start" _ rfl), Record.required_fixed (hslot "end" _ rfl),
    Record.required_member rfl, Record.required_member rfl]

end Span

namespace Location

def leeway : String → Leeway
  | "span" => ⟨(· = Span.zero.toDocument), Rewrite Span.leeway⟩
  | _ => .fixed

theorem decode_rewrite {l : Location} (h : Rewrite leeway l.toDocument e) :
    decode (depth + 2) e = decode (depth + 2) l.toDocument := by
  obtain ⟨slot, hslots, hslot⟩ :=
    Record.exists_slot_of_rewrite ["file", "line", "column", "span"] (depth + 1) h rfl (by simp)
  have hspan : Record.withDefault ⟨depth + 1, slot⟩ "span" Span.zero Span.decode =
      Span.decode (depth + 1) l.span.toDocument :=
    Record.withDefault_of_holds (hslot "span" _ rfl) (fun _ he ↦ Span.decode_rewrite he)
      fun hzero ↦ hzero ▸ Span.decode_toDocument (by decide) (by decide)
  rw [decode, decode, hslots, toDocument, Record.ofDocument?_record (by simp)]
  simp only [Option.bind_eq_bind, Option.bind_some]
  rw [Record.required_fixed (hslot "file" _ rfl), Record.required_fixed (hslot "line" _ rfl),
    Record.required_fixed (hslot "column" _ rfl), hspan, Record.required_member rfl,
    Record.required_member rfl, Record.required_member rfl, Record.withDefault_member rfl]

end Location

namespace Node

def leeway : String → Leeway
  | "parent" | "field" | "value" => .omissible .null
  | "children" => .omissible (.array [])
  | "kind" => .nested Reorder
  | "meta" => .nested (Rewrite Location.leeway)
  | _ => .fixed

theorem decode_rewrite {n : Node} (h : Rewrite leeway n.toDocument e) :
    decode (depth + 3) e = decode (depth + 3) n.toDocument := by
  obtain ⟨slot, hslots, hslot⟩ :=
    Record.exists_slot_of_rewrite ["id", "parent", "kind", "field", "value", "children", "meta"]
      (depth + 2) h rfl (by simp)
  have hkind : Record.required ⟨depth + 2, slot⟩ "kind" Kind.decode =
      Kind.decode (depth + 2) n.kind.toDocument :=
    Record.required_of_holds (hslot "kind" _ rfl) (fun _ he ↦ Kind.decode_reorder he) not_false
  have hlocation : Record.required ⟨depth + 2, slot⟩ "meta" Location.decode =
      Location.decode (depth + 2) n.location.toDocument :=
    Record.required_of_holds (hslot "meta" _ rfl) (fun _ he ↦ Location.decode_rewrite he)
      not_false
  rw [decode, decode, hslots, toDocument, Record.ofDocument?_record (by simp)]
  simp only [Option.bind_eq_bind, Option.bind_some]
  rw [Record.required_fixed (hslot "id" _ rfl), Record.optional_omissible (hslot "parent" _ rfl),
    hkind, Record.withDefault_omissible (hslot "field" _ rfl) rfl,
    Record.withDefault_omissible (hslot "value" _ rfl) rfl,
    Record.withDefault_omissible (hslot "children" _ rfl) rfl, hlocation,
    Record.required_member rfl, Record.optional_member rfl, Record.required_member rfl,
    Record.withDefault_member rfl, Record.withDefault_member rfl, Record.withDefault_member rfl,
    Record.required_member rfl]

end Node

namespace Tree

def leeway : String → Leeway
  | "nodes" => .nested (RewriteItems (Rewrite Node.leeway))
  | _ => .fixed

theorem decode_rewrite {t : Tree} (h : Rewrite leeway t.toDocument e) :
    decode (depth + 5) e = decode (depth + 5) t.toDocument := by
  obtain ⟨slot, hslots, hslot⟩ :=
    Record.exists_slot_of_rewrite ["file_path", "roots", "nodes"] (depth + 4) h rfl (by simp)
  have hnodes : Record.required ⟨depth + 4, slot⟩ "nodes" (Decoder.list Node.decode) =
      (Decoder.list Node.decode) (depth + 4) (.array (t.nodes.toList.map Node.toDocument)) := by
    refine Record.required_of_holds (hslot "nodes" _ rfl) (fun e he ↦ ?_) not_false
    obtain ⟨hitems⟩ := he
    refine (mapM_eq_of_forall₂ (List.forall₂_map_left_iff.mpr ?_)).symm
    exact (List.forall₂_map_left_iff.mp hitems).imp fun n e hn ↦ (Node.decode_rewrite hn).symm
  rw [decode, decode, hslots, toDocument, Record.ofDocument?_record (by simp)]
  simp only [Option.bind_eq_bind, Option.bind_some]
  rw [Record.required_fixed (hslot "file_path" _ rfl), Record.required_fixed (hslot "roots" _ rfl),
    hnodes, Record.required_member rfl, Record.required_member rfl, Record.required_member rfl]

theorem ofJson_rewrite {t : Tree} {s : String} (h : Rewrite leeway t.toDocument e)
    (hs : parse? s = some e) : ofJson s = ofJson t.toJson := by
  have hrun : Decoder.run decode s = Decoder.run decode t.toJson := by
    rw [Decoder.run, Decoder.run, hs, toJson, parse?_indented, Option.bind_some, Option.bind_some]
    exact decode_rewrite h
  rw [ofJson, ofJson, hrun]

/-- Any text of a dump that is written otherwise loads as the tree with each float in a value as its
digits are read: as the tree itself exactly if they read back. White space and the spelling of the
tokens do not matter. -/
theorem ofJson_written_otherwise {t : Tree} (h : t.Writable) :
    (∀ (e : Document) (s : String), Rewrite leeway t.toDocument e → parse? s = some e →
      ofJson s = .ok (t.mapFloats Binary64.reread)) ∧
    (∀ (e : Document) (s : String), Token.Spells s.toList e.tokens → parse? s = some e) ∧
    (t.mapFloats Binary64.reread = t ↔
      ∀ n ∈ t.nodes.toList, ∀ x ∈ n.value.floats, x.ReadsBack) := by
  refine ⟨fun e s he hs ↦ ?_, fun e s ↦ parse?_of_spells, h.mapFloats_reread_iff⟩
  rw [ofJson_rewrite he hs, h.ofJson_toJson]

/-- A number that is too large and a string with half a surrogate pair. -/
def noteSample : Document :=
  .array [.numeral ⟨false, 1, [], some 400⟩, .text [.char '/' (by decide), .unit 0xD83D]]

/-- The sample's node with as few members as can be, in reverse order, and a note that has no
value. -/
def sparseNode (x : Binary64) : Document :=
  .record [("note", noteSample),
    ("meta", .record [("column", .ofNat 1), ("line", .ofNat 1), ("file", .ofText "f.ts")]),
    ("value", .numeral (.ofFloat x)), ("kind", .record [("type", .ofText "Literal")]),
    ("id", .ofNat 0)]

def sparseDocument (x : Binary64) : Document :=
  .record [("nodes", .array [sparseNode x]), ("roots", .array [.ofNat 0]),
    ("file_path", .ofText "f.ts")]

theorem rewrite_sparseDocument (x : Binary64) :
    Rewrite leeway (floatSample x).toDocument (sparseDocument x) := by
  have hlocation : Rewrite Location.leeway (Location.mk "f.ts" 1 1 Span.zero).toDocument
      (.record [("column", .ofNat 1), ("line", .ofNat 1), ("file", .ofText "f.ts")]) :=
    .intro (.keep rfl (.keep rfl (.keep rfl (.leave rfl .nil)))) (List.forall_mem_nil _)
      (List.reverse_perm _).symm
  have hkind : Reorder Kind.literal.toDocument (.record [("type", .ofText "Literal")]) :=
    .intro (.refl _)
  have hnote : ∀ m ∈ [(Quoted.ofText "note", noteSample)],
      ∃ k, m.1.text? = some k ∧
        k ∉ ["id", "parent", "kind", "field", "value", "children", "meta"] :=
    List.forall_mem_singleton.mpr ⟨"note", Quoted.text?_ofText _, by decide⟩
  have hnodes : RewriteItems (Rewrite Node.leeway)
      (.array ((floatSample x).nodes.toList.map Node.toDocument)) (.array [sparseNode x]) :=
    .intro (.cons (.intro (.keep rfl (.leave rfl (.keep hkind (.leave rfl (.keep rfl
      (.leave rfl (.keep hlocation .nil))))))) hnote (List.reverse_perm _).symm) .nil)
  exact .intro (.keep rfl (.keep rfl (.keep hnodes .nil))) (List.forall_mem_nil _)
    (List.reverse_perm _).symm

theorem spells_sparseDocument (x : Binary64) :
    Token.Spells (sparseDocument x).compact.toList (sparseDocument x).tokens := by
  rw [compact, String.toList_ofList]
  exact spells_compact _

def sparseText : String :=
  "\x7b\"nodes\": [\x7b\"note\": [1E400, \"\\/\\uD83d\"], " ++
    "\"meta\": \x7b\"column\": 1, \"line\": 1, \"file\": \"f.ts\"\x7d, " ++
    "\"value\": 0.1, \"kind\": \x7b\"type\": \"Literal\"\x7d, \"id\": 0\x7d], " ++
    "\"roots\": [0], \"file_path\": \"f.ts\" \x7d"

theorem parse?_sparseText : parse? sparseText = some (sparseDocument .tenth) := by
  have hscan : Token.scan sparseText.toList = some (sparseDocument .tenth).tokens := by
    decide +kernel
  rw [parse?, ofChars?, hscan, Option.bind_some, ofTokens?_tokens]

theorem ofJson_written_otherwise_tenth :
    (floatSample .tenth).Writable ∧
      Rewrite leeway (floatSample .tenth).toDocument (sparseDocument .tenth) ∧
      parse? sparseText = some (sparseDocument .tenth) ∧
      ofJson sparseText = .ok (floatSample .tenth) ∧
      Token.Spells (sparseDocument .tenth).compact.toList (sparseDocument .tenth).tokens ∧
      ofJson (sparseDocument .tenth).compact = .ok (floatSample .tenth) := by
  have hwritable : (floatSample .tenth).Writable := writable_floatSample (by decide)
  obtain ⟨hload, hparse, hself⟩ := ofJson_written_otherwise hwritable
  have hsame : (floatSample .tenth).mapFloats Binary64.reread = floatSample .tenth :=
    hself.mpr (List.forall_mem_singleton.mpr
      (List.forall_mem_singleton.mpr Binary64.readsBack_tenth))
  rw [hsame] at hload
  exact ⟨hwritable, rewrite_sparseDocument _, parse?_sparseText,
    hload _ _ (rewrite_sparseDocument _) parse?_sparseText, spells_sparseDocument _,
    hload _ _ (rewrite_sparseDocument _) (hparse _ _ (spells_sparseDocument _))⟩

/-- A sparse dump may load as another tree than the one that it was written for. -/
theorem sparse_dump_of_drifting_loads_otherwise :
    (floatSample .drifting).Writable ∧
      Rewrite leeway (floatSample .drifting).toDocument (sparseDocument .drifting) ∧
      Token.Spells (sparseDocument .drifting).compact.toList (sparseDocument .drifting).tokens ∧
      ofJson (sparseDocument .drifting).compact = .ok (floatSample .drifted) ∧
      floatSample .drifted ≠ floatSample .drifting := by
  refine ⟨writable_floatSample (by decide), rewrite_sparseDocument _, spells_sparseDocument _,
    ?_, ?_⟩
  · rw [ofJson_rewrite (rewrite_sparseDocument _) (parse?_of_spells (spells_sparseDocument _)),
      ofJson_drifting]
  · rw [ne_eq, floatSample_inj]
    decide

end Tree

end AnyFlow
