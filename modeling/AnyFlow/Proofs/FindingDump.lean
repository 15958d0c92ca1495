import AnyFlow.Finding.Basic
import AnyFlow.Proofs.TreeDump

namespace AnyFlow.Finding

open Json

variable {depth : Nat} {f : Finding}

structure Fits (f : Finding) : Prop where
  anchor : f.anchor < UInt64.size
  location : f.location.Fits

theorem decode_toDocument (h : f.Fits) : decode (depth + 3) f.toDocument = some f := by
  have hdata : (Decoder.members Quoted.text? Decoder.text) (depth + 2)
      (.record (f.data.entries.map fun x ↦ (x.1, .ofText x.2))) = some f.data.entries :=
    Decoder.members_record (f := fun k ↦ k) fun x _ ↦
      ⟨Quoted.text?_ofText x.1, Decoder.text_ofText x.2⟩
  rw [decode, toDocument, Record.ofDocument?_record (by simp)]
  simp only [Option.bind_eq_bind, Option.bind_some]
  rw [Record.required_member rfl, Decoder.text_ofText, Option.bind_some,
    Record.required_member rfl, Decoder.keyword_word, Option.bind_some,
    Record.required_member rfl, Decoder.nat_ofNat h.anchor, Option.bind_some,
    Record.required_member rfl, Location.decode_toDocument h.location, Option.bind_some,
    Record.withDefault_member rfl, hdata, Option.bind_some, Dict.ofList_entries]
  rfl

theorem run_decode_compact (h : f.Fits) : Decoder.run decode f.toDocument.compact = some f := by
  rw [Decoder.run, Document.parse?_compact, Option.bind_some]
  exact decode_toDocument h

/-- A finding is read from its compact text, and no other finding has that text. -/
theorem compact_tells_finding {f : Finding} (h : f.Fits) :
    Decoder.run decode f.toDocument.compact = some f ∧
      ∀ g : Finding, g.Fits → g.toDocument.compact = f.toDocument.compact → g = f := by
  refine ⟨run_decode_compact h, fun g hg he ↦ ?_⟩
  have hread := run_decode_compact hg
  rw [he, run_decode_compact h] at hread
  exact (Option.some.inj hread).symm

/-- Quotation marks, backslashes, control characters, braces and keys out of order. -/
def wireSample : Finding :=
  ⟨"no-\"unsafe\"-any\\", .assigned, 18446744073709551615,
    ⟨"é\n\x01\x7f/😀.ts", 18446744073709551615, 0, ⟨7, 3⟩⟩,
    .ofList [("operator", "\x7b\x7boperator\x7d\x7d"),
      ("", "\t"), ("a\"b", "\\u0041"), ("", "last")]⟩

theorem compact_tells_wireSample :
    wireSample.Fits ∧ Decoder.run decode wireSample.toDocument.compact = some wireSample ∧
      wireSample.data.keys = ["", "a\"b", "operator"] ∧
      ({ wireSample with anchor := 0 } : Finding).toDocument.compact ≠
        wireSample.toDocument.compact := by
  have hfits : wireSample.Fits := ⟨by decide, by decide, by decide, by decide, by decide⟩
  have hzero : ({ wireSample with anchor := 0 } : Finding).Fits := ⟨by decide, hfits.location⟩
  obtain ⟨hread, hsame⟩ := compact_tells_finding hfits
  refine ⟨hfits, hread, by decide, fun he ↦ ?_⟩
  have hanchor : 0 = wireSample.anchor := congrArg Finding.anchor (hsame _ hzero he)
  exact absurd hanchor (by decide)

end AnyFlow.Finding
