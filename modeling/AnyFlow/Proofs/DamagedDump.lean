import AnyFlow.Proofs.Json.Cut
import AnyFlow.Proofs.TreeDump

namespace AnyFlow

open Json

namespace Tree

variable {t : Tree} {s : String}

theorem ofJson_of_parse?_eq (h : Document.parse? s = none) : ofJson s = .error .undecodable := by
  rw [ofJson, Decoder.run, h]
  rfl

theorem ofJson_toJson_append (t : Tree) (s : String) :
    ofJson (t.toJson ++ s) =
      if s.toList.all Token.isBlank then ofJson t.toJson else .error .undecodable := by
  have hparse := Document.parse?_indented_append (d := t.toDocument) nofun s
  split
  · rename_i hs
    rw [if_pos hs, ← Document.parse?_indented] at hparse
    rw [ofJson, ofJson, Decoder.run, Decoder.run, toJson, hparse]
  · rename_i hs
    rw [if_neg hs] at hparse
    exact ofJson_of_parse?_eq hparse

/-- A dump that is cut short does not decode. A dump that goes on decodes only if white space
follows, and then it loads as the tree with each float in a value as its digits are read: as the
tree itself exactly if they read back. -/
theorem ofJson_cut_or_carried_on {t : Tree} (h : t.Writable) :
    (∀ p q : String, p ++ q = t.toJson → q ≠ "" → ofJson p = .error .undecodable) ∧
    (∀ s : String,
      ofJson (t.toJson ++ s) =
        if s.toList.all Token.isBlank then .ok (t.mapFloats Binary64.reread)
        else .error .undecodable) ∧
    (t.mapFloats Binary64.reread = t ↔
      ∀ n ∈ t.nodes.toList, ∀ x ∈ n.value.floats, x.ReadsBack) := by
  refine ⟨fun p q hpq hq ↦ ofJson_of_parse?_eq (Document.parse?_of_append_eq hpq hq),
    fun s ↦ ?_, h.mapFloats_reread_iff⟩
  rw [ofJson_toJson_append, h.ofJson_toJson]

theorem ofJson_cut_or_carried_on_dumpSample :
    ofJson ((dumpSample 123).toJson ++ " \n\t\r") = .ok (dumpSample 123) ∧
      ofJson ((dumpSample 123).toJson ++ " ,") = .error .undecodable ∧
      ofJson (String.ofList (dumpSample 123).toJson.toList.dropLast) = .error .undecodable := by
  obtain ⟨hcut, happend, hself⟩ := ofJson_cut_or_carried_on writable_dumpSample
  obtain ⟨cs, hcs⟩ : ∃ cs, (dumpSample 123).toJson.toList = cs ++ ['\x7d'] := by
    obtain ⟨ms, hms⟩ : ∃ ms, (dumpSample 123).toDocument = .object ms := ⟨_, rfl⟩
    obtain ⟨cs, hcs⟩ := Document.exists_indentedChars_object ms
    exact ⟨'\x7b' :: cs, by rw [toJson, Document.indented, String.toList_ofList, hms, hcs]; rfl⟩
  refine ⟨?_, ?_, ?_⟩
  · rw [happend, if_pos (by decide), hself.mpr (readsBack_dumpSample 123)]
  · rw [happend, if_neg (by decide)]
  · refine hcut _ "\x7d" ?_ (by decide)
    rw [hcs, List.dropLast_concat, ← String.toList_inj, String.toList_append, hcs,
      String.toList_ofList]
    rfl

/-- A dump may load as another tree than the one that was written. -/
theorem dump_of_drifting_loads_otherwise :
    (floatSample .drifting).Writable ∧
      ofJson ((floatSample .drifting).toJson ++ " ") = .ok (floatSample .drifted) ∧
      floatSample .drifted ≠ floatSample .drifting := by
  refine ⟨writable_floatSample (by decide), ?_, ?_⟩
  · rw [ofJson_toJson_append, if_pos (by decide), ofJson_drifting]
  · rw [ne_eq, floatSample_inj]
    decide

end Tree

end AnyFlow
