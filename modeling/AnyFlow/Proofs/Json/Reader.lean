import AnyFlow.Proofs.Json.Text

namespace AnyFlow.Json

namespace Reader

open Document

variable {r s : Reader} {t : Token} {ts : List Token} {outer : List Frame}

theorem run_cons (h : step r t = some s) : run r (t :: ts) = run s ts := by
  rw [run, List.foldlM_cons, h]
  rfl

theorem exists_tokens (d : Document) : ∃ t ts, d.tokens = t :: ts ∧ t ≠ .endArray := by
  cases d with
  | array ds => cases ds <;> exact ⟨.beginArray, _, rfl, by decide⟩
  | object ms => cases ms <;> exact ⟨.beginObject, _, rfl, by decide⟩
  | _ => exact ⟨_, _, rfl, by simp⟩

theorem run_firstItem (d : Document) (outer : List Frame) (ts : List Token) :
    run (.firstItem outer) (d.tokens ++ ts) =
      run (.value (.array [] :: outer)) (d.tokens ++ ts) := by
  obtain ⟨t, us, he, ht⟩ := exists_tokens d
  have hstep : step (.firstItem outer) t = step (.value (.array [] :: outer)) t := by
    cases t <;> first | rfl | exact absurd rfl ht
  rw [he, List.cons_append, run, run, List.foldlM_cons, List.foldlM_cons, hstep]

mutual

/-- The reader goes on as it does after the document. -/
theorem run_tokens (d : Document) (outer : List Frame) (ts : List Token) :
    run (.value outer) (d.tokens ++ ts) = run (accept d outer) ts := by
  match d with
  | .null => exact run_cons rfl
  | .bool b => exact run_cons rfl
  | .numeral n => exact run_cons rfl
  | .text q => exact run_cons rfl
  | .array [] => exact (run_cons rfl).trans (run_cons rfl)
  | .array (d :: ds) =>
    -- the first item is read in the new frame, the others join it there
    simp only [tokens, List.cons_append, List.append_assoc]
    rw [run_cons rfl, run_firstItem, run_tokens d]
    exact run_tokensItems ds [d] outer ts
  | .object [] => exact (run_cons rfl).trans (run_cons rfl)
  | .object ((k, d) :: ms) =>
    simp only [tokens, List.cons_append, List.append_assoc]
    rw [run_cons rfl, run_cons rfl, run_cons rfl, run_tokens d]
    exact run_tokensMembers ms [(k, d)] outer ts
termination_by structural d

theorem run_tokensItems (ds items : List Document) (outer : List Frame) (ts : List Token) :
    run (.afterItem items outer) (tokensItems ds ++ (.endArray :: ts)) =
      run (accept (.array (items.reverse ++ ds)) outer) ts := by
  match ds with
  | [] =>
    rw [List.append_nil]
    exact run_cons rfl
  | d :: ds =>
    simp only [tokensItems, List.cons_append, List.append_assoc]
    rw [run_cons rfl, run_tokens d, accept, run_tokensItems ds (d :: items), List.reverse_cons,
      List.append_assoc, List.singleton_append]
termination_by structural ds

theorem run_tokensMembers (ms members : List (Quoted × Document)) (outer : List Frame)
    (ts : List Token) :
    run (.afterMember members outer) (tokensMembers ms ++ (.endObject :: ts)) =
      run (accept (.object (members.reverse ++ ms)) outer) ts := by
  match ms with
  | [] =>
    rw [List.append_nil]
    exact run_cons rfl
  | (k, d) :: ms =>
    simp only [tokensMembers, List.cons_append, List.append_assoc]
    rw [run_cons rfl, run_cons rfl, run_cons rfl, run_tokens d, accept,
      run_tokensMembers ms ((k, d) :: members), List.reverse_cons, List.append_assoc,
      List.singleton_append]
termination_by structural ms

end

end Reader

namespace Document

theorem ofTokens?_tokens (d : Document) : ofTokens? d.tokens = some d := by
  have h := Reader.run_tokens d [] []
  rw [List.append_nil] at h
  rw [ofTokens?, h]
  rfl

theorem ofChars?_of_spells {d : Document} {cs : List Char} (h : Token.Spells cs d.tokens) :
    ofChars? cs = some d := by
  rw [ofChars?, scan_of_spells h, Option.bind_some, ofTokens?_tokens]

theorem parse?_of_spells {d : Document} {s : String} (h : Token.Spells s.toList d.tokens) :
    parse? s = some d := ofChars?_of_spells h

theorem ofChars?_indentedChars (d : Document) : ofChars? (d.indentedChars 0) = some d := by
  have h := spells_indented 0 d .nil
  rw [List.append_nil, List.append_nil] at h
  exact ofChars?_of_spells h

theorem parse?_compact (d : Document) : parse? d.compact = some d := by
  rw [parse?, compact, String.toList_ofList]
  exact ofChars?_of_spells d.spells_compact

theorem parse?_indented (d : Document) : parse? d.indented = some d := by
  rw [parse?, indented, String.toList_ofList]
  exact d.ofChars?_indentedChars

end Document

end AnyFlow.Json
