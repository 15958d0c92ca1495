import AnyFlow.Proofs.Json.Continuation
import AnyFlow.Proofs.Json.Reader
import Mathlib.Data.List.Basic

namespace AnyFlow.Json

namespace Reader

variable {r : Reader} {t : Token} {ts us : List Token} {n : Numeral} {d : Document}

theorem run_append (r : Reader) (ts us : List Token) :
    run r (ts ++ us) = (run r ts).bind (run · us) := List.foldlM_append

theorem run_concat (r : Reader) (ts : List Token) (t : Token) :
    run r (ts ++ [t]) = (run r ts).bind (step · t) := by
  have hone (r : Reader) : run r [t] = step r t := bind_pure (step r t)
  simp only [run_append, hone]

/-- A complete document is followed by nothing. -/
theorem run_done_eq (h : run (.done d) ts = some r) : ts = [] ∧ r = .done d := by
  cases ts with
  | nil =>
    cases h
    exact ⟨rfl, rfl⟩
  | cons t ts => cases h

theorem accept_eq_done {e : Document} {outer : List Frame} (h : accept d outer = .done e) :
    outer = [] ∧ d = e := by
  cases outer with
  | nil =>
    cases h
    exact ⟨rfl, rfl⟩
  | cons f outer => cases f <;> cases h

theorem accept_ne_value {outer : List Frame} : accept d outer ≠ .value [] := by
  cases outer with
  | nil => exact nofun
  | cons f outer => cases f <;> exact nofun

theorem step_ne_value : step r t ≠ some (.value []) := by
  have hvalue (outer : List Frame) : stepValue outer t ≠ some (.value []) := by
    cases t <;> simp [stepValue, accept_ne_value]
  fun_cases step r t <;> simp [hvalue, accept_ne_value]

/-- A numeral completes no document but itself, and no other token completes a numeral. -/
theorem of_step_done (h : step r t = some (.done d)) (hn : t.isNumeral ∨ ∃ n, d = .numeral n) :
    r = .value [] ∧ ∃ n, t = .numeral n ∧ d = .numeral n := by
  have hvalue {outer : List Frame} (h : stepValue outer t = some (.done d)) :
      outer = [] ∧ ∃ n, t = .numeral n ∧ d = .numeral n := by
    cases t with
    | numeral n =>
      obtain ⟨rfl, rfl⟩ := accept_eq_done (Option.some.inj h)
      exact ⟨rfl, n, rfl, rfl⟩
    | null | bool b | text q =>
      obtain ⟨-, rfl⟩ := accept_eq_done (Option.some.inj h)
      simp [Token.isNumeral] at hn
    | _ => simp [stepValue] at h
  revert h
  fun_cases step r t
  case case1 outer =>
    intro h
    obtain ⟨rfl, hn⟩ := hvalue h
    exact ⟨rfl, hn⟩
  case case3 outer _ =>
    intro h
    cases (hvalue h).1
  case case2 | case4 | case9 | case11 =>
    intro h
    obtain ⟨-, rfl⟩ := accept_eq_done (Option.some.inj h)
    simp [Token.isNumeral] at hn
  all_goals exact nofun

end Reader

namespace Document

open Token

variable {ts : List Token} {d e : Document} {cs s : List Char}

theorem run_of_ofTokens? (h : ofTokens? ts = some d) :
    Reader.run (.value []) ts = some (.done d) := by
  obtain ⟨r, hr, hd⟩ := Option.bind_eq_some_iff.mp h
  cases r with
  | done e =>
    cases hd
    exact hr
  | _ => cases hd

theorem eq_numeral_of_ofTokens? (h : ofTokens? ts = some d)
    (hn : (∃ t ∈ ts.getLast?, t.isNumeral) ∨ ∃ n, d = .numeral n) :
    ∃ n, ts = [.numeral n] ∧ d = .numeral n := by
  have hrun := run_of_ofTokens? h
  rcases List.eq_nil_or_concat' ts with rfl | ⟨us, t, rfl⟩
  · cases hrun
  rw [Reader.run_concat] at hrun
  obtain ⟨r, hr, hstep⟩ := Option.bind_eq_some_iff.mp hrun
  obtain ⟨rfl, n, rfl, rfl⟩ := Reader.of_step_done hstep (by simpa using hn)
  -- the reader expects a first token before any step only
  rcases List.eq_nil_or_concat' us with rfl | ⟨vs, u, rfl⟩
  · exact ⟨n, rfl, rfl⟩
  · rw [Reader.run_concat] at hr
    obtain ⟨q, -, hq⟩ := Option.bind_eq_some_iff.mp hr
    exact absurd hq Reader.step_ne_value

theorem of_ofChars?_append (h : ofChars? cs = some d) (hd : ∀ n, d ≠ .numeral n)
    (he : ofChars? (cs ++ s) = some e) : e = d ∧ ∀ c ∈ s, isBlank c := by
  obtain ⟨ts, hts, hread⟩ := Option.bind_eq_some_iff.mp h
  obtain ⟨us, hus, hread'⟩ := Option.bind_eq_some_iff.mp he
  have hlast : ∀ t ∈ ts.getLast?, t.isNumeral = false := fun t ht ↦ by
    by_contra hn
    rw [Bool.not_eq_false] at hn
    obtain ⟨n, -, hdn⟩ := eq_numeral_of_ofTokens? hread (.inl ⟨t, ht, hn⟩)
    exact hd n hdn
  obtain ⟨vs, rfl, hvs⟩ := (scans_of_scan hts).of_append hlast (scans_of_scan hus)
  have hrun := run_of_ofTokens? hread'
  rw [Reader.run_append, run_of_ofTokens? hread, Option.bind_some] at hrun
  obtain ⟨rfl, hdone⟩ := Reader.run_done_eq hrun
  cases hdone
  exact ⟨rfl, hvs.blank_of_nil⟩

theorem ofChars?_indented_append (h : ∀ c ∈ s, isBlank c) :
    ofChars? (d.indentedChars 0 ++ s) = some d := by
  have hspells := spells_indented 0 d (Spells.nil.blanks h)
  rw [List.append_nil, List.append_nil] at hspells
  exact ofChars?_of_spells hspells

/-- The text of a document that is no number may be followed by white space and by nothing else. -/
theorem parse?_indented_append (hd : ∀ n, d ≠ .numeral n) (s : String) :
    parse? (d.indented ++ s) = if s.toList.all isBlank then some d else none := by
  rw [parse?, String.toList_append, indented, String.toList_ofList]
  split
  · rename_i hs
    exact ofChars?_indented_append (List.all_eq_true.mp hs)
  · rename_i hs
    cases he : ofChars? (d.indentedChars 0 ++ s.toList) with
    | none => rfl
    | some e =>
      have hblank := (of_ofChars?_append d.ofChars?_indentedChars hd he).2
      exact absurd (List.all_eq_true.mpr hblank) hs

variable {ms : List (Quoted × Document)}

theorem exists_indentedChars_object (ms : List (Quoted × Document)) :
    ∃ cs, (Document.object ms).indentedChars 0 = '\x7b' :: (cs ++ ['\x7d']) := by
  cases ms with
  | nil => exact ⟨[], rfl⟩
  | cons m ms => exact ⟨_, rfl⟩

theorem not_scans_numeral {n : Numeral} : ¬ Scans ('\x7b' :: cs) [.numeral n] := by
  intro h
  cases h with
  | blank hc => exact absurd hc (by decide)
  | token _ hread => cases hread

/-- No text of a document is an object's text cut short. -/
theorem parse?_of_append_eq {p q : String} (h : p ++ q = (Document.object ms).indented)
    (hq : q ≠ "") : parse? p = none := by
  obtain ⟨cs, hcs⟩ := exists_indentedChars_object ms
  have hsplit : p.toList ++ q.toList = '\x7b' :: (cs ++ ['\x7d']) := by
    rw [← String.toList_append, h, indented, String.toList_ofList, hcs]
  have hwhole : ofChars? (p.toList ++ q.toList) = some (.object ms) := by
    rw [hsplit, ← hcs]
    exact ofChars?_indentedChars _
  have hend : '\x7d' ∈ q.toList := by
    have hlast := congrArg List.getLast? hsplit
    rw [← List.cons_append, List.getLast?_concat, List.getLast?_append_of_ne_nil] at hlast
    · exact List.mem_of_getLast? hlast
    · simpa using hq
  rw [Option.eq_none_iff_forall_ne_some]
  intro d hd
  have hnumeral : ∀ n, d ≠ .numeral n := by
    rintro n rfl
    obtain ⟨ts, hts, hread⟩ := Option.bind_eq_some_iff.mp hd
    obtain ⟨m, rfl, -⟩ := eq_numeral_of_ofTokens? hread (.inr ⟨n, rfl⟩)
    have hscan := scans_of_scan hts
    cases hp : p.toList with
    | nil => rw [hp] at hscan; cases hscan
    | cons c cs =>
      rw [hp] at hscan hsplit
      rw [(List.cons.inj hsplit).1] at hscan
      exact not_scans_numeral hscan
  have hblank := (of_ofChars?_append hd hnumeral hwhole).2 _ hend
  exact absurd hblank (by decide)

end Document

end AnyFlow.Json
