import Mathlib.Data.List.Forall2
import AnyFlow.Json.Quoted

namespace AnyFlow.Json

variable {c e : Char} {rest : List Char}

theorem ofShortEscape?_of_shortEscape? (h : shortEscape? c = some e) :
    ofShortEscape? e = some c := by
  unfold shortEscape? at h
  split at h <;> cases h <;> rfl

namespace Piece

theorem ofChar_plain (h : IsPlain c) : ofChar c = .char c h := dif_pos h

theorem ofHexDigit?_hexDigit (n : Nat) : ofHexDigit? (hexDigit n) = some (n % 16) := by
  have hall : ∀ d, d < 16 → ofHexDigit? (Nat.digitChar d) = some d := by decide
  exact hall _ (Nat.mod_lt n (by decide))

theorem unit_of_digits (u : UInt16) :
    (u.toNat / 4096 % 16 * 4096 + u.toNat / 256 % 16 * 256 + u.toNat / 16 % 16 * 16 +
      u.toNat % 16).toUInt16 = u := by
  have hlt := u.toNat_lt
  rw [show u.toNat / 4096 % 16 * 4096 + u.toNat / 256 % 16 * 256 + u.toNat / 16 % 16 * 16 +
    u.toNat % 16 = u.toNat by omega]
  exact UInt16.ofNat_toNat

/-- How a string may write a piece: a solidus may be escaped, and so may the hexadecimal digits of a
unit be of either case. -/
inductive Spells : List Char → Piece → Prop
  | plain {c : Char} (hc : ' ' ≤ c) (hquote : c ≠ '"') (hslash : c ≠ '\\') :
    Spells [c] (.char c (.inl hc))
  | escaped {c e : Char} (h : ofShortEscape? e = some c) (plain : IsPlain c) :
    Spells ['\\', e] (.char c plain)
  | unit {a b c d : Char} {w x y z : Nat} (ha : ofHexDigit? a = some w)
    (hb : ofHexDigit? b = some x) (hc : ofHexDigit? c = some y) (hd : ofHexDigit? d = some z) :
    Spells ['\\', 'u', a, b, c, d] (.unit (w * 4096 + x * 256 + y * 16 + z).toUInt16)

theorem spells_write (p : Piece) : Spells p.write p := by
  cases p with
  | char c plain =>
    rw [write]
    split
    · rename_i e he
      exact .escaped (ofShortEscape?_of_shortEscape? he) plain
    · rename_i he
      have hc : ' ' ≤ c := plain.resolve_right (by simp [he])
      refine .plain hc ?_ ?_
      · rintro rfl
        cases he
      · rintro rfl
        cases he
  | unit u =>
    have hunit := Spells.unit (ofHexDigit?_hexDigit (u.toNat / 4096))
      (ofHexDigit?_hexDigit (u.toNat / 256)) (ofHexDigit?_hexDigit (u.toNat / 16))
      (ofHexDigit?_hexDigit u.toNat)
    rwa [unit_of_digits] at hunit

end Piece

namespace Quoted

open Piece

theorem read_plain (hc : ' ' ≤ c) (hquote : c ≠ '"') (hslash : c ≠ '\\') :
    read (c :: rest) = (read rest).map fun r ↦ (ofChar c :: r.1, r.2) := by
  rw [read]
  · simp only [if_pos hc]
    cases read rest <;> rfl
  · exact hquote
  · intro _ _ _ _ _ he
    exact absurd he hslash
  · intro _ _ he
    exact absurd he hslash

theorem read_escaped (h : ofShortEscape? e = some c) :
    read ('\\' :: e :: rest) = (read rest).map fun r ↦ (ofChar c :: r.1, r.2) := by
  rw [read]
  · rw [h]
    cases read rest <;> rfl
  · rintro _ _ _ _ _ rfl
    cases h

theorem read_spelledPiece {cs : List Char} {p : Piece} (h : Piece.Spells cs p) (rest : List Char) :
    read (cs ++ rest) = (read rest).map fun r ↦ (p :: r.1, r.2) := by
  cases h with
  | plain hc hquote hslash =>
    rw [List.singleton_append, read_plain hc hquote hslash, ofChar_plain (.inl hc)]
  | escaped h plain =>
    rw [List.cons_append, List.singleton_append, read_escaped h, ofChar_plain plain]
  | unit ha hb hc hd =>
    simp only [List.cons_append, List.nil_append]
    rw [read]
    simp only [ha, hb, hc, hd, Option.bind_eq_bind, Option.bind_some]
    cases read rest <;> rfl

def Spells (cs : List Char) (q : Quoted) : Prop :=
  ∃ parts, List.Forall₂ Piece.Spells parts q ∧ cs = '"' :: parts.flatten ++ ['"']

theorem spells_write (q : Quoted) : Spells q.write q :=
  ⟨q.map Piece.write, List.forall₂_map_left_iff.mpr
    (List.forall₂_same.mpr fun p _ ↦ p.spells_write), by rw [write, List.flatMap_def]⟩

theorem read_spelled {parts : List (List Char)} {q : Quoted}
    (h : List.Forall₂ Piece.Spells parts q) (rest : List Char) :
    read (parts.flatten ++ '"' :: rest) = some (q, rest) := by
  induction h with
  | nil => rw [List.flatten_nil, List.nil_append, read]
  | cons hp _ ih =>
    rw [List.flatten_cons, List.append_assoc, read_spelledPiece hp, ih, Option.map_some]

theorem chars?_ofChar (c : Char) (q : Quoted) :
    chars? (ofChar c :: q) = (chars? q).map (c :: ·) := by
  rw [ofChar]
  split
  · rw [chars?]
  · rename_i h
    have hlt : c.toNat < 32 := Char.not_le.mp (not_or.mp h).1
    have hu : c.toNat.toUInt16.toNat = c.toNat :=
      UInt16.toNat_ofNat_of_lt' (Nat.lt_trans hlt (by decide))
    rw [chars?.eq_def]
    dsimp only
    rw [hu, if_pos (by omega), Char.ofNat_toNat]

theorem text?_ofText (s : String) : (ofText s).text? = some s := by
  have hchars (cs : List Char) : chars? (cs.map ofChar) = some cs := by
    induction cs with
    | nil => rfl
    | cons c cs ih => rw [List.map_cons, chars?_ofChar, ih, Option.map_some]
  rw [text?, ofText, hchars, Option.map_some, String.ofList_toList]

theorem unescaped?_ofText {s : String} (h : ∀ c ∈ s.toList, ' ' ≤ c ∧ shortEscape? c = none) :
    (ofText s).unescaped? = some s.toList := by
  have hchars (cs : List Char) (h : ∀ c ∈ cs, ' ' ≤ c ∧ shortEscape? c = none) :
      unescaped? (cs.map ofChar) = some cs := by
    induction cs with
    | nil => rfl
    | cons c cs ih =>
      obtain ⟨⟨hle, hs⟩, hcs⟩ := List.forall_mem_cons.mp h
      have hrest := ih hcs
      rw [unescaped?] at hrest ⊢
      rw [List.map_cons, List.mapM_cons, hrest, ofChar_plain (.inl hle)]
      simp [hs]
  exact hchars s.toList h

end Quoted

end AnyFlow.Json
