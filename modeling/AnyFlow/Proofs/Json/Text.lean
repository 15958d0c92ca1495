import AnyFlow.Json.Document.Layout
import AnyFlow.Json.Document.Reader
import AnyFlow.Proofs.Json.Numeral
import AnyFlow.Proofs.Json.Quoted

namespace AnyFlow.Json

namespace Token

variable {t : Token} {ts : List Token} {c : Char} {cs rest : List Char}

/-- No character of the text can carry on a token that ends before it. -/
def Closes : Token → List Char → Prop
  | .numeral _, rest => Numeral.Closes rest
  | _, _ => True

/-- The text writes the token. Strings and the exponents of numbers have more than one spelling. -/
def IsSpelling (cs : List Char) : Token → Prop
  | .numeral n => Numeral.Spells cs n
  | .text q => Quoted.Spells cs q
  | t => cs = t.write

theorem isSpelling_write (t : Token) : IsSpelling t.write t := by
  cases t with
  | numeral n => exact n.spells_write
  | text q => exact Quoted.spells_write q
  | _ => rfl

theorem read_numeral {n : Numeral} (hn : Numeral.Spells cs n) (h : Numeral.Closes rest) :
    read (cs ++ rest) = some (.numeral n, rest) := by
  have hread := Numeral.read_spelled hn h
  obtain ⟨c, cs, rfl, hc⟩ := Numeral.exists_spelled hn
  rw [List.cons_append] at hread ⊢
  rw [read, hread, Option.map_some]
  all_goals
    intro _ hcons
    exact hc _ (by decide) (by decide) (List.cons.inj hcons).1

theorem read_spelled (ht : IsSpelling cs t) (h : t.Closes rest) :
    read (cs ++ rest) = some (t, rest) := by
  cases t with
  | numeral n => exact read_numeral ht h
  | text q =>
    obtain ⟨parts, hparts, rfl⟩ := ht
    have hq := Quoted.read_spelled hparts rest
    rw [List.cons_append, List.cons_append, List.append_assoc, List.singleton_append, read, hq,
      Option.map_some]
  | bool b =>
    cases ht
    cases b <;> rfl
  | _ =>
    cases ht
    rfl

theorem exists_spelled (h : IsSpelling cs t) : ∃ c cs', cs = c :: cs' ∧ isBlank c = false := by
  cases t with
  | numeral n =>
    obtain ⟨c, cs', he, hc⟩ := Numeral.exists_spelled h
    refine ⟨c, cs', he, decide_eq_false ?_⟩
    rintro (hb | hb | hb | hb)
    all_goals exact hc _ (by decide) (by decide) hb
  | text q =>
    obtain ⟨parts, -, rfl⟩ := h
    exact ⟨_, _, rfl, rfl⟩
  | bool b =>
    cases h
    cases b <;> exact ⟨_, _, rfl, rfl⟩
  | _ =>
    cases h
    exact ⟨_, _, rfl, rfl⟩

/-- The text holds the tokens in their order and white space beside them. -/
inductive Spells : List Char → List Token → Prop
  | nil : Spells [] []
  | blank {c : Char} {cs : List Char} {ts : List Token} (hc : isBlank c) (h : Spells cs ts) :
    Spells (c :: cs) ts
  | token {t : Token} {word cs : List Char} {ts : List Token} (ht : IsSpelling word t)
    (h : Spells cs ts) : Spells (word ++ cs) (t :: ts)

theorem Spells.written (h : Spells cs ts) : Spells (t.write ++ cs) (t :: ts) :=
  .token t.isSpelling_write h

theorem Spells.blanks {bs : List Char} (hb : ∀ c ∈ bs, isBlank c) (h : Spells cs ts) :
    Spells (bs ++ cs) ts := by
  induction bs with
  | nil => exact h
  | cons b bs ih =>
    obtain ⟨hb, hbs⟩ := List.forall_mem_cons.mp hb
    exact .blank hb (ih hbs)

def isNumeral : Token → Bool
  | .numeral _ => true
  | _ => false

def NoNumeral (ts : List Token) : Prop := ∀ t ∈ ts.head?, t.isNumeral = false

/-- No numeral comes right after another one. -/
def Apart : List Token → Prop
  | [] => True
  | t :: ts => (t.isNumeral → NoNumeral ts) ∧ Apart ts

theorem noNumeral_cons (h : t.isNumeral = false) : NoNumeral (t :: ts) := by
  intro u hu
  cases hu
  exact h

theorem apart_cons (ht : t.isNumeral = false) (h : Apart ts) : Apart (t :: ts) :=
  ⟨fun hn ↦ absurd hn (by rw [ht]; decide), h⟩

theorem closes_spelled {word : List Char} (ht : IsSpelling word t) (h : t.isNumeral = false) :
    Numeral.Closes (word ++ cs) := by
  cases t with
  | numeral n => cases h
  | text q =>
    obtain ⟨parts, -, rfl⟩ := ht
    exact Numeral.closes_cons (by decide)
  | bool b =>
    cases ht
    cases b <;> exact Numeral.closes_cons (by decide)
  | _ =>
    cases ht
    exact Numeral.closes_cons (by decide)

theorem closes_blank (h : isBlank c) : Numeral.Closes (c :: cs) := by
  refine Numeral.closes_cons ?_
  rcases of_decide_eq_true h with rfl | rfl | rfl | rfl <;> decide

theorem Spells.closes (h : Spells cs ts) (hts : t.isNumeral → NoNumeral ts) : t.Closes cs := by
  cases t with
  | numeral n =>
    cases h with
    | nil => exact Numeral.closes_nil
    | blank hc _ => exact closes_blank hc
    | token ht _ => exact closes_spelled ht (hts rfl _ rfl)
  | _ => trivial

theorem Spells.scanWithin (h : Spells cs ts) (hts : Apart ts) {n : Nat} (hn : cs.length ≤ n) :
    scanWithin n cs = some ts := by
  induction h generalizing n with
  | nil => rw [Token.scanWithin]
  | @blank c cs ts hc _ ih =>
    cases n with
    | zero => exact absurd hn (Nat.not_succ_le_zero _)
    | succ n => rw [Token.scanWithin, if_pos hc, ih hts (Nat.le_of_succ_le_succ hn)]
  | @token t word cs ts ht h ih =>
    have hread := read_spelled ht (h.closes hts.1)
    obtain ⟨c, rest, rfl, hb⟩ := exists_spelled ht
    rw [List.cons_append] at hn hread ⊢
    cases n with
    | zero => exact absurd hn (Nat.not_succ_le_zero _)
    | succ n =>
      have hlen : cs.length ≤ n := by
        rw [List.length_cons, List.length_append] at hn
        omega
      rw [Token.scanWithin, if_neg (by rw [hb]; decide), hread]
      simp [ih hts.2 hlen]

theorem Spells.scan (h : Spells cs ts) (hts : Apart ts) : scan cs = some ts :=
  h.scanWithin hts (Nat.le_refl _)

end Token

namespace Document

open Token

variable {ts : List Token} {rest : List Char}

theorem noNumeral_tokensItems (ds : List Document) (h : NoNumeral ts) :
    NoNumeral (tokensItems ds ++ ts) := by
  cases ds with
  | nil => exact h
  | cons d ds => exact noNumeral_cons rfl

theorem noNumeral_tokensMembers (ms : List (Quoted × Document)) (h : NoNumeral ts) :
    NoNumeral (tokensMembers ms ++ ts) := by
  cases ms with
  | nil => exact h
  | cons m ms => exact noNumeral_cons rfl

mutual

/-- After each numeral of a document comes a comma or the end of a container, if anything. -/
theorem apart_tokens (d : Document) {ts : List Token} (h : Apart ts) (hts : NoNumeral ts) :
    Apart (d.tokens ++ ts) := by
  match d with
  | .null => exact apart_cons rfl h
  | .bool b => exact apart_cons rfl h
  | .numeral n => exact ⟨fun _ ↦ hts, h⟩
  | .text q => exact apart_cons rfl h
  | .array [] => exact apart_cons rfl (apart_cons rfl h)
  | .array (d :: ds) =>
    have hend : NoNumeral (.endArray :: ts) := noNumeral_cons rfl
    have hitems := apart_tokensItems ds (apart_cons rfl h) hend
    have hitem := apart_tokens d hitems (noNumeral_tokensItems ds hend)
    simpa [tokens] using apart_cons (t := .beginArray) rfl hitem
  | .object [] => exact apart_cons rfl (apart_cons rfl h)
  | .object ((k, d) :: ms) =>
    have hend : NoNumeral (.endObject :: ts) := noNumeral_cons rfl
    have hmembers := apart_tokensMembers ms (apart_cons rfl h) hend
    have hmember := apart_tokens d hmembers (noNumeral_tokensMembers ms hend)
    have hkey := apart_cons (t := .text k) rfl (apart_cons (t := .colon) rfl hmember)
    simpa [tokens] using apart_cons (t := .beginObject) rfl hkey
termination_by structural d

theorem apart_tokensItems (ds : List Document) {ts : List Token} (h : Apart ts)
    (hts : NoNumeral ts) : Apart (tokensItems ds ++ ts) := by
  match ds with
  | [] => exact h
  | d :: ds =>
    have hitems := apart_tokensItems ds h hts
    have hitem := apart_tokens d hitems (noNumeral_tokensItems ds hts)
    simpa [tokensItems] using apart_cons (t := .comma) rfl hitem
termination_by structural ds

theorem apart_tokensMembers (ms : List (Quoted × Document)) {ts : List Token} (h : Apart ts)
    (hts : NoNumeral ts) : Apart (tokensMembers ms ++ ts) := by
  match ms with
  | [] => exact h
  | (k, d) :: ms =>
    have hmembers := apart_tokensMembers ms h hts
    have hmember := apart_tokens d hmembers (noNumeral_tokensMembers ms hts)
    have hkey := apart_cons (t := .text k) rfl (apart_cons (t := .colon) rfl hmember)
    simpa [tokensMembers] using apart_cons (t := .comma) rfl hkey
termination_by structural ms

end

theorem scan_of_spells {d : Document} {cs : List Char} (h : Spells cs d.tokens) :
    Token.scan cs = some d.tokens := by
  have hapart : Token.Apart (d.tokens ++ []) := d.apart_tokens trivial nofun
  rw [List.append_nil] at hapart
  exact h.scan hapart

theorem spells_lineBreak (level : Nat) (h : Spells rest ts) :
    Spells (lineBreak level ++ rest) ts := by
  refine h.blanks fun c hc ↦ ?_
  rcases List.mem_cons.mp hc with rfl | hc
  · rfl
  · rw [List.eq_of_mem_replicate hc]
    rfl

theorem spells_key (k : Quoted) (h : Spells rest ts) :
    Spells (k.write ++ ':' :: ' ' :: rest) (.text k :: .colon :: ts) :=
  .written (t := .text k) (.written (t := .colon) (.blank rfl h))

mutual

theorem spells_indented (level : Nat) (d : Document) {rest : List Char} {ts : List Token}
    (h : Spells rest ts) : Spells (d.indentedChars level ++ rest) (d.tokens ++ ts) := by
  match d with
  | .null => exact .written (t := .null) h
  | .bool b => exact .written (t := .bool b) h
  | .numeral n => exact .written (t := .numeral n) h
  | .text q => exact .written (t := .text q) h
  | .array [] => exact .written (t := .beginArray) (.written (t := .endArray) h)
  | .array (d :: ds) =>
    -- from the closing bracket back to the opening one, each part before a text that is spelled
    have hend : Spells (lineBreak level ++ ']' :: rest) (.endArray :: ts) :=
      spells_lineBreak level (.written (t := .endArray) h)
    have hitem := spells_indented (level + 1) d (spells_indentedItems (level + 1) ds hend)
    have hopen := Spells.written (t := .beginArray) (spells_lineBreak (level + 1) hitem)
    simpa [indentedChars, tokens, Token.write] using hopen
  | .object [] => exact .written (t := .beginObject) (.written (t := .endObject) h)
  | .object ((k, d) :: ms) =>
    have hend : Spells (lineBreak level ++ '\x7d' :: rest) (.endObject :: ts) :=
      spells_lineBreak level (.written (t := .endObject) h)
    have hmember := spells_indented (level + 1) d (spells_indentedMembers (level + 1) ms hend)
    have hopen := Spells.written (t := .beginObject)
      (spells_lineBreak (level + 1) (spells_key k hmember))
    simpa [indentedChars, tokens, Token.write] using hopen
termination_by structural d

theorem spells_indentedItems (level : Nat) (ds : List Document) {rest : List Char}
    {ts : List Token} (h : Spells rest ts) :
    Spells (indentedItems level ds ++ rest) (tokensItems ds ++ ts) := by
  match ds with
  | [] => exact h
  | d :: ds =>
    have hitem := spells_indented level d (spells_indentedItems level ds h)
    have hcomma := Spells.written (t := .comma) (spells_lineBreak level hitem)
    simpa [indentedItems, tokensItems, Token.write] using hcomma
termination_by structural ds

theorem spells_indentedMembers (level : Nat) (ms : List (Quoted × Document)) {rest : List Char}
    {ts : List Token} (h : Spells rest ts) :
    Spells (indentedMembers level ms ++ rest) (tokensMembers ms ++ ts) := by
  match ms with
  | [] => exact h
  | (k, d) :: ms =>
    have hmember := spells_indented level d (spells_indentedMembers level ms h)
    have hcomma := Spells.written (t := .comma) (spells_lineBreak level (spells_key k hmember))
    simpa [indentedMembers, tokensMembers, Token.write] using hcomma
termination_by structural ms

end

theorem spells_compact (d : Document) : Spells d.compactChars d.tokens := by
  have hwrite (ts : List Token) : Spells (ts.flatMap Token.write) ts := by
    induction ts with
    | nil => exact .nil
    | cons t ts ih => exact .written ih
  exact hwrite d.tokens

end Document

end AnyFlow.Json
