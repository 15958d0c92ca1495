import AnyFlow.Options

namespace AnyFlow.Options

open Json

variable {v : Value} {o o' : Options} {members : List (String × Value)}

/-- The members name no other key than that of the flag, give it booleans, and leave it at the last
of these, or at `false` if there is none. -/
structure Sets (members : List (String × Value)) (o : Options) : Prop where
  key {x : String × Value} (h : x ∈ members) : x.1 = flagName
  bool {x : String × Value} (h : x ∈ members) : ∃ b, x.2 = .bool b
  flag_eq : (members.reverse.lookup flagName).getD (.bool false) = .bool o.allowAnnotationFromAny

/-- The forms that the options are said to have. -/
inductive Documented : Value → Options → Prop
  | null : Documented .null defaults
  | empty : Documented (.array []) defaults
  | nullItem : Documented (.array [.null]) defaults
  | object {members : List (String × Value)} {o : Options} (h : Sets members o) :
    Documented (.object members) o
  | item {members : List (String × Value)} {o : Options} (h : Sets members o) :
    Documented (.array [.object members]) o

/-- The forms of an options record as an array in a list: the flag alone, or nothing. -/
inductive Positional : Value → Options → Prop
  | default : Positional (.array [.array []]) defaults
  | flag (b : Bool) : Positional (.array [.array [.bool b]]) ⟨b⟩

theorem ofMembers_eq_ok_iff : ofMembers o members = .ok o' ↔
    (∀ x ∈ members, x.1 = flagName ∧ ∃ b, x.2 = .bool b) ∧
      (members.reverse.lookup flagName).getD (.bool o.allowAnnotationFromAny) =
        .bool o'.allowAnnotationFromAny := by
  induction members generalizing o with
  | nil =>
    have hflag : o = o' ↔ o.allowAnnotationFromAny = o'.allowAnnotationFromAny := by
      cases o
      cases o'
      simp
    simp [ofMembers, hflag]
  | cons x members ih =>
    obtain ⟨k, v⟩ := x
    rw [List.forall_mem_cons, List.reverse_cons, List.lookup_append]
    by_cases hk : k = flagName
    · subst hk
      rw [List.lookup_cons_self]
      cases v with
      | bool b =>
        have hgetD (w : Option Value) :
            (w.or (some (.bool b))).getD (.bool o.allowAnnotationFromAny) = w.getD (.bool b) := by
          cases w with
          | none => rfl
          | some w => rfl
        rw [ofMembers, if_pos rfl, hgetD, ih]
        exact and_congr_left' (and_iff_right ⟨rfl, b, rfl⟩).symm
      | _ => simp [ofMembers]
    · simp [ofMembers, hk]

theorem ofMembers_defaults : ofMembers defaults members = .ok o ↔ Sets members o := by
  rw [ofMembers_eq_ok_iff]
  constructor
  · exact fun ⟨h, hflag⟩ ↦ ⟨fun hx ↦ (h _ hx).1, fun hx ↦ (h _ hx).2, hflag⟩
  · exact fun h ↦ ⟨fun x hx ↦ ⟨h.key hx, h.bool hx⟩, h.flag_eq⟩

theorem ofRecord_eq_ok_iff : ofRecord v = .ok o ↔
    (∃ members, v = .object members ∧ Sets members o) ∨ v = .array [] ∧ o = defaults ∨
      ∃ b, v = .array [.bool b] ∧ o = ⟨b⟩ := by
  match v with
  | .object members => simp [ofRecord, ofMembers_defaults]
  | .array [] => simp [ofRecord, eq_comm]
  | .array (.bool b :: rest) =>
    cases rest with
    | nil => simp [ofRecord, eq_comm]
    | cons v rest => simp [ofRecord]
  | .array (.null :: _) | .array (.number _ :: _) | .array (.text _ :: _)
  | .array (.array _ :: _) | .array (.object _ :: _) => simp [ofRecord]
  | .null | .bool _ | .number _ | .text _ => simp [ofRecord]

theorem ofValue_item (h : v ≠ .null) : ofValue (.array [v]) = ofRecord v := by
  cases v with
  | null => exact absurd rfl h
  | _ => rfl

/-- The values that are options are those of the forms that are said, and besides an array with at
most the flag as the one item of a list. -/
theorem options_accepted_iff (v : Value) (o : Options) :
    ofValue v = .ok o ↔ Documented v o ∨ Positional v o := by
  constructor
  · intro h
    match v with
    | .null => cases h; exact .inl .null
    | .object members => exact .inl (.object (ofMembers_defaults.mp h))
    | .array [] => cases h; exact .inl .empty
    | .array [item] =>
      by_cases hnull : item = .null
      · subst hnull; cases h; exact .inl .nullItem
      · rw [ofValue_item hnull] at h
        obtain ⟨members, rfl, hsets⟩ | ⟨rfl, rfl⟩ | ⟨b, rfl, rfl⟩ := ofRecord_eq_ok_iff.mp h
        · exact .inl (.item hsets)
        · exact .inr .default
        · exact .inr (.flag b)
    | .array (_ :: _ :: _) => simp [ofValue] at h
    | .bool _ | .number _ | .text _ => cases h
  · rintro (h | h)
    · cases h with
      | null | empty | nullItem => rfl
      | object h | item h => exact ofMembers_defaults.mpr h
    · cases h with
      | default | flag b => rfl

/-- The flag alone in a list in a list is taken, though it has none of the forms that are said. -/
theorem flag_in_lists_accepted :
    ofValue (.array [.array [.bool true]]) = .ok ⟨true⟩ ∧
      ∀ o, ¬ Documented (.array [.array [.bool true]]) o :=
  ⟨rfl, fun _ h ↦ nomatch h⟩

end AnyFlow.Options
