import Mathlib.Logic.Basic
import AnyFlow.Types.Table

namespace AnyFlow

namespace Ty

variable {ty e : Ty}

theorem isAny_iff : ty.isAny ↔ ty = .any := by
  cases ty <;> simp [isAny]

theorem element?_eq_some : ty.element? = some e ↔ ∃ readonly, ty = .array e readonly := by
  cases ty <;> simp [element?]

theorem exposure_eq_any : ty.exposure = .any ↔ ty = .any := by
  rw [← isAny_iff, exposure]
  split
  · simp_all
  · split
    · split <;> simp_all
    · simp_all

theorem exposure_eq_arrayOfAny : ty.exposure = .arrayOfAny ↔
    ∃ readonly, ty = .array .any readonly := by
  rw [← element?_eq_some, exposure]
  split
  · rename_i ha
    cases isAny_iff.mp ha
    simp [element?]
  · cases ty.element? with
    | none => simp
    | some e => simp [← isAny_iff]

theorem isLeaking_exposure : ty.exposure.isLeaking ↔
    ty = .any ∨ ∃ readonly, ty = .array .any readonly := by
  rw [← exposure_eq_any, ← exposure_eq_arrayOfAny]
  cases ty.exposure <;> simp [Exposure.isLeaking]

end Ty

namespace TypeTable

variable {T : TypeTable} {n : Node}

def RecordsAny (T : TypeTable) (n : Node) : Prop := T.get? n.id = some .any

def RecordsAnyArray (T : TypeTable) (n : Node) : Prop :=
  ∃ readonly, T.get? n.id = some (.array .any readonly)

def RecordsUnsafe (T : TypeTable) (n : Node) : Prop := T.RecordsAny n ∨ T.RecordsAnyArray n

theorem type?_oracle : T.oracle.type? n = T.get? n.id := by
  rw [Oracle.type?, oracle]
  cases T.get? n.id with
  | none => rfl
  | some ty => rfl

theorem exposure_oracle : T.oracle.exposure n = ((T.get? n.id).map Ty.exposure).getD .safe := by
  rw [Oracle.exposure, type?_oracle]
  cases T.get? n.id with
  | none => rfl
  | some ty => rfl

theorem exposure_eq_any : T.oracle.exposure n = .any ↔ T.RecordsAny n := by
  rw [exposure_oracle, RecordsAny]
  cases T.get? n.id with
  | none => simp
  | some ty => simp [Ty.exposure_eq_any]

theorem isLeaking_exposure : (T.oracle.exposure n).isLeaking ↔ T.RecordsUnsafe n := by
  rw [exposure_oracle, RecordsUnsafe, RecordsAny, RecordsAnyArray]
  cases T.get? n.id with
  | none => simp [Exposure.isLeaking]
  | some ty => simp [Ty.isLeaking_exposure]

instance : Decidable (T.RecordsUnsafe n) := decidable_of_iff _ isLeaking_exposure

end TypeTable

end AnyFlow
