import Mathlib.Logic.Relation
import AnyFlow.Types.Basic

namespace AnyFlow

namespace Ty

inductive IsNumber : Ty → Prop
  | number : IsNumber .number
  | literal (x : Binary64) : IsNumber (.numberLiteral x)
  | enumeration (name : String) : IsNumber (.numericEnum name)

/-- A type reaches itself, and what its members reach if it is a union. -/
inductive Reaches : Ty → Ty → Prop
  | refl (t : Ty) : Reaches t t
  | member {m u : Ty} {ms : List Ty} (hm : m ∈ ms) (h : Reaches m u) : Reaches (.union ms) u

/-- One change to the order, the number or the grouping of the members of a union, anywhere in a
type. A copy of a member comes first, from where `reorder` takes it on. -/
inductive Rearranges : Ty → Ty → Prop
  | reorder {ms ms' : List Ty} (h : ms.Perm ms') : Rearranges (.union ms) (.union ms')
  | duplicate {m : Ty} {ms : List Ty} (h : m ∈ ms) : Rearranges (.union ms) (.union (m :: ms))
  | splice (before : List Ty) {inner : List Ty} (after : List Ty) (h : inner ≠ []) :
    Rearranges (.union (before ++ .union inner :: after)) (.union (before ++ inner ++ after))
  | member (before : List Ty) {m m' : Ty} (after : List Ty) (h : Rearranges m m') :
    Rearranges (.union (before ++ m :: after)) (.union (before ++ m' :: after))
  | element {e e' : Ty} (readonly : Bool) (h : Rearranges e e') :
    Rearranges (.array e readonly) (.array e' readonly)

/-- The types differ only in how the members of unions are ordered, repeated and grouped. -/
def Rearranged : Ty → Ty → Prop := Relation.EqvGen Rearranges

variable {t t' u m : Ty} {ms ms' before after : List Ty}

theorem areNumericLike_iff : areNumericLike ms ↔ ∀ m ∈ ms, m.isNumericLike := by
  induction ms with
  | nil => exact iff_of_true rfl nofun
  | cons m ms ih => rw [areNumericLike, Bool.and_eq_true, ih, List.forall_mem_cons]

theorem isNumericLike_union :
    (union ms).isNumericLike ↔ ms ≠ [] ∧ ∀ m ∈ ms, m.isNumericLike := by
  rw [isNumericLike, Bool.and_eq_true, Bool.not_eq_true', List.isEmpty_eq_false_iff,
    areNumericLike_iff]

/-- Only which members a union has matters. -/
theorem isNumericLike_union_congr (h : ∀ m, m ∈ ms ↔ m ∈ ms') :
    (union ms).isNumericLike ↔ (union ms').isNumericLike := by
  have hnil : ms = [] ↔ ms' = [] := by
    rw [List.eq_nil_iff_forall_not_mem, List.eq_nil_iff_forall_not_mem]
    exact forall_congr' fun m ↦ not_congr (h m)
  rw [isNumericLike_union, isNumericLike_union, ne_eq, hnil]
  exact and_congr_right fun _ ↦ forall_congr' fun m ↦ imp_congr_left (h m)

theorem isNumericLike_union_middle : (union (before ++ m :: after)).isNumericLike ↔
    (∀ x ∈ before, x.isNumericLike) ∧ m.isNumericLike ∧ ∀ x ∈ after, x.isNumericLike := by
  have hne : before ++ m :: after ≠ [] := List.append_ne_nil_of_right_ne_nil before nofun
  rw [isNumericLike_union, and_iff_right hne, List.forall_mem_append, List.forall_mem_cons]

theorem IsNumber.isNumericLike (h : t.IsNumber) : t.isNumericLike := by
  cases h <;> rfl

theorem isNumber_of_isNumericLike (h : t.isNumericLike) (ht : ∀ ms, t ≠ .union ms) :
    t.IsNumber := by
  cases t with
  | number => exact .number
  | numberLiteral x => exact .literal x
  | numericEnum name => exact .enumeration name
  | union ms => exact absurd rfl (ht ms)
  | _ => cases h

theorem Reaches.isNumericLike (h : t.Reaches u) (ht : t.isNumericLike) : u.isNumericLike := by
  induction h with
  | refl t => exact ht
  | member hm _ ih => exact ih ((isNumericLike_union.mp ht).2 _ hm)

theorem isNumericLike_of_reaches (t : Ty) (hempty : ¬ t.Reaches (.union []))
    (hnumber : ∀ u, t.Reaches u → (∀ ms, u ≠ .union ms) → u.IsNumber) : t.isNumericLike := by
  match t with
  | .union ms =>
    refine isNumericLike_union.mpr ⟨?_, fun m hm ↦ ?_⟩
    · rintro rfl
      exact hempty (.refl _)
    · refine isNumericLike_of_reaches m (fun h ↦ hempty (.member hm h)) fun u h ↦ ?_
      exact hnumber u (.member hm h)
  | .any | .unknown | .never | .void | .null | .undefined | .boolean | .string | .number
  | .bigInt | .numberLiteral _ | .stringLiteral _ | .numericEnum _ | .array _ _ | .named _ =>
    exact (hnumber _ (.refl _) nofun).isNumericLike
termination_by t

/-- A numeric type reaches no empty union, and besides unions it reaches numbers alone. -/
theorem isNumericLike_iff_reaches : t.isNumericLike ↔ ¬ t.Reaches (.union []) ∧
    ∀ u, t.Reaches u → (∀ ms, u ≠ .union ms) → u.IsNumber := by
  constructor
  · intro h
    have hreached {u : Ty} (hu : t.Reaches u) : u.isNumericLike := hu.isNumericLike h
    exact ⟨fun hu ↦ (isNumericLike_union.mp (hreached hu)).1 rfl,
      fun u hu ↦ isNumber_of_isNumericLike (hreached hu)⟩
  · rintro ⟨hempty, hnumber⟩
    exact isNumericLike_of_reaches t hempty hnumber

theorem Rearranges.isNumericLike_iff (h : t.Rearranges t') :
    t.isNumericLike ↔ t'.isNumericLike := by
  induction h with
  | reorder h => exact isNumericLike_union_congr fun m ↦ h.mem_iff
  | @duplicate m ms h =>
    refine isNumericLike_union_congr fun x ↦ ⟨List.mem_cons_of_mem m, fun hx ↦ ?_⟩
    rcases List.mem_cons.mp hx with rfl | hx
    · exact h
    · exact hx
  | @splice before inner after h =>
    -- an empty inner union keeps the outer one from being numeric, and splicing would lose it
    have hne : before ++ inner ++ after ≠ [] :=
      List.append_ne_nil_of_left_ne_nil (List.append_ne_nil_of_right_ne_nil before h) after
    rw [isNumericLike_union_middle, isNumericLike_union, isNumericLike_union, and_iff_right h,
      and_iff_right hne, List.forall_mem_append, List.forall_mem_append, and_assoc]
  | member before after _ ih =>
    rw [isNumericLike_union_middle, isNumericLike_union_middle, ih]
  | element readonly _ _ => exact Iff.rfl

theorem Rearranged.isNumericLike_eq (h : t.Rearranged t') :
    t.isNumericLike = t'.isNumericLike := by
  induction h with
  | rel t t' h => exact Bool.eq_iff_iff.mpr h.isNumericLike_iff
  | refl t => rfl
  | symm t t' _ ih => exact ih.symm
  | trans t t' t'' _ _ ih ih' => exact ih.trans ih'

theorem safe_of_isNumericLike (h : t.isNumericLike) : t.exposure = .safe ∧ t.element? = none := by
  cases t with
  | any | array _ _ => cases h
  | _ => exact ⟨rfl, rfl⟩

/-- A type is numeric exactly if it reaches no empty union and, besides unions, numbers alone. So
members of unions in it may be reordered, repeated and, where there are any, spliced into the union
around them, and it is numeric as before. A numeric type is safe, and it is no array. -/
theorem isNumericLike_flattened (t : Ty) :
    (t.isNumericLike ↔ ¬ t.Reaches (.union []) ∧
      ∀ u, t.Reaches u → (∀ ms, u ≠ .union ms) → u.IsNumber) ∧
    (∀ t', t.Rearranged t' → t.isNumericLike = t'.isNumericLike) ∧
    (t.isNumericLike → t.exposure = .safe ∧ t.element? = none) :=
  ⟨isNumericLike_iff_reaches, fun _ ↦ Rearranged.isNumericLike_eq, safe_of_isNumericLike⟩

/-- A union without members is not lost in another one. -/
example : (union [.number, .union []]).isNumericLike = false ∧
    (union [.number]).isNumericLike = true := ⟨rfl, rfl⟩

def groupedUnits : Ty :=
  .union [.number, .union [.union [.numberLiteral .zero], .numericEnum "Unit"]]

def flatUnits : Ty := .union [.number, .numberLiteral .zero, .numericEnum "Unit", .number]

theorem rearranged_units : groupedUnits.Rearranged flatUnits := by
  have hinner : Rearranges groupedUnits
      (.union [.number, .union [.numberLiteral .zero, .numericEnum "Unit"]]) :=
    .member [.number] [] (.splice [] [.numericEnum "Unit"] (List.cons_ne_nil _ _))
  have houter : Rearranges (.union [.number, .union [.numberLiteral .zero, .numericEnum "Unit"]])
      (.union [.number, .numberLiteral .zero, .numericEnum "Unit"]) :=
    .splice [.number] [] (List.cons_ne_nil _ _)
  have hagain : Rearranges (.union [.number, .numberLiteral .zero, .numericEnum "Unit"])
      (.union [.number, .number, .numberLiteral .zero, .numericEnum "Unit"]) :=
    .duplicate List.mem_cons_self
  have hlast : Rearranges (.union [.number, .number, .numberLiteral .zero, .numericEnum "Unit"])
      flatUnits := .reorder (List.perm_append_singleton number _).symm
  refine .trans _ _ _ (.rel _ _ hinner) ?_
  refine .trans _ _ _ (.rel _ _ houter) ?_
  exact .trans _ _ _ (.rel _ _ hagain) (.rel _ _ hlast)

theorem isNumericLike_flattened_units :
    groupedUnits.Rearranged flatUnits ∧ groupedUnits.isNumericLike ∧ flatUnits.isNumericLike ∧
      flatUnits.exposure = .safe ∧ flatUnits.element? = none := by
  have hsame := (isNumericLike_flattened groupedUnits).2.1 flatUnits rearranged_units
  have hflat : flatUnits.isNumericLike := rfl
  exact ⟨rearranged_units, hsame.trans hflat, hflat, (isNumericLike_flattened flatUnits).2.2 hflat⟩

end Ty

end AnyFlow
