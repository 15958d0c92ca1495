import AnyFlow.Json.Value
import AnyFlow.Proofs.Dict
import AnyFlow.Proofs.Json.Quoted

namespace AnyFlow

open Json

/-- The digits that are written for a float are read as another one. -/
def Binary64.ReadsAs (x y : Binary64) : Prop := Number.ofNumeral? (.ofFloat x) = some (.float y)

/-- The digits that are written for a float read back to it. -/
def Binary64.ReadsBack (x : Binary64) : Prop := Number.ofNumeral? (.ofFloat x) = some (.float x)

/-- The number `0.1`. -/
def Binary64.tenth : Binary64 := ⟨false, 7205759403792794, -56⟩

theorem Binary64.readsBack_tenth : tenth.ReadsBack := rfl

/-- The number that is written `1.0999999999999999e+24`. -/
def Binary64.drifting : Binary64 := ⟨false, 8195638656616210, 27⟩

def Binary64.drifted : Binary64 := ⟨false, 8195638656616211, 27⟩

/-- Rounding twice may lead from the digits of a number to its neighbour. -/
theorem Binary64.readsAs_drifting : drifting.ReadsAs drifted := rfl

def Binary64.reread (x : Binary64) : Binary64 :=
  match Number.ofNumeral? (.ofFloat x) with
  | some (.float y) => y
  | _ => x

theorem Binary64.ReadsAs.reread_eq {x y : Binary64} (h : x.ReadsAs y) : x.reread = y := by
  rw [reread, h]

namespace Json

namespace Number

def Fits : Number → Prop
  | .int n => -(Nat.pow 2 63 : Nat) ≤ n ∧ n < UInt64.size
  | .float _ => True

theorem ofNumeral?_ofInt {n : Int} (h : (Number.int n).Fits) :
    ofNumeral? (.ofInt n) = some (.int n) := by
  obtain ⟨hlow, hhigh⟩ : -9223372036854775808 ≤ n ∧ n < 18446744073709551616 := h
  by_cases hn : n < 0
  · have hwhole : 0 < n.natAbs ∧ n.natAbs ≤ 9223372036854775808 := by omega
    have hvalue : -(n.natAbs : Int) = n := by omega
    rw [ofNumeral?, Numeral.ofInt, decide_eq_true hn, if_neg (fun h ↦ h.2.1 rfl),
      if_pos ⟨rfl, rfl, hwhole⟩, hvalue]
  · have hwhole : n.natAbs < 18446744073709551616 := by omega
    have hvalue : (n.natAbs : Int) = n := by omega
    rw [ofNumeral?, Numeral.ofInt, decide_eq_false hn, if_pos ⟨rfl, Bool.false_ne_true, hwhole⟩,
      hvalue]

end Number

namespace Value

mutual

def nesting : Value → Nat
  | .null | .bool _ | .number _ | .text _ => 0
  | .array items => nestingItems items + 1
  | .object members => nestingMembers members + 1
termination_by structural v => v

def nestingItems : List Value → Nat
  | [] => 0
  | v :: vs => max (nesting v) (nestingItems vs)
termination_by structural vs => vs

def nestingMembers : List (String × Value) → Nat
  | [] => 0
  | (_, v) :: ms => max (nesting v) (nestingMembers ms)
termination_by structural ms => ms

end

mutual

/-- The integers of the value have 64 bits, and the keys of its objects increase. -/
def Fits : Value → Prop
  | .null | .bool _ | .text _ => True
  | .number n => n.Fits
  | .array items => FitItems items
  | .object members => Entries.Ordered members ∧ FitMembers members
termination_by structural v => v

def FitItems : List Value → Prop
  | [] => True
  | v :: vs => Fits v ∧ FitItems vs
termination_by structural vs => vs

def FitMembers : List (String × Value) → Prop
  | [] => True
  | (_, v) :: ms => Fits v ∧ FitMembers ms
termination_by structural ms => ms

end

mutual

def floats : Value → List Binary64
  | .number (.float x) => [x]
  | .null | .bool _ | .text _ | .number (.int _) => []
  | .array items => floatsOfItems items
  | .object members => floatsOfMembers members
termination_by structural v => v

def floatsOfItems : List Value → List Binary64
  | [] => []
  | v :: vs => floats v ++ floatsOfItems vs
termination_by structural vs => vs

def floatsOfMembers : List (String × Value) → List Binary64
  | [] => []
  | (_, v) :: ms => floats v ++ floatsOfMembers ms
termination_by structural ms => ms

end

section MapFloats

variable (f : Binary64 → Binary64)

mutual

def mapFloats : Value → Value
  | .number (.float x) => .number (.float (f x))
  | .array items => .array (mapItems items)
  | .object members => .object (mapMembers members)
  | v => v
termination_by structural v => v

def mapItems : List Value → List Value
  | [] => []
  | v :: vs => mapFloats v :: mapItems vs
termination_by structural vs => vs

def mapMembers : List (String × Value) → List (String × Value)
  | [] => []
  | (k, v) :: ms => (k, mapFloats v) :: mapMembers ms
termination_by structural ms => ms

end

theorem ordered_mapMembers {ms : List (String × Value)} (h : Entries.Ordered ms) :
    Entries.Ordered (mapMembers f ms) := by
  have hkeys : (mapMembers f ms).map Prod.fst = ms.map Prod.fst := by
    induction ms with
    | nil => rfl
    | cons m ms ih =>
      rw [mapMembers, List.map_cons, List.map_cons, ih (List.Pairwise.of_cons h)]
  have hordered := List.pairwise_map.mpr h
  rw [← hkeys] at hordered
  exact List.pairwise_map.mp hordered

mutual

theorem mapFloats_eq_self_iff (v : Value) : v.mapFloats f = v ↔ ∀ x ∈ v.floats, f x = x := by
  match v with
  | .null | .bool _ | .text _ | .number (.int _) => exact iff_of_true rfl nofun
  | .number (.float x) => simp [mapFloats, floats]
  | .array items => rw [mapFloats, array.injEq, mapItems_eq_self_iff items, floats]
  | .object members => rw [mapFloats, object.injEq, mapMembers_eq_self_iff members, floats]
termination_by structural v

theorem mapItems_eq_self_iff (vs : List Value) :
    mapItems f vs = vs ↔ ∀ x ∈ floatsOfItems vs, f x = x := by
  match vs with
  | [] => exact iff_of_true rfl nofun
  | v :: vs =>
    rw [mapItems, List.cons.injEq, mapFloats_eq_self_iff v, mapItems_eq_self_iff vs, floatsOfItems,
      List.forall_mem_append]
termination_by structural vs

theorem mapMembers_eq_self_iff (ms : List (String × Value)) :
    mapMembers f ms = ms ↔ ∀ x ∈ floatsOfMembers ms, f x = x := by
  match ms with
  | [] => exact iff_of_true rfl nofun
  | (k, v) :: ms =>
    rw [mapMembers, List.cons.injEq, Prod.mk.injEq, mapFloats_eq_self_iff v,
      mapMembers_eq_self_iff ms, floatsOfMembers, List.forall_mem_append, and_iff_right rfl]
termination_by structural ms

end

end MapFloats

mutual

theorem nesting_toDocument (v : Value) : v.toDocument.nesting = v.nesting := by
  match v with
  | .null | .bool _ | .number _ | .text _ => rfl
  | .array items => rw [toDocument, Document.nesting, nestingItems_toItems items, nesting]
  | .object members =>
    rw [toDocument, Document.nesting, nestingMembers_toMembers members, nesting]
termination_by structural v

theorem nestingItems_toItems (vs : List Value) :
    Document.nestingItems (toItems vs) = nestingItems vs := by
  match vs with
  | [] => rfl
  | v :: vs =>
    rw [toItems, Document.nestingItems, nesting_toDocument v, nestingItems_toItems vs, nestingItems]
termination_by structural vs

theorem nestingMembers_toMembers (ms : List (String × Value)) :
    Document.nestingMembers (toMembers ms) = nestingMembers ms := by
  match ms with
  | [] => rfl
  | (k, v) :: ms =>
    rw [toMembers, Document.nestingMembers, nesting_toDocument v, nestingMembers_toMembers ms,
      nestingMembers]
termination_by structural ms

end

section Read

variable {f : Binary64 → Binary64}

mutual

theorem ofDocument?_toDocument (v : Value) (h : v.Fits) (hx : ∀ x ∈ v.floats, x.ReadsAs (f x)) :
    ofDocument? v.toDocument = some (v.mapFloats f) := by
  match v with
  | .null | .bool _ => rfl
  | .number (.int n) =>
    rw [toDocument, ofDocument?, Number.toNumeral, Number.ofNumeral?_ofInt h]
    rfl
  | .number (.float x) =>
    have hread : Number.ofNumeral? (.ofFloat x) = some (.float (f x)) := hx x List.mem_cons_self
    rw [toDocument, ofDocument?, Number.toNumeral, hread]
    rfl
  | .text s =>
    rw [toDocument, Document.ofText, ofDocument?, Quoted.text?_ofText]
    rfl
  | .array items =>
    rw [toDocument, ofDocument?, ofItems?_toItems items h hx, Option.map_some, mapFloats]
  | .object members =>
    rw [toDocument, ofDocument?, ofMembers?_toMembers members h.2 hx, Option.map_some,
      Entries.ofList_of_ordered (ordered_mapMembers f h.1), mapFloats]
termination_by structural v

theorem ofItems?_toItems (vs : List Value) (h : FitItems vs)
    (hx : ∀ x ∈ floatsOfItems vs, x.ReadsAs (f x)) :
    ofItems? (toItems vs) = some (mapItems f vs) := by
  match vs with
  | [] => rfl
  | v :: vs =>
    obtain ⟨hv, hvs⟩ := List.forall_mem_append.mp hx
    rw [toItems, ofItems?, ofDocument?_toDocument v h.1 hv, ofItems?_toItems vs h.2 hvs]
    rfl
termination_by structural vs

theorem ofMembers?_toMembers (ms : List (String × Value)) (h : FitMembers ms)
    (hx : ∀ x ∈ floatsOfMembers ms, x.ReadsAs (f x)) :
    ofMembers? (toMembers ms) = some (mapMembers f ms) := by
  match ms with
  | [] => rfl
  | (k, v) :: ms =>
    obtain ⟨hv, hms⟩ := List.forall_mem_append.mp hx
    rw [toMembers, ofMembers?, Quoted.text?_ofText, ofDocument?_toDocument v h.1 hv,
      ofMembers?_toMembers ms h.2 hms]
    rfl
termination_by structural ms

end

end Read

end Value

end Json

end AnyFlow
