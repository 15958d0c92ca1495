namespace AnyFlow

variable {κ α : Type}

namespace Entries

def insert [LT κ] [DecidableLT κ] (k : κ) (a : α) : List (κ × α) → List (κ × α)
  | [] => [(k, a)]
  | x :: rest =>
    if k < x.1 then (k, a) :: x :: rest
    else if x.1 < k then x :: insert k a rest
    else (k, a) :: rest

def ofList [LT κ] [DecidableLT κ] (entries : List (κ × α)) : List (κ × α) :=
  entries.foldl (fun acc x ↦ insert x.1 x.2 acc) []

def Ordered [LT κ] (entries : List (κ × α)) : Prop :=
  entries.Pairwise (fun x y ↦ x.1 < y.1)

section Order

variable [LT κ] [DecidableLT κ]

theorem mem_of_mem_insert {k : κ} {a : α} {x : κ × α} {l : List (κ × α)}
    (h : x ∈ insert k a l) : x = (k, a) ∨ x ∈ l := by
  induction l with
  | nil => simpa [insert] using h
  | cons y rest ih =>
    rw [insert] at h
    split at h
    · simpa using h
    · split at h
      · rcases List.mem_cons.mp h with h | h
        · exact .inr (h ▸ List.mem_cons_self)
        · exact (ih h).imp_right (List.mem_cons_of_mem _)
      · exact (List.mem_cons.mp h).imp_right (List.mem_cons_of_mem _)

variable [LE κ] [Std.IsLinearOrder κ] [Std.LawfulOrderLT κ]

theorem Ordered.insert {l : List (κ × α)} (h : Ordered l) (k : κ) (a : α) :
    Ordered (insert k a l) := by
  induction l with
  | nil => exact List.pairwise_singleton _ _
  | cons x rest ih =>
    obtain ⟨hx, hr⟩ := List.pairwise_cons.mp h
    rw [Entries.insert]
    split
    · rename_i hk
      refine List.Pairwise.cons (fun y hy ↦ ?_) h
      rcases List.mem_cons.mp hy with rfl | hy
      · exact hk
      · exact Std.lt_trans hk (hx y hy)
    · rename_i hk
      split
      · rename_i hk'
        refine List.Pairwise.cons (fun y hy ↦ ?_) (ih hr)
        rcases mem_of_mem_insert hy with rfl | hy
        · exact hk'
        · exact hx y hy
      · rename_i hk'
        have he : x.1 = k := Std.le_antisymm (Std.not_lt.mp hk) (Std.not_lt.mp hk')
        exact List.Pairwise.cons (fun y hy ↦ he ▸ hx y hy) hr

theorem ordered_ofList (entries : List (κ × α)) : Ordered (ofList entries) := by
  have go (l acc : List (κ × α)) (h : Ordered acc) :
      Ordered (l.foldl (fun acc x ↦ Entries.insert x.1 x.2 acc) acc) := by
    induction l generalizing acc with
    | nil => exact h
    | cons x rest ih => exact ih _ (h.insert x.1 x.2)
  exact go entries [] .nil

end Order

end Entries

structure Dict (κ α : Type) [LT κ] where
  entries : List (κ × α)
  ordered : Entries.Ordered entries

namespace Dict

variable [LT κ]

theorem ext_entries {d d' : Dict κ α} (h : d.entries = d'.entries) : d = d' := by
  cases d; cases d'; cases h; rfl

instance [DecidableEq κ] [DecidableEq α] : DecidableEq (Dict κ α) := fun d d' ↦
  if h : d.entries = d'.entries then isTrue (ext_entries h)
  else isFalse fun e ↦ h (congrArg entries e)

def empty : Dict κ α := ⟨[], .nil⟩

instance : Inhabited (Dict κ α) := ⟨empty⟩

def size (d : Dict κ α) : Nat := d.entries.length

def isEmpty (d : Dict κ α) : Bool := d.entries.isEmpty

def keys (d : Dict κ α) : List κ := d.entries.map (·.1)

def get? [BEq κ] (d : Dict κ α) (k : κ) : Option α := d.entries.lookup k

variable [DecidableLT κ] [LE κ] [Std.IsLinearOrder κ] [Std.LawfulOrderLT κ]

def insert (d : Dict κ α) (k : κ) (a : α) : Dict κ α :=
  ⟨Entries.insert k a d.entries, d.ordered.insert k a⟩

/-- Of two entries with one key the later one stays. -/
def ofList (entries : List (κ × α)) : Dict κ α :=
  ⟨Entries.ofList entries, Entries.ordered_ofList entries⟩

end Dict

end AnyFlow
