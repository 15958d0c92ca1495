namespace AnyFlow

/-- A finite type with a word for each value. Words are pairwise different, so a word tells its
value. -/
class Keyword (α : Type) where
  all : List α
  word : α → String
  find_word (a : α) : all.find? (fun b ↦ word b == word a) = some a

namespace Keyword

variable {α : Type} [Keyword α]

def ofWord? (s : String) : Option α := all.find? (fun a ↦ word a == s)

theorem ofWord?_word (a : α) : ofWord? (word a) = some a := find_word a

theorem mem_all (a : α) : a ∈ all := List.mem_of_find?_eq_some (find_word a)

end Keyword

end AnyFlow
