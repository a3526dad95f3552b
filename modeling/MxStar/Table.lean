/-!
Tables from names to values, with at most one value for a name. The newest entry comes first, and
entering a name again replaces its value.
-/
namespace MxStar

structure Table (α : Type) where
  entries : List (String × α) := []
  deriving Repr

namespace Table

variable {α : Type}

instance : Inhabited (Table α) := ⟨{}⟩

def find? (t : Table α) (name : String) : Option α := t.entries.lookup name

def contains (t : Table α) (name : String) : Bool := (t.find? name).isSome

def insert (t : Table α) (name : String) (a : α) : Table α :=
  ⟨(name, a) :: t.entries.filter (·.1 ≠ name)⟩

def values (t : Table α) : List α := t.entries.map (·.2)

def names (t : Table α) : List String := t.entries.map (·.1)

end Table

end MxStar
