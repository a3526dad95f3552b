/-!
Finite sets kept in ascending order.

A set is the ascending list of its members, so that listing it is reading it off. Members are put in
by comparison; equal members are kept once.
-/
namespace MxStar

/-- A finite set, kept as the ascending list of its members. -/
structure SortedSet (α : Type) where
  toList : List α
  deriving DecidableEq, Repr

namespace SortedSet

variable {α : Type}

instance : Inhabited (SortedSet α) := ⟨⟨[]⟩⟩

instance : EmptyCollection (SortedSet α) := ⟨⟨[]⟩⟩

def insertInto [Ord α] (a : α) : List α → List α
  | [] => [a]
  | b :: bs =>
    match compare a b with
    | .lt => a :: b :: bs
    | .eq => b :: bs
    | .gt => b :: insertInto a bs

def insert [Ord α] (s : SortedSet α) (a : α) : SortedSet α := ⟨insertInto a s.toList⟩

def insertMany [Ord α] (s : SortedSet α) (as : List α) : SortedSet α := as.foldl insert s

def ofList [Ord α] (as : List α) : SortedSet α := insertMany ∅ as

def merge [Ord α] : List α → List α → List α
  | [], bs => bs
  | a :: as, bs => mergeCons a (merge as) bs
where
  /-- Merges a list that starts with `a`, given how to merge what follows it. -/
  mergeCons (a : α) (rest : List α → List α) : List α → List α
    | [] => a :: rest []
    | b :: bs =>
      match compare a b with
      | .lt => a :: rest (b :: bs)
      | .eq => a :: rest bs
      | .gt => b :: mergeCons a rest bs

def union [Ord α] (s t : SortedSet α) : SortedSet α := ⟨merge s.toList t.toList⟩

def contains [DecidableEq α] (s : SortedSet α) (a : α) : Bool := s.toList.contains a

def filter (p : α → Bool) (s : SortedSet α) : SortedSet α := ⟨s.toList.filter p⟩

def erase [DecidableEq α] (s : SortedSet α) (a : α) : SortedSet α := s.filter (· ≠ a)

def diff [DecidableEq α] (s t : SortedSet α) : SortedSet α := s.filter fun a => !t.contains a

def isEmpty (s : SortedSet α) : Bool := s.toList.isEmpty

def size (s : SortedSet α) : Nat := s.toList.length

end SortedSet

end MxStar
