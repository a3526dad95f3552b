/-!
JSON values.

A value keeps what its readers need and no more. Integers are exact. A number with a fraction or an
exponent, and the number `-0`, is kept as its text: it is never an integer. A string whose escapes
leave a surrogate without its partner is well formed as JSON but has no text; such a string, and an
object with such a member name, is `unreadable`. Members of an object keep their order and may
repeat.
-/
namespace MxStar

inductive Json where
  | null
  | bool (b : Bool)
  | int (i : Int)
  | real (text : String)
  | str (s : String)
  | unreadable
  | arr (items : List Json)
  | obj (members : List (String × Json))
  deriving Inhabited, Repr

namespace Json

mutual

/-- How deeply a value is nested; a value without parts has depth zero. -/
def depth : Json → Nat
  | .arr items => itemsDepth items + 1
  | .obj members => membersDepth members + 1
  | _ => 0

def itemsDepth : List Json → Nat
  | [] => 0
  | j :: rest => max (depth j) (itemsDepth rest)

def membersDepth : List (String × Json) → Nat
  | [] => 0
  | (_, j) :: rest => max (depth j) (membersDepth rest)

end

def bool? : Json → Option Bool
  | .bool b => some b
  | _ => none

def int? : Json → Option Int
  | .int i => some i
  | _ => none

def str? : Json → Option String
  | .str s => some s
  | _ => none

def items? : Json → Option (List Json)
  | .arr items => some items
  | _ => none

def word? : Json → Option Int64
  | .int i =>
    if Int64.minValue.toInt ≤ i && i ≤ Int64.maxValue.toInt then some (Int64.ofInt i) else none
  | _ => none

def count? : Json → Option Nat
  | .int i => if 0 ≤ i && i < UInt64.size then some i.toNat else none
  | _ => none

/-- An optional part: `null` stands for its absence. -/
def optional? {α : Type} (read : Json → Option α) : Json → Option (Option α)
  | .null => some none
  | j => (read j).map some

/-- The value of a member that occurs exactly once, if it occurs; nothing at all if it is repeated.
-/
def member? (name : String) (members : List (String × Json)) : Option (Option Json) :=
  match members.filter (·.1 = name) with
  | [] => some none
  | [(_, j)] => some (some j)
  | _ => none

/-- Gives each name the item at its place; names past the end of the items stay without one. -/
def assign : List String → List Json → Option (List (Option Json))
  | [], [] => some []
  | [], _ :: _ => none
  | _ :: names, [] => (assign names []).map (none :: ·)
  | _ :: names, j :: items => (assign names items).map (some j :: ·)

/-- The fields of a record, in the order of their names. A record is an object, whose members of
other names are passed over and whose known members may not repeat, or an array of its fields in
order, from which fields at the end may be left off. -/
def fields? (names : List String) : Json → Option (List (Option Json))
  | .obj members => names.mapM fun name => member? name members
  | .arr items => assign names items
  | _ => none

/-- The name of a variant and its content. A variant without content may be its name alone; any
other is an object with one member. -/
def variant? : Json → Option (String × Option Json)
  | .str name => some (name, none)
  | .obj [(name, content)] => some (name, some content)
  | _ => none

end Json

end MxStar
