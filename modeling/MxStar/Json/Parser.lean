import MxStar.Json.Basic

/-!
Reading JSON text.

The reader is strict: no comments, no trailing commas, no leading zeros, no raw control characters
in strings, and nothing but blanks after the value. There is no limit on nesting; the fuel that
bounds the recursion is computed from the length of the text and always suffices.
-/
namespace MxStar.Json

def isBlank (c : Char) : Bool := c == ' ' || c == '\t' || c == '\n' || c == '\r'

def skipBlanks (cs : List Char) : List Char := cs.dropWhile isBlank

/-! ## Strings -/

def hexValue? (c : Char) : Option Nat :=
  if '0' ≤ c && c ≤ '9' then some (c.toNat - '0'.toNat)
  else if 'a' ≤ c && c ≤ 'f' then some (c.toNat - 'a'.toNat + 10)
  else if 'A' ≤ c && c ≤ 'F' then some (c.toNat - 'A'.toNat + 10)
  else none

def codeUnit? (a b c d : Char) : Option Nat := do
  return ((← hexValue? a) * 16 + (← hexValue? b)) * 256 + (← hexValue? c) * 16 + (← hexValue? d)

/-- The code point a one-letter escape stands for. -/
def escape? (c : Char) : Option Nat :=
  if c == '"' || c == '\\' || c == '/' then some c.toNat
  else if c == 'b' then some 8
  else if c == 'f' then some 12
  else if c == 'n' then some 10
  else if c == 'r' then some 13
  else if c == 't' then some 9
  else none

/-- The code points of a string up to its closing quote, and the text after it. Escaped surrogates
are still apart. `acc` holds what was read, last first. -/
def codePoints (acc : List Nat) : List Char → Option (List Nat × List Char)
  | '"' :: cs => some (acc.reverse, cs)
  | '\\' :: 'u' :: a :: b :: c :: d :: cs =>
    (codeUnit? a b c d).bind fun n => codePoints (n :: acc) cs
  | '\\' :: c :: cs => (escape? c).bind fun n => codePoints (n :: acc) cs
  | c :: cs => if c.toNat < 0x20 then none else codePoints (c.toNat :: acc) cs
  | [] => none

/-- Joins surrogates into characters; nothing if one has no partner. -/
def joinSurrogates (acc : List Char) : List Nat → Option (List Char)
  | [] => some acc.reverse
  | u :: us =>
    if 0xd800 ≤ u && u < 0xdc00 then
      match us with
      | v :: us =>
        if 0xdc00 ≤ v && v < 0xe000 then
          joinSurrogates (Char.ofNat (0x10000 + (u - 0xd800) * 0x400 + (v - 0xdc00)) :: acc) us
        else none
      | [] => none
    else if 0xdc00 ≤ u && u < 0xe000 then none
    else joinSurrogates (Char.ofNat u :: acc) us

/-- A string after its opening quote. The text is missing where a surrogate has no partner. -/
def stringBody (cs : List Char) : Option (Option String × List Char) :=
  (codePoints [] cs).map fun (points, rest) => ((joinSurrogates [] points).map String.ofList, rest)

/-! ## Numbers -/

def digitsValue (ds : List Char) : Nat :=
  ds.foldl (fun n c => 10 * n + (c.toNat - '0'.toNat)) 0

/-- The fraction of a number, if there is one: its characters and the text after it. -/
def fraction : List Char → Option (List Char × List Char)
  | '.' :: cs =>
    let ds := cs.takeWhile Char.isDigit
    if ds.isEmpty then none else some ('.' :: ds, cs.dropWhile Char.isDigit)
  | cs => some ([], cs)

/-- The exponent of a number, if there is one: its characters and the text after it. -/
def exponent : List Char → Option (List Char × List Char)
  | [] => some ([], [])
  | c :: cs =>
    if c == 'e' || c == 'E' then
      let (sign, cs) := match cs with
        | '+' :: cs => (['+'], cs)
        | '-' :: cs => (['-'], cs)
        | cs => ([], cs)
      let ds := cs.takeWhile Char.isDigit
      if ds.isEmpty then none else some (c :: (sign ++ ds), cs.dropWhile Char.isDigit)
    else some ([], c :: cs)

/-- A number after its sign. -/
def unsignedNumber (negative : Bool) (cs : List Char) : Option (Json × List Char) :=
  let ds := cs.takeWhile Char.isDigit
  if ds.isEmpty || (ds.head? == some '0' && ds.length != 1) then none
  else do
    let (frac, rest) ← fraction (cs.dropWhile Char.isDigit)
    let (expo, rest) ← exponent rest
    let sign := if negative then ['-'] else []
    if frac.isEmpty && expo.isEmpty && !(negative && ds == ['0']) then
      let n : Int := digitsValue ds
      return (.int (if negative then -n else n), rest)
    else
      return (.real (String.ofList (sign ++ ds ++ frac ++ expo)), rest)

def number : List Char → Option (Json × List Char)
  | '-' :: cs => unsignedNumber true cs
  | cs => unsignedNumber false cs

/-! ## Values -/

def scalar : List Char → Option (Json × List Char)
  | 'n' :: 'u' :: 'l' :: 'l' :: cs => some (.null, cs)
  | 't' :: 'r' :: 'u' :: 'e' :: cs => some (.bool true, cs)
  | 'f' :: 'a' :: 'l' :: 's' :: 'e' :: cs => some (.bool false, cs)
  | '"' :: cs => (stringBody cs).map fun (text, rest) => (text.elim .unreadable .str, rest)
  | cs => number cs

/-- An object from its members, whose names may be without text. -/
def ofMembers (members : List (Option String × Json)) : Json :=
  match members.mapM fun (name, j) => name.map (·, j) with
  | some members => .obj members
  | none => .unreadable

mutual

def value : Nat → List Char → Option (Json × List Char)
  | 0, _ => none
  | fuel + 1, cs =>
    match skipBlanks cs with
    | '[' :: cs =>
      match skipBlanks cs with
      | ']' :: rest => some (.arr [], rest)
      | cs => (items fuel cs).map fun (js, rest) => (.arr js, rest)
    | '\x7b' :: cs =>
      match skipBlanks cs with
      | '\x7d' :: rest => some (.obj [], rest)
      | cs => (members fuel cs).map fun (ms, rest) => (ofMembers ms, rest)
    | cs => scalar cs

/-- The items of an array up to its closing bracket, of which there is at least one. -/
def items : Nat → List Char → Option (List Json × List Char)
  | 0, _ => none
  | fuel + 1, cs =>
    (value fuel cs).bind fun (j, rest) =>
      match skipBlanks rest with
      | ',' :: rest => (items fuel rest).map fun (js, rest) => (j :: js, rest)
      | ']' :: rest => some ([j], rest)
      | _ => none

/-- The members of an object up to its closing brace, of which there is at least one. -/
def members : Nat → List Char → Option (List (Option String × Json) × List Char)
  | 0, _ => none
  | fuel + 1, cs =>
    match skipBlanks cs with
    | '"' :: cs =>
      (stringBody cs).bind fun (name, rest) =>
        match skipBlanks rest with
        | ':' :: rest =>
          (value fuel rest).bind fun (j, rest) =>
            match skipBlanks rest with
            | ',' :: rest => (members fuel rest).map fun (ms, rest) => ((name, j) :: ms, rest)
            | '\x7d' :: rest => some ([(name, j)], rest)
            | _ => none
        | _ => none
    | _ => none

end

/-- Reads a text as one JSON value with nothing but blanks around it. -/
def parse? (text : String) : Option Json :=
  let cs := text.toList
  match value (2 * cs.length + 2) cs with
  | some (j, rest) => if (skipBlanks rest).isEmpty then some j else none
  | none => none

end MxStar.Json
