/-!
Decimal integers of one machine word.

Two readers live here. `parse?` reads a whole token: one optional sign, at least one digit, and a
value that fits a signed 64-bit word. `leading` reads what it can from the front of a byte string:
an optional minus, then digits, with the value taken modulo the word size; whatever follows the
digits is ignored and no digits mean zero.
-/
namespace MxStar.Text.Decimal

/-- The value of a run of decimal digits, most significant first, if every character is a digit. -/
def digits? (cs : List Char) : Option Nat :=
  cs.foldl (fun acc c => acc.bind fun n =>
    if c.isDigit then some (10 * n + (c.toNat - '0'.toNat)) else none) (some 0)

def fit? (i : Int) : Option Int64 :=
  if Int64.minValue.toInt ≤ i && i ≤ Int64.maxValue.toInt then some (Int64.ofInt i) else none

def parse? (s : String) : Option Int64 :=
  let signed (sign : Int) (cs : List Char) : Option Int64 :=
    if cs.isEmpty then none else (digits? cs).bind fun n => fit? (sign * n)
  match s.toList with
  | '-' :: cs => signed (-1) cs
  | '+' :: cs => signed 1 cs
  | cs => signed 1 cs

def isDigitByte (b : UInt8) : Bool := 0x30 ≤ b && b ≤ 0x39

/-- The value of the digits at the front of a byte string, modulo the word size. -/
def leadingDigits (bytes : List UInt8) : Int64 :=
  (bytes.takeWhile isDigitByte).foldl (fun v b => v * 10 + Int64.ofNat (b.toNat - 0x30)) 0

/-- The value of an optional minus and digits at the front of a byte string, where the sign is not yet
made to fit a word. -/
def leadingExact : List UInt8 → Int
  | [] => 0
  | b :: bytes =>
    if b == 0x2d then -(leadingDigits bytes).toInt else (leadingDigits (b :: bytes)).toInt

def leading (bytes : List UInt8) : Int64 := Int64.ofInt (leadingExact bytes)

def render (w : Int64) : String := toString w.toInt

end MxStar.Text.Decimal
