import MxStar.IR.Register

/-!
Operators on words.

Arithmetic is that of 64-bit two's complement. Division goes toward zero and has no result for a
zero divisor; shift counts are taken modulo the word size and a shift to the right keeps the sign.
-/
namespace MxStar.IR

inductive BinOp where
  | add | sub | mul | div | mod | shl | shr | and | or | xor
  deriving DecidableEq, Repr

namespace BinOp

/-- Whether the operands may be exchanged. -/
def isCommutative : BinOp → Bool
  | .add | .mul | .and | .or | .xor => true
  | .sub | .div | .mod | .shl | .shr => false

/-- The result, which division by zero does not have. -/
def eval (op : BinOp) (l r : Word) : Option Word :=
  match op with
  | .add => some (l + r)
  | .sub => some (l - r)
  | .mul => some (l * r)
  | .div => if r = 0 then none else some (l / r)
  | .mod => if r = 0 then none else some (l % r)
  | .shl => some (l <<< (r &&& 63))
  | .shr => some (l >>> (r &&& 63))
  | .and => some (l &&& r)
  | .or => some (l ||| r)
  | .xor => some (l ^^^ r)

def mnemonic : BinOp → String
  | .add => "add"
  | .sub => "sub"
  | .mul => "mul"
  | .div => "div"
  | .mod => "mod"
  | .shl => "shl"
  | .shr => "shr"
  | .and => "and"
  | .or => "or"
  | .xor => "xor"

end BinOp

inductive UnOp where
  | neg | not
  deriving DecidableEq, Repr

namespace UnOp

def eval : UnOp → Word → Word
  | .neg, w => -w
  | .not, w => ~~~w

def mnemonic : UnOp → String
  | .neg => "neg"
  | .not => "not"

end UnOp

inductive CmpOp where
  | eq | ne | lt | le | gt | ge
  deriving DecidableEq, Repr

namespace CmpOp

/-- The comparison that holds exactly when this one does not. -/
def negate : CmpOp → CmpOp
  | .eq => .ne
  | .ne => .eq
  | .lt => .ge
  | .le => .gt
  | .gt => .le
  | .ge => .lt

/-- The comparison that means the same once the operands are exchanged. -/
def swap : CmpOp → CmpOp
  | .eq => .eq
  | .ne => .ne
  | .lt => .gt
  | .le => .ge
  | .gt => .lt
  | .ge => .le

def eval : CmpOp → Word → Word → Bool
  | .eq, l, r => l == r
  | .ne, l, r => l != r
  | .lt, l, r => l < r
  | .le, l, r => l ≤ r
  | .gt, l, r => r < l
  | .ge, l, r => r ≤ l

def mnemonic : CmpOp → String
  | .eq => "eq"
  | .ne => "ne"
  | .lt => "lt"
  | .le => "le"
  | .gt => "gt"
  | .ge => "ge"

end CmpOp

/-- Whether a word can be encoded as an immediate operand of 32 bits. -/
def fitsImm32 (w : Word) : Bool := -2147483648 ≤ w && w ≤ 2147483647

end MxStar.IR
