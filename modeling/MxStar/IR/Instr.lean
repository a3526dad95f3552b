import MxStar.IR.Operator
import MxStar.IR.Builtin

/-!
Instructions of the register code.

Every operand and every memory access is one word. The same instructions serve before and after
allocation: virtual registers give way to physical ones, and the calling convention becomes visible
as moves, pushes and loads of incoming arguments.
-/
namespace MxStar.IR

/-- The number of a block within its function. -/
abbrev BlockId := Nat

/-- The number of a function within the program. -/
abbrev FuncId := Nat

/-- The number of a static within the program. -/
abbrev StaticId := Nat

/-- The number of a slot within the frame of a function. -/
abbrev SlotId := Nat

inductive Operand where
  | vreg (v : VReg)
  | phys (p : PhysReg)
  | imm (w : Word)
  /-- The address of a static. -/
  | static (s : StaticId)
  deriving DecidableEq, Repr, Inhabited

namespace Operand

def reg? : Operand → Option Reg
  | .vreg v => some (.virt v)
  | .phys p => some (.phys p)
  | .imm _ | .static _ => none

def vreg? : Operand → Option VReg
  | .vreg v => some v
  | .phys _ | .imm _ | .static _ => none

def phys? : Operand → Option PhysReg
  | .phys p => some p
  | .vreg _ | .imm _ | .static _ => none

def imm? : Operand → Option Word
  | .imm w => some w
  | .vreg _ | .phys _ | .static _ => none

def isReg (v : Operand) : Bool := v.reg?.isSome

def ofReg : Reg → Operand
  | .virt v => .vreg v
  | .phys p => .phys p

end Operand

inductive Address where
  | base (base : Operand) (offset : Word)
  | static (s : StaticId)
  /-- A slot of the frame. -/
  | slot (k : SlotId)
  /-- An argument passed on the stack, counted from zero. -/
  | incoming (k : Nat)
  deriving DecidableEq, Repr, Inhabited

/-- The operand that an address is based on. -/
def Address.operands : Address → List Operand
  | .base b _ => [b]
  | .static _ | .slot _ | .incoming _ => []

/-- Replaces the operand that an address is based on. -/
def Address.mapOperands (f : Operand → Operand) : Address → Address
  | .base b offset => .base (f b) offset
  | .static s => .static s
  | .slot k => .slot k
  | .incoming k => .incoming k

inductive Callee where
  | func (id : FuncId)
  | builtin (b : Builtin)
  deriving DecidableEq, Repr, Inhabited

inductive Instr where
  | binary (dst : Operand) (op : BinOp) (lhs rhs : Operand)
  | unary (dst : Operand) (op : UnOp) (src : Operand)
  /-- Writes one if the comparison holds and zero otherwise. -/
  | compare (dst : Operand) (cond : CmpOp) (lhs rhs : Operand)
  | move (dst src : Operand)
  | load (dst : Operand) (addr : Address)
  | store (addr : Address) (src : Operand)
  /-- A call. Once the calling convention is explicit, `args` are the argument registers and
  `stackArgs` counts the words pushed before the call, padding included. -/
  | call (dst : Option Operand) (callee : Callee) (args : List Operand) (stackArgs : Nat)
  | push (src : Operand)
  | jump (target : BlockId)
  | branch (cond : CmpOp) (lhs rhs : Operand) (thenBlock elseBlock : BlockId)
  | ret (value : Option Operand)
  deriving DecidableEq, Repr, Inhabited

namespace Instr

/-- Whether the instruction ends its block. -/
def isTerminator : Instr → Bool
  | .jump _ | .branch .. | .ret _ => true
  | _ => false

def isCall : Instr → Bool
  | .call .. => true
  | _ => false

/-- The blocks that may follow, each once. -/
def successors : Instr → List BlockId
  | .jump target => [target]
  | .branch _ _ _ t e => if t = e then [t] else [t, e]
  | _ => []

def mapTargets (f : BlockId → BlockId) : Instr → Instr
  | .jump target => .jump (f target)
  | .branch cond lhs rhs t e => .branch cond lhs rhs (f t) (f e)
  | i => i

def dst? : Instr → Option Operand
  | .binary dst .. | .unary dst .. | .compare dst .. | .move dst _ | .load dst _ => some dst
  | .call dst .. => dst
  | _ => none

def sources : Instr → List Operand
  | .binary _ _ lhs rhs | .compare _ _ lhs rhs | .branch _ lhs rhs _ _ => [lhs, rhs]
  | .unary _ _ src | .move _ src | .push src => [src]
  | .load _ addr => addr.operands
  | .store addr src => addr.operands ++ [src]
  | .call _ _ args _ => args
  | .ret value => value.toList
  | .jump _ => []

def operands (i : Instr) : List Operand := i.dst?.toList ++ i.sources

def mapOperands (f : Operand → Operand) : Instr → Instr
  | .binary dst op lhs rhs => .binary (f dst) op (f lhs) (f rhs)
  | .unary dst op src => .unary (f dst) op (f src)
  | .compare dst cond lhs rhs => .compare (f dst) cond (f lhs) (f rhs)
  | .move dst src => .move (f dst) (f src)
  | .load dst addr => .load (f dst) (addr.mapOperands f)
  | .store addr src => .store (addr.mapOperands f) (f src)
  | .call dst callee args stackArgs => .call (dst.map f) callee (args.map f) stackArgs
  | .push src => .push (f src)
  | .jump target => .jump target
  | .branch cond lhs rhs t e => .branch cond (f lhs) (f rhs) t e
  | .ret value => .ret (value.map f)

/-- The static that a memory access names directly. -/
def staticAccess? : Instr → Option StaticId
  | .load _ (.static s) | .store (.static s) _ => some s
  | _ => none

/-- The statics referred to, as places or as addresses. -/
def statics (i : Instr) : List StaticId :=
  i.staticAccess?.toList ++ i.operands.filterMap fun
    | .static s => some s
    | _ => none

/-- Replaces a static in an operand. -/
def renameOperand (f : StaticId → StaticId) : Operand → Operand
  | .static s => .static (f s)
  | v => v

def mapStatics (f : StaticId → StaticId) (i : Instr) : Instr :=
  match i.mapOperands (renameOperand f) with
  | .load dst (.static s) => .load dst (.static (f s))
  | .store (.static s) src => .store (.static (f s)) src
  | i => i

end Instr

end MxStar.IR
