import MxStar.IR.Operator
import MxStar.Text.Decimal

/-!
Machine instructions.

The part of the x86-64 instruction set that the compiler emits, and its text. Every memory access is
one quadword.
-/
namespace MxStar.Asm

open IR (Word PhysReg CmpOp)

inductive Mem where
  | base (base : PhysReg) (disp : Word)
  | label (name : String)
  deriving DecidableEq, Repr, Inhabited

namespace Mem

def uses (r : PhysReg) : Mem → Bool
  | .base b _ => b = r
  | .label _ => false

def render : Mem → String
  | .base b disp =>
    if disp = 0 then "[" ++ b.name ++ "]"
    else if disp < 0 then "[" ++ b.name ++ " - " ++ Text.Decimal.render (-disp) ++ "]"
    else "[" ++ b.name ++ " + " ++ Text.Decimal.render disp ++ "]"
  | .label name => "[rel " ++ name ++ "]"

end Mem

inductive Arg where
  | reg (r : PhysReg)
  | imm (w : Word)
  | mem (m : Mem)
  deriving DecidableEq, Repr, Inhabited

namespace Arg

def uses (r : PhysReg) : Arg → Bool
  | .reg s => s = r
  | .imm _ => false
  | .mem m => m.uses r

def render : Arg → String
  | .reg r => r.name
  | .imm w => Text.Decimal.render w
  | .mem m => m.render

end Arg

inductive AluOp where
  | add | sub | imul | and | or | xor
  deriving DecidableEq, Repr, Inhabited

def AluOp.mnemonic : AluOp → String
  | .add => "add"
  | .sub => "sub"
  | .imul => "imul"
  | .and => "and"
  | .or => "or"
  | .xor => "xor"

/-- A shift to the left, or one to the right that keeps the sign. -/
inductive ShiftOp where
  | sal | sar
  deriving DecidableEq, Repr, Inhabited

def ShiftOp.mnemonic : ShiftOp → String
  | .sal => "sal"
  | .sar => "sar"

/-- The letters that a comparison adds to a conditional instruction. All comparisons are signed. -/
def condition : CmpOp → String
  | .eq => "e"
  | .ne => "ne"
  | .lt => "l"
  | .le => "le"
  | .gt => "g"
  | .ge => "ge"

inductive Instr where
  /-- Copies a word, never from memory to memory. -/
  | mov (dst src : Arg)
  /-- Takes an address. -/
  | lea (dst : PhysReg) (mem : Mem)
  /-- Extends the low byte of a register with zeros. -/
  | movzx (dst src : PhysReg)
  | push (src : Arg)
  | pop (dst : PhysReg)
  | alu (op : AluOp) (dst : PhysReg) (src : Arg)
  /-- Shifts by a constant, or by the low byte of rcx. -/
  | shift (op : ShiftOp) (dst : PhysReg) (count : Option Nat)
  | neg (dst : PhysReg)
  | not (dst : PhysReg)
  /-- Extends the sign of rax into rdx. -/
  | cqo
  /-- Divides rdx and rax together; the quotient goes to rax and the remainder to rdx. -/
  | idiv (divisor : PhysReg)
  | cmp (lhs : PhysReg) (rhs : Arg)
  /-- Writes the outcome of a comparison to the low byte of a register. -/
  | set (cond : CmpOp) (dst : PhysReg)
  | jmp (target : String)
  | jcc (cond : CmpOp) (target : String)
  | call (target : String)
  | ret
  deriving DecidableEq, Repr, Inhabited

namespace Instr

/-- Whether an operand of the instruction involves a register. -/
def uses (r : PhysReg) : Instr → Bool
  | .mov dst src => dst.uses r || src.uses r
  | .lea dst mem => dst = r || mem.uses r
  | .movzx dst src => dst = r || src = r
  | .push src => src.uses r
  | .pop s | .neg s | .not s | .idiv s => s = r
  | .alu _ dst src => dst = r || src.uses r
  | .shift _ dst count => dst = r || (count.isNone && r = .rcx)
  | .cqo => r = .rax || r = .rdx
  | .cmp lhs rhs => lhs = r || rhs.uses r
  | .set _ dst => dst = r
  | .jmp _ | .jcc .. | .call _ | .ret => false

def isCall : Instr → Bool
  | .call _ => true
  | _ => false

def jumpTarget? : Instr → Option String
  | .jmp target => some target
  | _ => none

/-- The target of a jump, conditional or not. -/
def branchTarget? : Instr → Option String
  | .jmp target | .jcc _ target => some target
  | _ => none

/-- The text of an instruction, without indentation. Where no register tells the width of the
operands, it is spelled out. -/
def text : Instr → String
  | .mov (.mem m) (.imm w) => "mov qword " ++ m.render ++ ", " ++ Text.Decimal.render w
  | .mov dst src => "mov " ++ dst.render ++ ", " ++ src.render
  | .lea dst mem => "lea " ++ dst.name ++ ", " ++ mem.render
  | .movzx dst src => "movzx " ++ dst.name ++ ", " ++ src.lowByte
  | .push (.mem m) => "push qword " ++ m.render
  | .push src => "push " ++ src.render
  | .pop dst => "pop " ++ dst.name
  | .alu op dst src => op.mnemonic ++ " " ++ dst.name ++ ", " ++ src.render
  | .shift op dst count =>
    op.mnemonic ++ " " ++ dst.name ++ ", " ++ (count.map Nat.repr).getD "cl"
  | .neg dst => "neg " ++ dst.name
  | .not dst => "not " ++ dst.name
  | .cqo => "cqo"
  | .idiv divisor => "idiv " ++ divisor.name
  | .cmp lhs rhs => "cmp " ++ lhs.name ++ ", " ++ rhs.render
  | .set cond dst => "set" ++ condition cond ++ " " ++ dst.lowByte
  | .jmp target => "jmp " ++ target
  | .jcc cond target => "j" ++ condition cond ++ " " ++ target
  | .call target => "call " ++ target
  | .ret => "ret"

def render (i : Instr) : String := "    " ++ i.text

end Instr

end MxStar.Asm
