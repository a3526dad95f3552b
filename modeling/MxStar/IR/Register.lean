/-!
Registers.

Code before allocation uses virtual registers, numbered within a function. The machine has sixteen
physical registers. The calling convention says which of them carry arguments and the result, which
a call may destroy, and which a function has to preserve. The order of registers, in which sets of
them are listed, puts virtual registers first, by number.
-/
namespace MxStar.IR

/-- A value of the program: one machine word. -/
abbrev Word := Int64

/-- A virtual register, numbered within its function. -/
abbrev VReg := Nat

inductive PhysReg where
  | rax | rbx | rcx | rdx | rsi | rdi | rbp | rsp
  | r8 | r9 | r10 | r11 | r12 | r13 | r14 | r15
  deriving DecidableEq, Repr, Inhabited

namespace PhysReg

/-- The place of a register among the sixteen. -/
def index : PhysReg → Fin 16
  | rax => 0 | rbx => 1 | rcx => 2 | rdx => 3 | rsi => 4 | rdi => 5 | rbp => 6 | rsp => 7
  | r8 => 8 | r9 => 9 | r10 => 10 | r11 => 11 | r12 => 12 | r13 => 13 | r14 => 14 | r15 => 15

instance : Ord PhysReg := ⟨fun a b => compare a.index.val b.index.val⟩

def all : List PhysReg :=
  [rax, rbx, rcx, rdx, rsi, rdi, rbp, rsp, r8, r9, r10, r11, r12, r13, r14, r15]

/-- The registers that values may be put in, in the order in which they are tried. Those a call may
destroy come first, so that short-lived values leave the preserved ones alone. The stack pointer and
the frame pointer are not among them. -/
def allocatable : List PhysReg :=
  [rax, rcx, rdx, rsi, rdi, r8, r9, r10, r11, rbx, r12, r13, r14, r15]

def callerSaved : List PhysReg := [rax, rcx, rdx, rsi, rdi, r8, r9, r10, r11]

/-- The registers that a function saves before it uses them, the frame pointer apart. -/
def calleeSaved : List PhysReg := [rbx, r12, r13, r14, r15]

def params : List PhysReg := [rdi, rsi, rdx, rcx, r8, r9]

def isCalleeSaved (r : PhysReg) : Bool := calleeSaved.contains r

def name : PhysReg → String
  | rax => "rax" | rbx => "rbx" | rcx => "rcx" | rdx => "rdx"
  | rsi => "rsi" | rdi => "rdi" | rbp => "rbp" | rsp => "rsp"
  | r8 => "r8" | r9 => "r9" | r10 => "r10" | r11 => "r11"
  | r12 => "r12" | r13 => "r13" | r14 => "r14" | r15 => "r15"

/-- The name of the lowest byte of the register. -/
def lowByte : PhysReg → String
  | rax => "al" | rbx => "bl" | rcx => "cl" | rdx => "dl"
  | rsi => "sil" | rdi => "dil" | rbp => "bpl" | rsp => "spl"
  | r8 => "r8b" | r9 => "r9b" | r10 => "r10b" | r11 => "r11b"
  | r12 => "r12b" | r13 => "r13b" | r14 => "r14b" | r15 => "r15b"

def ofName? (s : String) : Option PhysReg := all.find? fun r => r.name = s

end PhysReg

inductive Reg where
  | virt (v : VReg)
  | phys (p : PhysReg)
  deriving DecidableEq, Repr, Inhabited

namespace Reg

/-- Virtual registers come before physical ones. -/
def order : Reg → Reg → Ordering
  | .virt a, .virt b => compare a b
  | .virt _, .phys _ => .lt
  | .phys _, .virt _ => .gt
  | .phys a, .phys b => compare a b

instance : Ord Reg := ⟨order⟩

def render : Reg → String
  | .virt v => s!"%{v}"
  | .phys p => "$" ++ p.name

end Reg

end MxStar.IR
