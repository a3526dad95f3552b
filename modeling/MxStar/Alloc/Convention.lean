import MxStar.Alloc.Expansion
import MxStar.IR.Flow

/-!
The calling convention made explicit.

After this stage every constraint of the machine is visible as a physical register: arguments and results
of calls go through the registers meant for them, division through rax and rdx, and a variable shift count
through rcx. Constants that do not fit 32 bits and addresses of statics go through registers where the
machine has no operand for them.

Arguments past the sixth are pushed from the last to the first, after one word of padding when their
number is odd, so that the stack stays aligned at the call.
-/
namespace MxStar.Alloc

open IR

def toTemp (v : Operand) : Expand Operand := do
  let t ← fresh "tmp"
  emit (.move (.vreg t) v)
  return .vreg t

def toReg (v : Operand) : Expand Operand := if v.isReg then pure v else toTemp v

/-- A register with the value, or a constant that fits 32 bits. -/
def toSource (v : Operand) : Expand Operand :=
  match v with
  | .vreg _ | .phys _ => pure v
  | .imm w => if fitsImm32 w then pure v else toTemp v
  | .static _ => toTemp v

/-- An address that the machine can encode. -/
def toAddress : Address → Expand Address
  | .base b offset =>
    if fitsImm32 offset then return .base (← toReg b) offset
    else do
      let t ← fresh "addr"
      emit (.move (.vreg t) (.imm offset))
      let b ← toReg b
      emit (.binary (.vreg t) .add (.vreg t) b)
      return .base (.vreg t) 0
  | a => pure a

/-- A comparison with a register on its left. -/
def toComparison (cond : CmpOp) (lhs rhs : Operand) : Expand (CmpOp × Operand × Operand) := do
  let (cond, lhs, rhs) :=
    if !lhs.isReg && rhs.isReg then (cond.swap, rhs, lhs) else (cond, lhs, rhs)
  let lhs ← toReg lhs
  let rhs ← toSource rhs
  return (cond, lhs, rhs)

/-- Pushes arguments, the last one first. -/
def pushArgs (args : List Operand) : Expand Unit := do
  if args.length % 2 = 1 then emit (.push (.imm 0))
  args.reverse.forM fun a => do emit (.push (← toSource a))

/-- A call whose arguments are where the convention wants them. -/
def expandCall (dst : Option Operand) (callee : Callee) (args : List Operand) : Expand Unit := do
  let stack := args.drop PhysReg.params.length
  pushArgs stack
  let inRegs := PhysReg.params.zip args
  inRegs.forM fun (r, a) => emit (.move (.phys r) a)
  emit (.call none callee (inRegs.map fun (r, _) => .phys r) (stack.length + stack.length % 2))
  match dst with
  | some d => emit (.move d (.phys .rax))
  | none => pure ()

/-- An instruction that keeps to the convention. -/
def expandConvention : Instr → Expand Unit
  | .binary dst op lhs rhs =>
    match op with
    | .div | .mod => do
      let divisor ← toReg rhs
      let result : Operand := .phys (if op = .div then .rax else .rdx)
      emit (.move (.phys .rax) lhs)
      emit (.binary result op (.phys .rax) divisor)
      emit (.move dst result)
    | .shl | .shr => do
      let count : Operand ← match rhs with
        | .imm k => pure (.imm (k &&& 63))
        | v => do
          emit (.move (.phys .rcx) v)
          pure (.phys .rcx)
      if dst ≠ lhs then emit (.move dst lhs)
      emit (.binary dst op dst count)
    | _ => do
      let lhs ← if lhs = dst then pure lhs else toSource lhs
      let rhs ← if rhs = dst then pure rhs else toSource rhs
      emit (.binary dst op lhs rhs)
  | .unary dst op src => do emit (.unary dst op (← toSource src))
  | .compare dst cond lhs rhs => do
    let (cond, lhs, rhs) ← toComparison cond lhs rhs
    emit (.compare dst cond lhs rhs)
  | .branch cond lhs rhs t e => do
    let (cond, lhs, rhs) ← toComparison cond lhs rhs
    emit (.branch cond lhs rhs t e)
  | .load dst addr => do emit (.load dst (← toAddress addr))
  | .store addr src => do
    let src ← toSource src
    emit (.store (← toAddress addr) src)
  | .call dst callee args _ => expandCall dst callee args
  | .ret (some v) => do
    emit (.move (.phys .rax) v)
    emit (.ret (some (.phys .rax)))
  | i => emit i

/-- Where a parameter arrives. -/
def bindParam (v : VReg) (i : Nat) : Instr :=
  match PhysReg.params[i]? with
  | some r => .move (.vreg v) (.phys r)
  | none => .load (.vreg v) (.incoming (i - PhysReg.params.length))

def bindParams (f : Func) : Func :=
  f.addEntry "params" (f.params.zipIdx.map fun (v, i) => bindParam v i)

/-- Makes the convention explicit in one function. -/
def applyConvention (f : Func) : Except CompileError Func := do
  let f ← f.computeFlow
  (bindParams (expandFunc expandConvention f)).computeFlow

def conventional (p : Program) : Except CompileError Program := p.mapFunctionsM applyConvention

end MxStar.Alloc
