import MxStar.IR.Program

/-!
Two-operand form.

The machine computes into its left operand. An operation whose destination is neither of its
operands becomes a move of the left operand to the destination and an operation there. Operations
whose destination is one of the operands stay as they are.
-/
namespace MxStar.Pass

open IR

def isThreeOperand : Instr → Bool
  | .binary dst _ lhs rhs => dst ≠ lhs && dst ≠ rhs
  | _ => false

def twoOperandInstr : Instr → List Instr
  | .binary dst op lhs rhs =>
    if dst ≠ lhs && dst ≠ rhs then [.move dst lhs, .binary dst op dst rhs]
    else [.binary dst op lhs rhs]
  | i => [i]

def twoOperandFunc (f : Func) : Func := f.expandAll twoOperandInstr

/-- The number of instructions of a function that are not in two-operand form. -/
def threeOperandCount (f : Func) : Nat := f.allInstrs.countP isThreeOperand

def twoOperand (p : Program) : Program := p.mapFunctions twoOperandFunc

end MxStar.Pass
