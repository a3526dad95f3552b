import MxStar.IR.Printer

/-!
Why a run of register code ends without a value.
-/
namespace MxStar.Interp

open IR

inductive Meaningless where
  | registerRange (v : VReg)
  | writeTo (v : Operand)
  | stackArgument (k : Nat)
  | slotRange (k : SlotId)
  | address (a : Address)
  | static (s : StaticId)
  | unterminated (b : BlockId)
  | function (f : FuncId)
  deriving DecidableEq, Repr

def Meaningless.message : Meaningless → String
  | .registerRange v => "register " ++ (Reg.virt v).render ++ " out of range"
  | .writeTo v => "write to " ++ v.render
  | .stackArgument k => s!"missing stack argument {k}"
  | .slotRange k => s!"slot {k} out of range"
  | .address a => a.render
  | .static s => s!"static {s}"
  | .unterminated b => "block " ++ blockName b ++ " has no terminator"
  | .function f => s!"function {f}"

/-- The number of calls that may be active at once. -/
def maxDepth : Nat := 1000

/-- Why a run ends without a value. -/
inductive RunError where
  | undefinedRegister (reg : Reg) (func : String)
  | undefinedSlot (k : SlotId) (func : String)
  | outOfBounds (address : Word)
  | divisionByZero
  | stackOverflow
  | outOfFuel
  | unsupported (m : Meaningless)
  | noEntry
  /-- The result of plain arithmetic does not fit its type. -/
  | overflow
  deriving DecidableEq, Repr

def RunError.message : RunError → String
  | .undefinedRegister reg func =>
    "read of undefined register " ++ reg.render ++ " in `" ++ func ++ "`"
  | .undefinedSlot k func => s!"read of uninitialized slot {k} in `" ++ func ++ "`"
  | .outOfBounds a => "memory access out of bounds at address " ++ Text.Decimal.render a
  | .divisionByZero => "division by zero"
  | .stackOverflow => s!"call depth limit ({maxDepth}) exceeded"
  | .outOfFuel => "instruction budget exhausted"
  | .unsupported m => "cannot interpret `" ++ m.message ++ "`"
  | .noEntry => "program has no entry function"
  | .overflow => "arithmetic overflow"

end MxStar.Interp
