import MxStar.Tree.Basic
import MxStar.IR.Printer

/-!
What can go wrong in a compilation.

A violation is a tree or a flow graph that the compiler was promised not to get. A fault is a state
that the stages before it should have ruled out. Each cause keeps what its message mentions; the
wording is in `CompileError.message` and the functions below it.
-/
namespace MxStar

open MxStar.Tree IR

/-- What a name stands for. -/
inductive SymbolKind where
  | var | func | cls | field | method
  deriving DecidableEq, Repr

def SymbolKind.word : SymbolKind → String
  | .var => "variable"
  | .func => "function"
  | .cls => "class"
  | .field => "field"
  | .method => "method"

/-- The two statements that need a loop around them. -/
inductive LoopJump where
  | leave | next
  deriving DecidableEq, Repr

def LoopJump.keyword : LoopJump → String
  | .leave => "break"
  | .next => "continue"

/-- A promise about the input that does not hold. -/
inductive Violation where
  | selfOutsideMethod (loc : Location)
  | notAssignable (loc : Location)
  | memberOf (ty : Ty) (field : String) (loc : Location)
  | indexRange (k : Word) (loc : Location)
  | lengthRange (n : Word) (loc : Location)
  | noReceiver (cls method : String) (loc : Location)
  | noDimensions (ty : Ty) (loc : Location)
  | fallsOff (block : BlockId) (func : String)
  | missingTarget (block : BlockId) (func : String) (target : BlockId)
  deriving DecidableEq, Repr

def Violation.message : Violation → String
  | .selfOutsideMethod loc => "`this` outside of a method at " ++ loc.render
  | .notAssignable loc => "expression at " ++ loc.render ++ " is not assignable"
  | .memberOf ty field loc =>
    "member `" ++ field ++ "` accessed on " ++ ty.render ++ " at " ++ loc.render
  | .indexRange k loc =>
    "constant index " ++ Text.Decimal.render k ++ " out of range at " ++ loc.render
  | .lengthRange n loc =>
    "array length " ++ Text.Decimal.render n ++ " is too large at " ++ loc.render
  | .noReceiver cls method loc =>
    "method `" ++ cls ++ "." ++ method ++ "` called without a receiver at " ++ loc.render
  | .noDimensions ty loc => "`new " ++ ty.render ++ "` without dimensions at " ++ loc.render
  | .fallsOff block func =>
    "block " ++ blockName block ++ " of `" ++ func ++ "` falls off the end of the function"
  | .missingTarget block func target =>
    "block " ++ blockName block ++ " of `" ++ func ++ "` jumps to missing block " ++
      blockName target

/-- A state that earlier stages should have ruled out. -/
inductive Fault where
  | unallocated (v : Operand)
  | unlabelled (s : StaticId)
  | unknownFunction (f : FuncId)
  | uncoloured (v : VReg) (func : String)
  deriving DecidableEq, Repr

def Fault.message : Fault → String
  | .unallocated v => "operand " ++ v.render ++ " reached code generation without a register"
  | .unlabelled s => s!"no label for static {s}"
  | .unknownFunction f => s!"call to unknown function #{f}"
  | .uncoloured v func => (Reg.virt v).render ++ " in `" ++ func ++ "` was never colored"

/-- Why a compilation fails. -/
inductive CompileError where
  | unresolved (kind : SymbolKind) (name : String) (loc : Location)
  | jumpOutsideLoop (jump : LoopJump) (loc : Location)
  | redefinition (kind : SymbolKind) (name : String)
  | missingEntry
  | violation (v : Violation)
  | allocationExhausted (func : String) (rounds : Nat)
  | fault (f : Fault)
  deriving DecidableEq, Repr

def CompileError.message : CompileError → String
  | .unresolved kind name loc =>
    "unresolved " ++ kind.word ++ " `" ++ name ++ "` at " ++ loc.render
  | .jumpOutsideLoop jump loc => "`" ++ jump.keyword ++ "` outside of a loop at " ++ loc.render
  | .redefinition kind name => kind.word ++ " `" ++ name ++ "` is declared more than once"
  | .missingEntry => "program has no `main` function"
  | .violation v => "contract violation: " ++ v.message
  | .allocationExhausted func rounds =>
    "register allocation of `" ++ func ++ s!"` did not converge after {rounds} rounds"
  | .fault f => "internal error: " ++ f.message

end MxStar
