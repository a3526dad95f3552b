import MxStar.Alloc.Allocation
import MxStar.Alloc.Convention
import MxStar.Asm.Peephole
import MxStar.Lowering.Program
import MxStar.Pass.Inline
import MxStar.Pass.Statics
import MxStar.Pass.TwoOperand

/-!
The compiler.

A tree is lowered to register code, which is brought into two-operand form, has calls inlined if
that is wanted, and has its statics laid out. Then the calling convention is made explicit,
registers are allocated, and the listing is written and cleaned up.
-/
namespace MxStar

open IR

structure Options where
  inline : Bool := false
  deriving DecidableEq, Repr, Inhabited

def optimize (options : Options) (p : Program) : Program :=
  let p := Pass.twoOperand p
  let p := if options.inline then Pass.inlineCalls {} p else p
  Pass.layoutStatics p

def compileToIR (scope : Scope) (options : Options) (p : Tree.Program) :
    Except CompileError Program := do
  return optimize options (← Lowering.lowerProgram scope p)

def emitListing (p : Program) : Except CompileError Asm.Listing := do
  return Asm.clean (← Asm.listing p)

/-- Allocates registers from a palette and writes the listing. The result has also the program as it
is after allocation. -/
def assemble (palette : List PhysReg) (p : Program) :
    Except CompileError (Program × Asm.Listing) := do
  let (p, _) ← Alloc.allocated palette (← Alloc.conventional p)
  return (p, ← emitListing p)

/-- The assembly text of a program, given the names that it declares. -/
def compileWith (scope : Scope) (options : Options) (p : Tree.Program) :
    Except CompileError String := do
  let (_, listing) ← assemble PhysReg.allocatable (← compileToIR scope options p)
  return listing.render

def compile (options : Options) (p : Tree.Program) : Except CompileError String := do
  compileWith (← Scope.ofProgram p) options p

end MxStar
