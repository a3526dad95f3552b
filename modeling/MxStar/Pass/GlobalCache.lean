import MxStar.IR.Program
import MxStar.SortedSet

/-!
Global variables in registers.

In a function that calls nothing, global variables are kept in registers. They are loaded in a new
entry block, and those that the function writes are stored before each return.
-/
namespace MxStar.Pass

open IR

/-- The statics that a function loads from or stores to by name. -/
def accessed (f : Func) : SortedSet StaticId := .ofList (f.instrs.filterMap Instr.staticAccess?)

def written (f : Func) : SortedSet StaticId :=
  .ofList (f.instrs.filterMap fun
    | .store (.static s) _ => some s
    | _ => none)

/-- The global variables that a function keeps in registers, and the first of these registers. -/
structure Cache where
  globals : SortedSet StaticId
  base : VReg
  deriving DecidableEq, Repr, Inhabited

namespace Cache

def reg? (c : Cache) (s : StaticId) : Option VReg := (c.globals.toList.idxOf? s).map (c.base + ·)

def loads (c : Cache) : List Instr :=
  c.globals.toList.zipIdx.map fun (s, i) => .load (.vreg (c.base + i)) (.static s)

def stores (c : Cache) (written : SortedSet StaticId) : List Instr :=
  written.toList.filterMap fun s => (c.reg? s).map fun v => .store (.static s) (.vreg v)

/-- An instruction with registers in place of global variables. -/
def instr (c : Cache) (written : SortedSet StaticId) (i : Instr) : List Instr :=
  match i with
  | .load dst (.static s) => [((c.reg? s).map fun v => Instr.move dst (.vreg v)).getD i]
  | .store (.static s) src => [((c.reg? s).map fun v => Instr.move (.vreg v) src).getD i]
  | .ret _ => c.stores written ++ [i]
  | _ => [i]

end Cache

def isGlobal (statics : Array Static) (s : StaticId) : Bool :=
  statics[s]?.any fun d => d.init = .word

/-- Keeps the global variables of a function in registers. -/
def cacheGlobals (statics : Array Static) (f : Func) : Func :=
  let globals := (accessed f).filter (isGlobal statics)
  if globals.isEmpty then f
  else
    let c : Cache := ⟨globals, f.vregCount⟩
    let hints := globals.toList.map fun s => (statics[s]?.map (·.name)).getD ""
    let g := { f with hints := f.hints ++ hints.toArray }
    (g.expandLayout (c.instr (written f))).addEntry "global_cache" c.loads

end MxStar.Pass
