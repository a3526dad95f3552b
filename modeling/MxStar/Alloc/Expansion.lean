import MxStar.IR.Func

/-!
Replacing instructions by short sequences.

Several stages replace each instruction of a function by a few that do the same, for which they may
take new virtual registers. An expansion collects these instructions and names the registers taken;
`expandFunc` applies one to every block of the layout.
-/
namespace MxStar.Alloc

open IR

/-- The registers of the function so far, and the instructions that replace the current one. -/
structure Expansion where
  hints : Array String
  code : List Instr := []
  deriving DecidableEq, Repr, Inhabited

abbrev Expand := StateM Expansion

def emit (i : Instr) : Expand Unit := modify fun x => { x with code := x.code ++ [i] }

def fresh (hint : String) : Expand VReg :=
  modifyGet fun x => (x.hints.size, { x with hints := x.hints.push hint })

/-- Replaces every instruction of a sequence, given the registers so far. -/
def expandCode (expand : Instr → Expand Unit) :
    List Instr → Array String → List Instr × Array String
  | [], hints => ([], hints)
  | i :: rest, hints =>
    let x := ((expand i).run { hints := hints }).2
    let (code, hints) := expandCode expand rest x.hints
    (x.code ++ code, hints)

def expandBlock (expand : Instr → Expand Unit) (f : Func) (b : BlockId) : Func :=
  let (code, hints) := expandCode expand (f.code b) f.hints
  { f.setCode b code with hints := hints }

def expandFunc (expand : Instr → Expand Unit) (f : Func) : Func :=
  f.layout.foldl (expandBlock expand) f

end MxStar.Alloc
