import MxStar.Alloc.Coloring
import MxStar.Alloc.Spill
import MxStar.Error

/-!
Register allocation.

A function goes through rounds: find what is live, build the interference graph, colour it, and if
some registers have to be spilled, spill them and start again. When every register has a colour, the
operands are replaced. The number of rounds is bounded by the number of registers at the start.
-/
namespace MxStar.Alloc

open IR

structure Stats where
  rounds : Nat := 0
  spilled : Nat := 0
  slots : Nat := 0
  deriving DecidableEq, Repr, Inhabited

/-- An operand by its colour, where it has one. -/
def colorOperand (c : Coloring) : Operand → Operand
  | .vreg v => (c.get? v).elim (.vreg v) .phys
  | v => v

def uncoloured (c : Coloring) (f : Func) : List VReg :=
  (f.instrs.flatMap Instr.operands).filterMap fun v => v.vreg?.filter fun r => (c.get? r).isNone

def applyColoring (c : Coloring) (f : Func) : Func :=
  f.mapLayout (·.mapOperands (colorOperand c))

/-- Goes through rounds until every register has a colour. -/
def allocateFrom (palette : List PhysReg) :
    Nat → Func → SortedSet VReg → Stats → Except CompileError (Func × Stats)
  | 0, f, _, stats => .error (.allocationExhausted f.name stats.rounds)
  | fuel + 1, f, unspillable, stats =>
    let stats := { stats with rounds := stats.rounds + 1 }
    match color (.build f (analyze f)) palette unspillable with
    | .ok c =>
      match (uncoloured c f).getLast? with
      | some v => .error (.fault (.uncoloured v f.name))
      | none => .ok (applyColoring c f, { stats with slots := f.slots })
    | .error spills =>
      if spills.isEmpty then .error (.allocationExhausted f.name stats.rounds)
      else
        let (f, unspillable) := spillRegs f spills unspillable
        allocateFrom palette fuel f unspillable { stats with spilled := stats.spilled + spills.size }

def allocate (palette : List PhysReg) (f : Func) : Except CompileError (Func × Stats) :=
  allocateFrom palette (f.vregCount + 1) f ∅ {}

def allocated (palette : List PhysReg) (p : Program) :
    Except CompileError (Program × List Stats) := do
  let fs ← p.functions.toList.mapM (allocate palette)
  return ({ p with functions := (fs.map (·.1)).toArray }, fs.map (·.2))

end MxStar.Alloc
