import MxStar.Alloc.Liveness

/-!
Interference between registers.

Two virtual registers interfere if one is written while the other is live; they may then not share a
physical register. Interference with a physical register forbids that register. The destination of a
move does not interfere with its source, and the pairs that moves join are recorded, so that both
ends can be given the same register.
-/
namespace MxStar.Alloc

open IR

structure Interference where
  adjacent : Array (SortedSet VReg)
  forbidden : Array (SortedSet PhysReg)
  present : Array Bool
  /-- Registers joined by a move, in the order of the moves. -/
  moves : Array (VReg × Reg)
  deriving DecidableEq, Repr, Inhabited

namespace Interference

def empty (n : Nat) : Interference :=
  { adjacent := Array.replicate n ∅, forbidden := Array.replicate n ∅
    present := Array.replicate n false, moves := #[] }

def nodes (g : Interference) : List VReg :=
  (List.range g.adjacent.size).filter fun v => g.present[v]?.getD false

def neighbours (g : Interference) (v : VReg) : SortedSet VReg := g.adjacent[v]?.getD ∅

def banned (g : Interference) (v : VReg) : SortedSet PhysReg := g.forbidden[v]?.getD ∅

/-- Records an interference. A register does not interfere with itself, and physical registers are
apart already. -/
def addEdge (g : Interference) : Reg → Reg → Interference
  | .virt x, .virt y =>
    if x = y then g
    else { g with adjacent := (g.adjacent.modify x (·.insert y)).modify y (·.insert x) }
  | .virt v, .phys p | .phys p, .virt v =>
    { g with forbidden := g.forbidden.modify v (·.insert p) }
  | .phys _, .phys _ => g

def addOperands (g : Interference) (a b : Operand) : Interference :=
  match a.reg?, b.reg? with
  | some a, some b => g.addEdge a b
  | _, _ => g

def mark (g : Interference) (v : Operand) : Interference :=
  match v with
  | .vreg v => { g with present := g.present.setIfInBounds v true }
  | _ => g

/-- Records what an instruction writes against what is live after it. -/
def addDefs (g : Interference) (i : Instr) (after : RegSet) : Interference :=
  let spared := match i with
    | .move _ src => src.reg?
    | _ => none
  (defs i).toList.foldl
    (fun g d => after.toList.foldr (fun l g => if some l = spared then g else g.addEdge d l) g) g

/-- Records what the machine demands of an operation with two operands. A divisor stays clear of the
dividend. Where the destination is not the left operand, the left operand is moved there first, so
the right one has to be elsewhere; where it is the right operand, it has to be clear of the left
one. -/
def addShape (g : Interference) : Instr → Interference
  | .binary dst op lhs rhs =>
    if op = .div || op = .mod then
      (g.addOperands rhs (.phys .rax)).addOperands rhs (.phys .rdx)
    else if dst ≠ lhs then
      if dst = rhs then g.addOperands dst lhs else g.addOperands dst rhs
    else g
  | _ => g

def addInstr (g : Interference) (i : Instr) (after : RegSet) : Interference :=
  ((i.operands.foldl mark g).addDefs i after).addShape i

/-- Records a sequence of instructions from its end on, and gives what is live before it. -/
def addCode (out : RegSet) (g : Interference) : List Instr → Interference × RegSet
  | [] => (g, out)
  | i :: rest =>
    let (g, after) := addCode out g rest
    (g.addInstr i after, liveBefore i after)

/-- The pair that a move joins, if one end is virtual. -/
def movePair? : Instr → Option (VReg × Reg)
  | .move dst src =>
    match dst.reg?, src.reg? with
    | some (.virt a), some b | some b, some (.virt a) => some (a, b)
    | _, _ => none
  | _ => none

def build (f : Func) (live : Liveness) : Interference :=
  let start := { empty f.vregCount with moves := (f.instrs.filterMap movePair?).toArray }
  f.layout.foldr (fun b g => (addCode (live.atEnd b) g (f.code b)).1) start

end Interference

end MxStar.Alloc
