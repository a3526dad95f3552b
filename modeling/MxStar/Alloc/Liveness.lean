import MxStar.IR.Func
import MxStar.SortedSet

/-!
Liveness of registers.

A register is live at a point if some path from there reads it before anything writes it. Block sets
are found by working through a queue of blocks: the registers live at the end of a block are those
live at the start of its successors, and when the set at its start changes, its predecessors are put
back in the queue. Sets only grow, which bounds the number of visits.
-/
namespace MxStar.Alloc

open IR

abbrev RegSet := SortedSet Reg

/-- The registers an instruction writes. A call may write every register that it may destroy, and a
division writes both its registers whichever of them is wanted. -/
def defs (i : Instr) : RegSet :=
  let dst := (i.dst?.bind Operand.reg?).toList
  match i with
  | .call .. => .ofList (dst ++ PhysReg.callerSaved.map .phys)
  | .binary _ .div _ _ | .binary _ .mod _ _ => .ofList (dst ++ [.phys .rax, .phys .rdx])
  | _ => .ofList dst

def uses (i : Instr) : RegSet := .ofList (i.sources.filterMap Operand.reg?)

/-- What a block does to liveness: the registers it reads before it writes them, and those it
writes. -/
structure Summary where
  reads : RegSet := ∅
  writes : RegSet := ∅
  deriving DecidableEq, Repr, Inhabited

def Summary.push (s : Summary) (i : Instr) : Summary :=
  ⟨s.reads.union ((uses i).diff s.writes), s.writes.union (defs i)⟩

def summarize (code : List Instr) : Summary := code.foldl Summary.push {}

/-- The summaries of the blocks. A block that is not in the layout counts as empty. -/
def summaries (f : Func) : Array Summary :=
  f.blocks.mapIdx fun b block => if f.layout.contains b then summarize block.instrs else {}

structure Liveness where
  liveIn : Array RegSet
  liveOut : Array RegSet
  deriving DecidableEq, Repr, Inhabited

namespace Liveness

def atStart (l : Liveness) (b : BlockId) : RegSet := l.liveIn[b]?.getD ∅

def atEnd (l : Liveness) (b : BlockId) : RegSet := l.liveOut[b]?.getD ∅

end Liveness

/-- A search for the live sets: the blocks to visit and the sets so far. -/
structure Sweep where
  queue : List BlockId
  live : Liveness
  deriving DecidableEq, Repr, Inhabited

def enqueue (queue : List BlockId) (b : BlockId) : List BlockId :=
  if queue.contains b then queue else queue ++ [b]

/-- Computes the sets of one block, and queues its predecessors if the set at its start changed. -/
def Sweep.visit (f : Func) (sums : Array Summary) (s : Sweep) (b : BlockId) : Sweep :=
  let sum := sums[b]?.getD {}
  let out := (f.block b).succs.foldl (fun acc t => acc.union (s.live.atStart t)) ∅
  let start := sum.reads.union (out.diff sum.writes)
  let liveOut := s.live.liveOut.setIfInBounds b out
  if start = s.live.atStart b then { s with live := ⟨s.live.liveIn, liveOut⟩ }
  else ⟨(f.block b).preds.foldl enqueue s.queue,
    ⟨s.live.liveIn.setIfInBounds b start, liveOut⟩⟩

def Sweep.run (f : Func) (sums : Array Summary) : Nat → Sweep → Liveness
  | 0, s => s.live
  | fuel + 1, s =>
    match s.queue with
    | [] => s.live
    | b :: queue => Sweep.run f sums fuel (Sweep.visit f sums { s with queue := queue } b)

/-- A bound on the number of visits: each block once, and the predecessors of a block each time its
set grows, which it can do once for every register that is read. -/
def visitBound (f : Func) : Nat :=
  let reads := (f.instrs.flatMap fun i => (uses i).toList).length
  let edges := (f.blocks.toList.flatMap (·.preds)).length
  f.layout.length + reads * edges + 1

def analyze (f : Func) : Liveness :=
  let none := Array.replicate f.blocks.size (∅ : RegSet)
  Sweep.run f (summaries f) (visitBound f) ⟨f.layout.reverse, ⟨none, none⟩⟩

def liveBefore (i : Instr) (after : RegSet) : RegSet := (after.diff (defs i)).union (uses i)

/-- The registers live after each instruction of a sequence, and those live before it, from those
live at its end. -/
def liveThrough (out : RegSet) : List Instr → List RegSet × RegSet
  | [] => ([], out)
  | i :: rest =>
    let (sets, after) := liveThrough out rest
    (after :: sets, liveBefore i after)

def Liveness.after (l : Liveness) (f : Func) (b : BlockId) : List RegSet :=
  (liveThrough (l.atEnd b) (f.code b)).1

end MxStar.Alloc
