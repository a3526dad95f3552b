import MxStar.Error

/-!
The flow graph of a function.

`Func.computeFlow` makes every fall into the next block an explicit jump, finds the blocks that can
be reached from the entry, records their edges, and drops the others from the layout, with the entry
in front. It fails if the last block of the layout has no successor and does not return, or if a
block that can be reached jumps to a block that does not exist.
-/
namespace MxStar.IR

namespace Func

/-- Ends every block of the layout: one without a transfer of control jumps to the block after it.
-/
def closeBlocks (f : Func) : List BlockId → Except CompileError Func
  | [] => .ok f
  | b :: rest =>
    if (f.block b).isTerminated then closeBlocks f rest
    else match rest with
      | [] => .error (.violation (.fallsOff b f.name))
      | next :: _ => closeBlocks (f.pushInstr b (.jump next)) rest

/-- A search through the flow graph: the blocks to visit, and all blocks found. -/
structure Search where
  pending : List BlockId
  found : List BlockId
  deriving DecidableEq, Repr

def visitTarget (f : Func) (b : BlockId) (s : Search) (target : BlockId) :
    Except CompileError Search :=
  if f.blocks.size ≤ target then .error (.violation (.missingTarget b f.name target))
  else if s.found.contains target then .ok s
  else .ok ⟨target :: s.pending, target :: s.found⟩

/-- Visits pending blocks, the last one found first. Every block is pending at most once, so the
number of blocks bounds the visits. -/
def explore (f : Func) : Nat → Search → Except CompileError (List BlockId)
  | 0, s => .ok s.found
  | fuel + 1, s =>
    match s.pending with
    | [] => .ok s.found
    | b :: pending => do
      explore f fuel (← (f.block b).targets.foldlM (f.visitTarget b) ⟨pending, s.found⟩)

def reachable (f : Func) : Except CompileError (List BlockId) :=
  f.explore (f.blocks.size + 1) ⟨[f.entry], [f.entry]⟩

/-- For each block, the blocks that may follow it, if it can be reached. -/
def successorTable (f : Func) (reach : List BlockId) : Array (List BlockId) :=
  f.blocks.mapIdx fun b block => if reach.contains b then block.targets else []

/-- The layout with reachable blocks alone and the entry in front. -/
def reachableLayout (f : Func) (reach : List BlockId) : List BlockId :=
  let kept := f.layout.filter reach.contains
  if kept.head? = some f.entry then kept else f.entry :: kept.filter (· ≠ f.entry)

/-- Records the edges between reachable blocks and keeps these alone in the layout. -/
def withFlow (f : Func) (reach : List BlockId) : Func :=
  let layout := f.reachableLayout reach
  let table := f.successorTable reach
  let succs (b : BlockId) : List BlockId := table[b]?.getD []
  { f with
    layout := layout
    blocks := f.blocks.mapIdx fun b block =>
      { block with succs := succs b, preds := layout.filter fun p => (succs p).contains b } }

def computeFlow (f : Func) : Except CompileError Func := do
  let f ← f.closeBlocks f.layout
  return f.withFlow (← f.reachable)

end Func

end MxStar.IR
