import MxStar.IR.Instr

/-!
Blocks and functions.

A function owns its blocks in a table; the order in which they are emitted is kept apart, in the
layout. Blocks that are not in the layout are not emitted. Virtual registers are numbered by the
table of their hints, which are names for readers and need not be distinct.
-/
namespace MxStar.IR

/-- A block: a sequence of instructions of which the last may transfer control. The edges are those
of the flow graph as last computed. -/
structure Block where
  /-- A name for readers; blocks may share one. -/
  name : String
  instrs : List Instr := []
  preds : List BlockId := []
  succs : List BlockId := []
  deriving DecidableEq, Repr, Inhabited

namespace Block

def terminator? (b : Block) : Option Instr := b.instrs.getLast?.filter Instr.isTerminator

def isTerminated (b : Block) : Bool := b.terminator?.isSome

def push (b : Block) (i : Instr) : Block := { b with instrs := b.instrs ++ [i] }

def targets (b : Block) : List BlockId := (b.terminator?.map Instr.successors).getD []

end Block

structure Func where
  /-- The name in the source; a method is `Class.method`. -/
  name : String
  label : String
  params : List VReg := []
  entry : BlockId := 0
  blocks : Array Block := #[]
  /-- The blocks that are emitted, in order. -/
  layout : List BlockId := []
  /-- The number of frame slots. -/
  slots : Nat := 0
  /-- A name for each virtual register. -/
  hints : Array String := #[]
  deriving DecidableEq, Repr, Inhabited

namespace Func

def vregCount (f : Func) : Nat := f.hints.size

def hint (f : Func) (v : VReg) : String := f.hints[v]?.getD ""

/-- A block; one that does not exist has no instructions. -/
def block (f : Func) (b : BlockId) : Block := f.blocks[b]?.getD { name := "" }

def code (f : Func) (b : BlockId) : List Instr := (f.block b).instrs

def modifyBlock (f : Func) (b : BlockId) (g : Block → Block) : Func :=
  { f with blocks := f.blocks.modify b g }

def setCode (f : Func) (b : BlockId) (code : List Instr) : Func :=
  f.modifyBlock b fun block => { block with instrs := code }

def pushInstr (f : Func) (b : BlockId) (i : Instr) : Func := f.modifyBlock b (·.push i)

def addVReg (f : Func) (hint : String) : Func := { f with hints := f.hints.push hint }

def addParam (f : Func) (hint : String) : Func :=
  { f.addVReg hint with params := f.params ++ [f.vregCount] }

/-- Adds an empty block at the end of the table and of the layout; its number is
`f.blocks.size`. -/
def addBlock (f : Func) (name : String) : Func :=
  { f with blocks := f.blocks.push { name := name }, layout := f.layout ++ [f.blocks.size] }

/-- Makes a block the entry and moves it to the front of the layout. -/
def setEntry (f : Func) (b : BlockId) : Func :=
  { f with entry := b, layout := b :: f.layout.filter (· ≠ b) }

def create (name label : String) : Func := addBlock { name := name, label := label } "entry"

/-- The instructions that are emitted, in order. -/
def instrs (f : Func) : List Instr := f.layout.flatMap f.code

def instrCount (f : Func) : Nat := f.instrs.length

def hasCalls (f : Func) : Bool := f.instrs.any Instr.isCall

/-- All instructions of all blocks, emitted or not. -/
def allInstrs (f : Func) : List Instr := f.blocks.toList.flatMap (·.instrs)

/-- Replaces every instruction of every block, emitted or not, by a sequence. -/
def expandAll (f : Func) (g : Instr → List Instr) : Func :=
  { f with blocks := f.blocks.map fun b => { b with instrs := b.instrs.flatMap g } }

def mapInstrs (f : Func) (g : Instr → Instr) : Func :=
  { f with blocks := f.blocks.map fun b => { b with instrs := b.instrs.map g } }

def expandLayout (f : Func) (g : Instr → List Instr) : Func :=
  f.layout.foldl (fun f b => f.setCode b ((f.code b).flatMap g)) f

def mapLayout (f : Func) (g : Instr → Instr) : Func :=
  f.layout.foldl (fun f b => f.setCode b ((f.code b).map g)) f

/-- Adds an entry block that runs some code and then what was the entry. -/
def addEntry (f : Func) (name : String) (code : List Instr) : Func :=
  ((f.addBlock name).setCode f.blocks.size (code ++ [.jump f.entry])).setEntry f.blocks.size

end Func

end MxStar.IR
