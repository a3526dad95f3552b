import MxStar.Pass.CallGraph

/-!
Inlining.

A call is replaced by a copy of the function that it calls, with registers and blocks of its own.
The block of the call is cut in two: what comes before the call goes on with moves of the arguments
and the copy, and a new block, to which the copy returns, has what comes after it.

Calls are inlined where the function called is in no cycle of calls and small, and the caller does
not grow too large. Callers come after the functions that they call.
-/
namespace MxStar.Pass

open IR

/-! ## One call -/

/-- A copy of a function within another: where its registers and its blocks start, and in which
order its blocks are copied. -/
structure Copy where
  callee : Func
  vregBase : VReg
  blockBase : BlockId
  deriving DecidableEq, Repr, Inhabited

namespace Copy

/-- The blocks of the function in the order of their copies: those that are emitted, then the
others. -/
def order (c : Copy) : List BlockId :=
  c.callee.layout ++
    (List.range c.callee.blocks.size).filter fun b => !c.callee.layout.contains b

/-- The copy of a block. If a block is emitted more than once, its last place counts. -/
def target (c : Copy) (b : BlockId) : BlockId :=
  c.blockBase + (c.order.length - 1 - c.order.reverse.idxOf b)

/-- The block where control goes on after the call. -/
def join (c : Copy) : BlockId := c.blockBase + c.order.length

def operand (c : Copy) : Operand → Operand
  | .vreg v => .vreg (c.vregBase + v)
  | v => v

/-- The copy of an instruction. A return moves its value to where the call wants it. -/
def instr (c : Copy) (dst : Option Operand) (i : Instr) : List Instr :=
  match (i.mapOperands c.operand).mapTargets c.target with
  | .ret value =>
    match dst, value with
    | some d, some v => [.move d v, .jump c.join]
    | _, _ => [.jump c.join]
  | i => [i]

/-- Moves the arguments to the parameters and goes to the copy. -/
def enter (c : Copy) (args : List Operand) : List Instr :=
  (c.callee.params.zip args).map (fun (p, a) => .move (.vreg (c.vregBase + p)) a) ++
    [.jump (c.target c.callee.entry)]

end Copy

/-- Puts blocks after another in a layout, or at the end if it is not there. -/
def insertAfter (b : BlockId) (new : List BlockId) : List BlockId → List BlockId
  | [] => new
  | c :: rest => if c = b then c :: new ++ rest else c :: insertAfter b new rest

/-- Adds the registers and blocks of a copy to a function. -/
def addCopy (caller : Func) (c : Copy) (dst : Option Operand) : Func :=
  let f := { caller with hints := caller.hints ++ c.callee.hints }
  let f := c.order.foldl
    (fun f b => f.addBlock (c.callee.name ++ "_" ++ (c.callee.block b).name)) f
  let f := f.addBlock "inline_join"
  c.order.foldl (fun f b => f.setCode (c.target b) ((c.callee.code b).flatMap (c.instr dst))) f

/-- Replaces a call by a copy of a function. The result says also in which block control goes on.
There is none if there is no call at that place. -/
def splice (caller : Func) (b : BlockId) (idx : Nat) (callee : Func) : Option (Func × BlockId) :=
  match (caller.code b)[idx]? with
  | some (.call dst _ args _) =>
    let code := caller.code b
    let c : Copy := ⟨callee, caller.vregCount, caller.blocks.size⟩
    let f := addCopy caller c dst
    let f := f.setCode c.join (code.drop (idx + 1))
    let f := f.setCode b (code.take idx ++ c.enter args)
    let new := f.layout.drop caller.layout.length
    some ({ f with layout := insertAfter b new caller.layout }, c.join)
  | _ => none

/-! ## All calls -/

/-- What bounds inlining. -/
structure InlineLimits where
  /-- The most instructions a function may have to be inlined. -/
  callee : Nat := 64
  /-- The most instructions a function may grow to. -/
  caller : Nat := 4096
  deriving DecidableEq, Repr, Inhabited

def isSite (p : Program) (limits : InlineLimits) (recursive : SortedSet FuncId) (caller : FuncId)
    (size : Nat) : Instr → Bool
  | .call _ (.func id) _ _ =>
    match p.functions[id]? with
    | some f =>
      id ≠ caller && !recursive.contains id && f.instrCount ≤ limits.callee &&
        size + f.instrCount ≤ limits.caller
    | none => false
  | _ => false

def calledFunction? (p : Program) : Instr → Option Func
  | .call _ (.func id) _ _ => p.functions[id]?
  | _ => none

/-- Inlines the first call of a block that may be inlined. -/
def inlineFirst (p : Program) (limits : InlineLimits) (recursive : SortedSet FuncId)
    (caller : FuncId) (f : Func) (b : BlockId) : Option (Func × BlockId) := do
  let idx ← (f.code b).findIdx? (isSite p limits recursive caller f.instrCount)
  let callee ← (f.code b)[idx]?.bind (calledFunction? p)
  splice f b idx callee

/-- Goes through the layout of a function from a place on. After a call has been inlined, it goes on
with what comes after the call. -/
def inlineFrom (p : Program) (limits : InlineLimits) (recursive : SortedSet FuncId)
    (caller : FuncId) : Nat → Func → Nat → Func
  | 0, f, _ => f
  | fuel + 1, f, pos =>
    match f.layout[pos]? with
    | none => f
    | some b =>
      match inlineFirst p limits recursive caller f b with
      | none => inlineFrom p limits recursive caller fuel f (pos + 1)
      | some (f, join) =>
        inlineFrom p limits recursive caller fuel f ((f.layout.idxOf? join).getD (pos + 1))

/-- Inlines calls into a function. Each round passes a block or removes a call, which bounds their
number. -/
def inlineInto (limits : InlineLimits) (recursive : SortedSet FuncId) (p : Program)
    (caller : FuncId) : Program :=
  p.modifyFunction caller fun f =>
    inlineFrom p limits recursive caller (f.layout.length + f.instrCount + 1) f 0

def inlineCalls (limits : InlineLimits) (p : Program) : Program :=
  let g := CallGraph.ofProgram p
  g.components.flatten.foldl (inlineInto limits g.recursive) p

end MxStar.Pass
