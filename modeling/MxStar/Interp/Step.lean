import MxStar.Interp.Machine

/-!
Steps of a running program.

A configuration is the shared machine, the frame of the running function, and the suspended frames
of its callers. One step executes one instruction. The physical registers are shared by all frames,
as on the machine: a call leaves those that it may destroy undefined, apart from the result, and
those that a function has to preserve unchanged.
-/
namespace MxStar.Interp

open IR

/-- The state of one activation of a function. -/
structure Frame where
  func : Func
  regs : Array (Option Word)
  slots : Array (Option Word)
  /-- Arguments passed on the stack. -/
  incoming : List Word
  /-- Words pushed for the next call, the last one first. -/
  pushed : List Word
  block : BlockId
  code : List Instr
  deriving Inhabited

/-- A frame that waits for a call to return. -/
structure Caller where
  frame : Frame
  /-- Where the result goes. -/
  dst : Option Operand
  /-- The registers that the called function preserves. -/
  saved : List (PhysReg × Option Word)
  deriving Inhabited

/-- A running program. -/
structure Config where
  machine : Machine
  frame : Frame
  callers : List Caller
  deriving Inhabited

/-! ## Operands -/

def value (m : Machine) (fr : Frame) : Operand → Except RunError Word
  | .vreg v =>
    match (fr.regs[v]?).join with
    | some w => .ok w
    | none => .error (.undefinedRegister (.virt v) fr.func.name)
  | .phys p =>
    match m.regs.get p with
    | some w => .ok w
    | none => .error (.undefinedRegister (.phys p) fr.func.name)
  | .imm w => .ok w
  | .static s => m.staticAddress s

def assign (m : Machine) (fr : Frame) (dst : Operand) (w : Word) :
    Except RunError (Machine × Frame) :=
  match dst with
  | .vreg v =>
    if v < fr.regs.size then .ok (m, { fr with regs := fr.regs.setIfInBounds v (some w) })
    else .error (.unsupported (.registerRange v))
  | .phys p => .ok ({ m with regs := m.regs.set p (some w) }, fr)
  | .imm _ | .static _ => .error (.unsupported (.writeTo dst))

def address (m : Machine) (fr : Frame) : Address → Except RunError Word
  | .base b offset => do return (← value m fr b) + offset
  | .static s => m.staticAddress s
  | a => .error (.unsupported (.address a))

def load (m : Machine) (fr : Frame) : Address → Except RunError Word
  | .slot k =>
    match (fr.slots[k]?).join with
    | some w => .ok w
    | none => .error (.undefinedSlot k fr.func.name)
  | .incoming k =>
    match fr.incoming[k]? with
    | some w => .ok w
    | none => .error (.unsupported (.stackArgument k))
  | a => do m.memory.readWord (← address m fr a)

def store (m : Machine) (fr : Frame) (a : Address) (w : Word) : Except RunError (Machine × Frame) :=
  match a with
  | .slot k =>
    if k < fr.slots.size then .ok (m, { fr with slots := fr.slots.setIfInBounds k (some w) })
    else .error (.unsupported (.slotRange k))
  | a => do
    let target ← address m fr a
    let memory ← m.memory.writeWord target w
    return ({ m with memory := memory }, fr)

/-! ## Instructions within a function -/

/-- Divides. Where the result is a physical register, the quotient and the remainder go to their
registers whichever of them is wanted. -/
def divide (m : Machine) (fr : Frame) (dst : Operand) (op : BinOp) (l r : Word) :
    Except RunError (Machine × Frame) :=
  match BinOp.div.eval l r, BinOp.mod.eval l r with
  | some quot, some rem =>
    let m := match dst with
      | .phys _ => { m with regs := (m.regs.set .rax (some quot)).set .rdx (some rem) }
      | _ => m
    assign m fr dst (if op = .div then quot else rem)
  | _, _ => .error .divisionByZero

/-- Executes an instruction that neither calls nor transfers control; other instructions do nothing
here. -/
def compute (m : Machine) (fr : Frame) : Instr → Except RunError (Machine × Frame)
  | .binary dst op lhs rhs => do
    let l ← value m fr lhs
    let r ← value m fr rhs
    if op = .div || op = .mod then divide m fr dst op l r
    else match op.eval l r with
      | some w => assign m fr dst w
      | none => throw .divisionByZero
  | .unary dst op src => do assign m fr dst (op.eval (← value m fr src))
  | .compare dst cond lhs rhs => do
    let l ← value m fr lhs
    let r ← value m fr rhs
    assign m fr dst (if cond.eval l r then 1 else 0)
  | .move dst src => do assign m fr dst (← value m fr src)
  | .load dst addr => do assign m fr dst (← load m fr addr)
  | .store addr src => do store m fr addr (← value m fr src)
  | .push src => do
    let w ← value m fr src
    return (m, { fr with pushed := w :: fr.pushed })
  | .call .. | .jump _ | .branch .. | .ret _ => .ok (m, fr)

def Frame.goto (fr : Frame) (b : BlockId) : Frame := { fr with block := b, code := fr.func.code b }

/-! ## Calls -/

/-- A frame at the entry of a function. Parameters without an argument are zero. -/
def Frame.enter (f : Func) (args : List Word) : Frame :=
  { func := f
    regs := f.params.zipIdx.foldl (fun regs (v, i) => regs.setIfInBounds v (some (args.getD i 0)))
      (Array.replicate f.vregCount none)
    slots := Array.replicate f.slots none
    incoming := args.drop PhysReg.params.length
    pushed := []
    block := f.entry
    code := f.code f.entry }

def Machine.passArgs (m : Machine) (args : List Word) : Machine :=
  { m with regs := m.regs.setMany (PhysReg.params.zip (args.map some)) }

/-- Ends a call: the registers that it may destroy become undefined, and the result is in its
register and its destination. -/
def finishCall (m : Machine) (fr : Frame) (dst : Option Operand) (w : Word) :
    Except RunError (Machine × Frame) :=
  let m := { m with regs := (m.regs.clear PhysReg.callerSaved).set .rax (some w) }
  match dst with
  | none => .ok (m, fr)
  | some d => assign m fr d w

/-- What one step leads to. -/
inductive Progress where
  | running (c : Config)
  | finished (w : Word) (m : Machine)
  | failed (e : RunError)
  deriving Inhabited

/-- The next configuration, or the error met on the way to it. -/
def Progress.ofExcept : Except RunError Config → Progress
  | .ok c => .running c
  | .error e => .failed e

/-- The configuration after a call instruction. -/
def stepCall (p : Program) (c : Config) (dst : Option Operand) (callee : Callee)
    (args : List Operand) : Except RunError Config := do
  let given ← args.mapM (value c.machine c.frame)
  let args := given ++ c.frame.pushed
  let frame := { c.frame with pushed := [] }
  match callee with
  | .builtin b =>
    let (w, m) ← c.machine.callBuiltin b args
    let (m, frame) ← finishCall m frame dst w
    return { c with machine := m, frame := frame }
  | .func id =>
    if maxDepth ≤ c.callers.length + 1 then throw .stackOverflow
    match p.functions[id]? with
    | none => throw (.unsupported (.function id))
    | some f =>
      let saved := PhysReg.calleeSaved.map fun r => (r, c.machine.regs.get r)
      return { machine := c.machine.passArgs args, frame := .enter f args
               callers := ⟨frame, dst, saved⟩ :: c.callers }

/-- What a return instruction leads to. -/
def stepReturn (c : Config) (v : Option Operand) : Progress :=
  match v.elim (.ok 0) (value c.machine c.frame) with
  | .error e => .failed e
  | .ok w =>
    match c.callers with
    | [] => .finished w c.machine
    | caller :: callers =>
      let m := { c.machine with regs := c.machine.regs.setMany caller.saved }
      .ofExcept do
        let (m, frame) ← finishCall m caller.frame caller.dst w
        return ⟨m, frame, callers⟩

/-- Executes one instruction. A block that ends without a transfer of control has no next one. -/
def step (p : Program) (c : Config) : Progress :=
  match c.frame.code with
  | [] => .failed (.unsupported (.unterminated c.frame.block))
  | i :: rest =>
    let c := { c with frame := { c.frame with code := rest } }
    match i with
    | .jump target => .running { c with frame := c.frame.goto target }
    | .branch cond lhs rhs t e =>
      .ofExcept do
        let l ← value c.machine c.frame lhs
        let r ← value c.machine c.frame rhs
        return { c with frame := c.frame.goto (if cond.eval l r then t else e) }
    | .ret v => stepReturn c v
    | .call dst callee args _ => .ofExcept (stepCall p c dst callee args)
    | i =>
      .ofExcept do
        let (m, frame) ← compute c.machine c.frame i
        return { c with machine := m, frame := frame }

end MxStar.Interp
