import MxStar.Asm.Listing
import MxStar.Error
import MxStar.Text.Symbol

/-!
Selection of machine instructions.

Once registers are allocated, each instruction becomes one or a few machine instructions on its own.
Blocks become labels, slots and incoming arguments become places relative to the frame pointer, and
a return jumps to the epilogue. An operand that is still virtual is a fault.
-/
namespace MxStar.Asm

open IR

def epilogueLabel : String := ".epilogue"

def blockMark : String := ".bb"

def blockLabel (f : Func) (b : BlockId) : String :=
  blockMark ++ b.repr ++ "_" ++ Text.symbol (f.block b).name

structure Symbols where
  statics : Array String
  functions : Array String
  deriving DecidableEq, Repr, Inhabited

def Symbols.ofProgram (p : IR.Program) : Symbols :=
  ⟨p.statics.map (·.label), p.functions.map (·.label)⟩

/-! ## Operands -/

/-- A register that an operand has to be. -/
def selectReg : Operand → Except CompileError PhysReg
  | .phys p => .ok p
  | v => .error (.fault (.unallocated v))

/-- A register or a constant that an operand has to be. -/
def selectArg : Operand → Except CompileError Arg
  | .phys p => .ok (.reg p)
  | .imm w => .ok (.imm w)
  | v => .error (.fault (.unallocated v))

def Symbols.static (syms : Symbols) (s : StaticId) : Except CompileError String :=
  match syms.statics[s]? with
  | some label => .ok label
  | none => .error (.fault (.unlabelled s))

def Symbols.callee (syms : Symbols) : Callee → Except CompileError String
  | .func id =>
    match syms.functions[id]? with
    | some label => .ok label
    | none => .error (.fault (.unknownFunction id))
  | .builtin b => .ok b.symbol

def slotPlace (k : SlotId) : Mem := .base .rbp (-(Int64.ofNat k + 1) * 8)

/-- The place of an incoming argument, above the saved frame pointer and the return address. -/
def incomingPlace (k : Nat) : Mem := .base .rbp (16 + Int64.ofNat k * 8)

/-- The place that an address denotes. -/
def selectMem (syms : Symbols) : Address → Except CompileError Mem
  | .base b offset => return .base (← selectReg b) offset
  | .static s => return .label (← syms.static s)
  | .slot k => .ok (slotPlace k)
  | .incoming k => .ok (incomingPlace k)

/-! ## Instructions -/

def plain (i : Instr) : Line := .instr i

def selectMove (syms : Symbols) (dst src : Operand) : Except CompileError (List Line) := do
  let d ← selectReg dst
  match src with
  | .static s => return [plain (.lea d (.label (← syms.static s)))]
  | src => return [plain (.mov (.reg d) (← selectArg src))]

/-- A shift, whose count is a constant or in rcx. -/
def selectShift (op : ShiftOp) (dst lhs rhs : Operand) : Except CompileError (List Line) := do
  let d ← selectReg dst
  let copy ← if lhs = dst then pure [] else do pure [plain (.mov (.reg d) (← selectArg lhs))]
  match rhs with
  | .imm k => return copy ++ [plain (.shift op d (some (k &&& 63).toNatClampNeg))]
  | .phys .rcx => return copy ++ [plain (.shift op d none)]
  | v => .error (.fault (.unallocated v))

/-- An operation of which the destination is also the left operand of the machine. Where it is the
right operand of the program instead, an operation that commutes takes the operands the other way
round, and a difference is the sum with the opposite. -/
def selectAlu (op : BinOp) (alu : AluOp) (dst lhs rhs : Operand) :
    Except CompileError (List Line) := do
  let d ← selectReg dst
  if lhs = dst then
    return [plain (.alu alu d (← selectArg rhs))]
  else if rhs = dst && op.isCommutative then
    return [plain (.alu alu d (← selectArg lhs))]
  else if rhs = dst && op = .sub then
    let l ← selectArg lhs
    return [plain (.neg d), plain (.alu .add d l)]
  else
    let l ← selectArg lhs
    let r ← selectArg rhs
    return [plain (.mov (.reg d) l), plain (.alu alu d r)]

def selectBinary (dst : Operand) (op : BinOp) (lhs rhs : Operand) :
    Except CompileError (List Line) :=
  match op with
  | .div | .mod => return [plain .cqo, plain (.idiv (← selectReg rhs))]
  | .shl => selectShift .sal dst lhs rhs
  | .shr => selectShift .sar dst lhs rhs
  | .add => selectAlu op .add dst lhs rhs
  | .sub => selectAlu op .sub dst lhs rhs
  | .mul => selectAlu op .imul dst lhs rhs
  | .and => selectAlu op .and dst lhs rhs
  | .or => selectAlu op .or dst lhs rhs
  | .xor => selectAlu op .xor dst lhs rhs

def selectUnary (dst : Operand) (op : UnOp) (src : Operand) : Except CompileError (List Line) := do
  let d ← selectReg dst
  let copy ← if src = dst then pure [] else do pure [plain (.mov (.reg d) (← selectArg src))]
  return copy ++ [plain (match op with | .neg => .neg d | .not => .not d)]

/-- A branch, which falls through to the block that comes next where it can. -/
def selectBranch (f : Func) (next : Option BlockId) (cond : CmpOp) (lhs rhs : Operand)
    (t e : BlockId) : Except CompileError (List Line) := do
  let l ← selectReg lhs
  let r ← selectArg rhs
  let (cond, taken, other) := if next = some t then (cond.negate, e, t) else (cond, t, e)
  return [plain (.cmp l r), plain (.jcc cond (blockLabel f taken)),
    plain (.jmp (blockLabel f other))]

/-- What a comment says of an access to a slot. -/
def slotComment (verb : String) : Address → Option String
  | .slot k => some (verb ++ " slot " ++ k.repr)
  | _ => none

/-- The lines of one instruction; `next` is the block that comes next. -/
def selectInstr (syms : Symbols) (f : Func) (next : Option BlockId) :
    IR.Instr → Except CompileError (List Line)
  | .move dst src => selectMove syms dst src
  | .binary dst op lhs rhs => selectBinary dst op lhs rhs
  | .unary dst op src => selectUnary dst op src
  | .compare dst cond lhs rhs => do
    let d ← selectReg dst
    let l ← selectReg lhs
    let r ← selectArg rhs
    return [plain (.cmp l r), plain (.set cond d), plain (.movzx d d)]
  | .branch cond lhs rhs t e => selectBranch f next cond lhs rhs t e
  | .load dst addr => do
    let d ← selectReg dst
    let m ← selectMem syms addr
    return [.instr (.mov (.reg d) (.mem m)) (slotComment "reload" addr)]
  | .store addr src => do
    let m ← selectMem syms addr
    let s ← selectArg src
    return [.instr (.mov (.mem m) s) (slotComment "spill" addr)]
  | .call _ callee _ stackArgs => do
    let target ← syms.callee callee
    let drop := if stackArgs = 0 then [] else
      [Line.instr (.alu .add .rsp (.imm (Int64.ofNat stackArgs * 8))) (some "pop stack arguments")]
    return plain (.call target) :: drop
  | .push src => do return [plain (.push (← selectArg src))]
  | .jump target => return [plain (.jmp (blockLabel f target))]
  | .ret _ => return [plain (.jmp epilogueLabel)]

def selectCode (syms : Symbols) (f : Func) (next : Option BlockId) :
    List IR.Instr → Except CompileError (List Line)
  | [] => .ok []
  | i :: rest => do
    let first ← selectInstr syms f next i
    return first ++ (← selectCode syms f next rest)

/-- The label line of a block. The entry has one only if something jumps to it. -/
def labelLine (f : Func) (b : BlockId) : List Line :=
  if b = f.entry && (f.block b).preds.isEmpty then [] else [.label (blockLabel f b)]

def selectBlocks (syms : Symbols) (f : Func) : List BlockId → Except CompileError (List Line)
  | [] => .ok []
  | b :: rest => do
    let code ← selectCode syms f rest.head? (f.code b)
    return labelLine f b ++ code ++ (← selectBlocks syms f rest)

def selectBody (syms : Symbols) (f : Func) : Except CompileError (List Line) :=
  selectBlocks syms f f.layout

end MxStar.Asm
