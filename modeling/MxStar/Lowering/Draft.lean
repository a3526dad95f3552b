import MxStar.Scope
import MxStar.IR.Program

/-!
A function under construction.

Code is generated into the current block of a draft. Besides the function, a draft knows the local
variables in scope with their registers, the loops around the current place, and the statics of the
program, to which string literals are added. What does not change while a function is built is in
the environment.
-/
namespace MxStar.Lowering

open MxStar.Tree IR

/-- What the names of a program stand for. -/
structure Env where
  scope : Scope
  /-- The functions by name; a method is `Class.method`. -/
  funcs : Table FuncId := {}
  /-- The statics of the global variables. -/
  globals : Table StaticId := {}
  /-- In a method, its class and the register of the object. -/
  self? : Option (ClassInfo × VReg) := none
  deriving Inhabited

/-- Where `break` and `continue` go. -/
structure LoopTargets where
  leave : BlockId
  next : BlockId
  deriving DecidableEq, Repr

/-- A function under construction. -/
structure Draft where
  func : Func
  current : BlockId
  /-- The local variables, the innermost scope first. -/
  locals : List (Table VReg) := [{}]
  /-- The loops around the current place, the innermost first. -/
  loops : List LoopTargets := []
  statics : Array Static := #[]
  deriving Inhabited

abbrev Build := StateT Draft (Except CompileError)

/-! ## Code -/

def emit (i : Instr) : Build Unit :=
  modify fun d => { d with func := d.func.pushInstr d.current i }

def fresh (hint : String) : Build VReg :=
  modifyGet fun d => (d.func.vregCount, { d with func := d.func.addVReg hint })

def newBlock (name : String) : Build BlockId :=
  modifyGet fun d => (d.func.blocks.size, { d with func := d.func.addBlock name })

def switchTo (b : BlockId) : Build Unit := modify fun d => { d with current := b }

def jump (target : BlockId) : Build Unit := emit (.jump target)

/-- Goes on in a block that nothing jumps to, for the code after a jump. -/
def startDead : Build Unit := do switchTo (← newBlock "dead")

/-- A call, as it is before the convention is explicit. -/
def emitCall (dst : Option VReg) (callee : Callee) (args : List Operand) : Build Unit :=
  emit (.call (dst.map .vreg) callee args 0)

/-- A register with a value; a value that is in a register stays there. -/
def toVReg (v : Operand) (hint : String) : Build VReg :=
  match v with
  | .vreg r => pure r
  | v => do
    let r ← fresh hint
    emit (.move (.vreg r) v)
    return r

def literal (text : String) : Build Operand :=
  modifyGet fun d =>
    (.static d.statics.size, { d with statics := d.statics.push ⟨"str", .text text, ""⟩ })

/-! ## Names -/

def openScope : Build Unit := modify fun d => { d with locals := {} :: d.locals }

def closeScope : Build Unit := modify fun d => { d with locals := d.locals.tail }

def Draft.declareLocal (d : Draft) (name : String) (v : VReg) : Draft :=
  match d.locals with
  | [] => d
  | top :: rest => { d with locals := top.insert name v :: rest }

def declareLocal (name : String) (v : VReg) : Build Unit := modify (·.declareLocal name v)

def Draft.isLocal (d : Draft) (v : VReg) : Bool := d.locals.any fun s => s.values.contains v

/-- The number of a function or method. -/
def funcId (env : Env) (key : String) (loc : Location) : Build FuncId :=
  match env.funcs.find? key with
  | some id => pure id
  | none => throw (.unresolved .func key loc)

/-! ## Places -/

/-- What can be assigned: a local variable, or a place in memory. -/
inductive Place where
  | reg (v : VReg)
  | mem (addr : Address)
  deriving DecidableEq, Repr, Inhabited

/-- The place a name stands for: a local variable, else a field of the object in a method, else a
global variable. -/
def resolve (env : Env) (name : String) (loc : Location) : Build Place := do
  let field := env.self?.bind fun (cls, obj) => (cls.fieldOffset? name).map fun offset =>
    Place.mem (.base (.vreg obj) offset)
  let global := (env.globals.find? name).map fun s => Place.mem (.static s)
  match ((← get).locals.findSome? (·.find? name)).map .reg <|> field <|> global with
  | some place => return place
  | none => throw (.unresolved .var name loc)

/-- Reads a place. A local variable is read where it is. -/
def read (place : Place) (hint : String) : Build Operand :=
  match place with
  | .reg v => pure (.vreg v)
  | .mem addr => do
    let dst ← fresh hint
    emit (.load (.vreg dst) addr)
    return .vreg dst

def write (place : Place) (v : Operand) : Build Unit :=
  match place with
  | .reg r => emit (.move (.vreg r) v)
  | .mem addr => emit (.store addr v)

/-! ## Operands -/

/-- Code for an operand, and whether it may write a variable or memory. -/
structure OperandCode where
  value : Build Operand
  hasEffects : Bool

/-- Copies the value of a local variable, so that later writes to the variable do not change it. -/
def snapshot (v : Operand) : Build Operand := do
  match v with
  | .vreg r =>
    let d ← get
    if d.isLocal r then
      let copy ← fresh (d.func.hint r)
      emit (.move (.vreg copy) (.vreg r))
      return .vreg copy
    else return v
  | v => return v

/-- Evaluates operands from left to right. The value of a local variable is copied if a later
operand may write. -/
def evalOperands : List OperandCode → Build (List Operand)
  | [] => return []
  | c :: rest => do
    let v ← c.value
    let v ← if rest.any (·.hasEffects) then snapshot v else pure v
    return v :: (← evalOperands rest)

/-- Evaluates two operands from left to right. -/
def evalBoth (l r : OperandCode) : Build (Operand × Operand) := do
  let v ← l.value
  let v ← if r.hasEffects then snapshot v else pure v
  return (v, ← r.value)

end MxStar.Lowering
