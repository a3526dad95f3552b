import MxStar.Lowering.Stmt

/-!
Code for whole programs.

Every function and every method becomes a function, in the order of the declarations. A last one,
the entry, stores the initial values of the global variables and calls `main`. Names are given their
numbers first, so that bodies can refer to what is declared later.
-/
namespace MxStar.Lowering

open MxStar.Tree IR

def functionLabel (name : String) : String := "f_" ++ name

def methodLabel (cls method : String) : String := "m_" ++ cls ++ "_" ++ method

def methodKey (cls method : String) : String := cls ++ "." ++ method

/-- The program and the numbers of its names, as far as they are known. -/
structure Outline where
  program : IR.Program := {}
  funcs : Table FuncId := {}
  globals : Table StaticId := {}
  deriving Inhabited

namespace Outline

def addGlobal (o : Outline) (name : String) : Outline :=
  { o with
    program := { o.program with statics := o.program.statics.push ⟨name, .word, ""⟩ }
    globals := o.globals.insert name o.program.statics.size }

/-- Adds a function whose body is still empty. -/
def addFunction (o : Outline) (key label : String) : Outline :=
  { o with
    program := { o.program with functions := o.program.functions.push (.create key label) }
    funcs := o.funcs.insert key o.program.functions.size }

/-- Adds what a declaration declares. -/
def addDecl (o : Outline) : Decl → Outline
  | .var v => o.addGlobal v.name
  | .func f => o.addFunction f.name (functionLabel f.name)
  | .cls c =>
    c.methods.foldl
      (fun o m => o.addFunction (methodKey c.name m.name) (methodLabel c.name m.name)) o

def ofProgram (p : Tree.Program) : Outline := p.decls.foldl addDecl {}

end Outline

/-- Ends the last block of a function. Control that gets there returns, with zero if a value is
wanted. -/
def finish (returnsValue : Bool) : Build Unit := do
  let d ← get
  unless (d.func.block d.current).isTerminated do
    emit (.ret (if returnsValue then some (.imm 0) else none))

/-- Builds a function, given its parameters and the statics so far. -/
def buildFunc (func : Func) (statics : Array Static) (body : Build Unit) :
    Except CompileError (Func × Array Static) := do
  let ((), d) ← body.run { func := func, current := func.entry, statics := statics }
  return (d.func, d.statics)

def bindParams (params : List Param) : Build Unit :=
  params.forM fun p => do
    let d ← get
    set { d with func := d.func.addParam p.name }
    declareLocal p.name d.func.vregCount

/-- Builds a function of the program, or a method if a class is given. -/
def lowerFunction (env : Env) (cls : Option ClassInfo) (p : IR.Program) (decl : FuncDecl) :
    Except CompileError IR.Program := do
  let (key, label) := match cls with
    | some c => (methodKey c.name decl.name, methodLabel c.name decl.name)
    | none => (decl.name, functionLabel decl.name)
  let some id := env.funcs.find? key | throw (.unresolved .func key decl.loc)
  let start := Func.create key label
  let (start, self?) := match cls with
    | some c => (start.addParam "this", some (c, start.vregCount))
    | none => (start, none)
  let (func, statics) ← buildFunc start p.statics do
    bindParams decl.params
    lowerStmts { env with self? := self? } decl.body
    finish !decl.ret.isVoid
  return { p with functions := p.functions.setIfInBounds id func, statics := statics }

def lowerDecl (env : Env) (p : IR.Program) : Decl → Except CompileError IR.Program
  | .var _ => .ok p
  | .func f => lowerFunction env none p f
  | .cls c =>
    match env.scope.class? c.name with
    | some info => c.methods.foldlM (lowerFunction env (some info)) p
    | none => .error (.unresolved .cls c.name c.loc)

/-- Stores the initial value of a global variable. -/
def lowerGlobal (env : Env) : Decl → Build Unit
  | .var v =>
    match v.init, env.globals.find? v.name with
    | some e, some s => do emit (.store (.static s) (← lowerValue env e))
    | _, _ => pure ()
  | _ => pure ()

/-- Calls `main` and returns its value, or zero if it has none. -/
def callMain (main : FuncId) (returnsValue : Bool) : Build Unit := do
  if returnsValue then
    let r ← fresh "exit"
    emitCall (some r) (.func main) []
    emit (.ret (some (.vreg r)))
  else
    emitCall none (.func main) []
    emit (.ret (some (.imm 0)))

def lowerEntry (env : Env) (decls : List Decl) (p : IR.Program) :
    Except CompileError IR.Program := do
  let some main := env.funcs.find? "main" | throw .missingEntry
  let returnsValue := (env.scope.function? "main").all fun f => !f.ret.isVoid
  let (func, statics) ← buildFunc (.create "__init" "main") p.statics do
    decls.forM (lowerGlobal env)
    callMain main returnsValue
  return {
    functions := p.functions.push func
    statics := statics
    entry := some p.functions.size }

def lowerProgram (scope : Scope) (p : Tree.Program) : Except CompileError IR.Program := do
  let outline := Outline.ofProgram p
  let env : Env := { scope := scope, funcs := outline.funcs, globals := outline.globals }
  lowerEntry env p.decls (← p.decls.foldlM (lowerDecl env) outline.program)

end MxStar.Lowering
