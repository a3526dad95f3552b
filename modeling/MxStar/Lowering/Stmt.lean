import MxStar.Lowering.Expr

/-!
Code for statements.

Each statement leaves its code in the current block and the blocks after it, and goes on in the
block where control arrives when the statement is done. After a jump that is a block that nothing
jumps to.
-/
namespace MxStar.Lowering

open MxStar.Tree IR

def inScope (body : Build Unit) : Build Unit := do
  openScope
  body
  closeScope

def inLoop (targets : LoopTargets) (body : Build Unit) : Build Unit := do
  modify fun d => { d with loops := targets :: d.loops }
  inScope body
  modify fun d => { d with loops := d.loops.tail }

/-- Declares a local variable. Its initial value is computed before it is in scope, and is zero if
there is none. -/
def lowerVar (env : Env) (decl : VarDecl) : Build Unit := do
  let v ← match decl.init with
    | some e => lowerValue env e
    | none => pure (.imm 0)
  let r ← fresh decl.name
  emit (.move (.vreg r) v)
  declareLocal decl.name r

def lowerEffect (env : Env) (e : Expr) : Build Unit := discard (lowerValue env e)

def lowerInit (env : Env) : Option ForInit → Build Unit
  | some (.decls ds) => ds.forM (lowerVar env)
  | some (.expr e) => lowerEffect env e
  | none => pure ()

def lowerTest (env : Env) (cond : Option Expr) (t e : BlockId) : Build Unit :=
  match cond with
  | some c => (lower env c).cond t e
  | none => jump t

def lowerStep (env : Env) : Option Expr → Build Unit
  | some e => lowerEffect env e
  | none => pure ()

/-- Leaves the loop or goes on with it. -/
def loopJump (kind : LoopJump) (loc : Location) : Build Unit := do
  match (← get).loops with
  | [] => throw (.jumpOutsideLoop kind loc)
  | targets :: _ =>
    jump (match kind with | .leave => targets.leave | .next => targets.next)
    startDead

/-- Returns. A value of type `void` is computed and not returned. -/
def lowerReturn (env : Env) (value : Option Expr) : Build Unit := do
  let v ← match value with
    | none => pure none
    | some e => do
      let v ← lowerValue env e
      pure (if e.ty.isVoid then none else some v)
  emit (.ret v)
  startDead

/-- Builds a statement that chooses between two. -/
def lowerChoice (cond : BlockId → BlockId → Build Unit) (thenBody : Build Unit)
    (elseBody : Option (Build Unit)) : Build Unit := do
  let thenBlock ← newBlock "if_then"
  let elseBlock ← match elseBody with
    | some _ => do pure (some (← newBlock "if_else"))
    | none => pure none
  let endBlock ← newBlock "if_end"
  cond thenBlock (elseBlock.getD endBlock)
  switchTo thenBlock
  inScope thenBody
  jump endBlock
  match elseBlock, elseBody with
  | some b, some body =>
    switchTo b
    inScope body
    jump endBlock
  | _, _ => pure ()
  switchTo endBlock

def lowerWhile (cond : BlockId → BlockId → Build Unit) (body : Build Unit) : Build Unit := do
  let condBlock ← newBlock "while_cond"
  let bodyBlock ← newBlock "while_body"
  let endBlock ← newBlock "while_end"
  jump condBlock
  switchTo condBlock
  cond bodyBlock endBlock
  switchTo bodyBlock
  inLoop ⟨endBlock, condBlock⟩ body
  jump condBlock
  switchTo endBlock

def lowerFor (init : Build Unit) (cond : BlockId → BlockId → Build Unit) (step : Build Unit)
    (body : Build Unit) : Build Unit := inScope do
  init
  let condBlock ← newBlock "for_cond"
  let bodyBlock ← newBlock "for_body"
  let stepBlock ← newBlock "for_step"
  let endBlock ← newBlock "for_end"
  jump condBlock
  switchTo condBlock
  cond bodyBlock endBlock
  switchTo bodyBlock
  inLoop ⟨endBlock, stepBlock⟩ body
  jump stepBlock
  switchTo stepBlock
  step
  jump condBlock
  switchTo endBlock

mutual

def lowerStmt (env : Env) : Stmt → Build Unit
  | .block body => inScope (lowerStmts env body)
  | .varDecl decl => lowerVar env decl
  | .expr e => lowerEffect env e
  | .branch cond t none => lowerChoice (lower env cond).cond (lowerStmt env t) none
  | .branch cond t (some e) =>
    lowerChoice (lower env cond).cond (lowerStmt env t) (some (lowerStmt env e))
  | .whileLoop cond body => lowerWhile (lower env cond).cond (lowerStmt env body)
  | .forLoop init cond step body =>
    lowerFor (lowerInit env init) (lowerTest env cond) (lowerStep env step) (lowerStmt env body)
  | .breakLoop loc => loopJump .leave loc
  | .continueLoop loc => loopJump .next loc
  | .giveBack value _ => lowerReturn env value
  | .empty => pure ()

def lowerStmts (env : Env) : List Stmt → Build Unit
  | [] => pure ()
  | s :: rest => do
    lowerStmt env s
    lowerStmts env rest

end

end MxStar.Lowering
