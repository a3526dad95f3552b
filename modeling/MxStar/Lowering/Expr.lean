import MxStar.Lowering.Object

/-!
Code for expressions.

There are three things that code can do with an expression: compute its value, branch on it, and
find the place that it denotes. `Forms` holds these together, and `lower` builds them for an
expression from those for its operands.
-/
namespace MxStar.Lowering

open MxStar.Tree IR

structure Forms where
  value : Build Operand
  /-- Ends the current block with a branch: to the first block if the value is true, and to the
  second one otherwise. -/
  cond : BlockId → BlockId → Build Unit
  place : Build Place

/-- Branches on whether a value is nonzero. -/
def branchOn (value : Build Operand) (t e : BlockId) : Build Unit := do
  let v ← value
  emit (.branch .ne v (.imm 0) t e)

def Forms.ofValue (loc : Location) (value : Build Operand) : Forms :=
  ⟨value, branchOn value, throw (.violation (.notAssignable loc))⟩

/-- The code for an expression that denotes a place. -/
def Forms.ofPlace (place : Build Place) : Forms :=
  let value := do read (← place) "load"
  ⟨value, branchOn value, place⟩

/-! ## Operators -/

/-- What an operator with two operands does. -/
inductive OpKind where
  | arith (op : BinOp)
  | relation (cond : CmpOp)
  | both
  | either
  deriving DecidableEq, Repr

def opKind : BinaryOp → OpKind
  | .add => .arith .add
  | .sub => .arith .sub
  | .mul => .arith .mul
  | .div => .arith .div
  | .mod => .arith .mod
  | .shl => .arith .shl
  | .shr => .arith .shr
  | .bitAnd => .arith .and
  | .bitOr => .arith .or
  | .bitXor => .arith .xor
  | .logicAnd => .both
  | .logicOr => .either
  | .eq => .relation .eq
  | .ne => .relation .ne
  | .lt => .relation .lt
  | .le => .relation .le
  | .gt => .relation .gt
  | .ge => .relation .ge

def arith? (op : BinaryOp) : Option BinOp :=
  match opKind op with
  | .arith op => some op
  | _ => none

def relation? (op : BinaryOp) : Option CmpOp :=
  match opKind op with
  | .relation cond => some cond
  | _ => none

/-- Computes an operation. The sum of two strings is their concatenation. -/
def arithValue (op : BinOp) (strings : Bool) (l r : OperandCode) : Build Operand := do
  let (l, r) ← evalBoth l r
  if strings && op = .add then
    let dst ← fresh "concat"
    emitCall (some dst) (.builtin .stringConcat) [l, r]
    return .vreg dst
  else
    let dst ← fresh op.mnemonic
    emit (.binary (.vreg dst) op l r)
    return .vreg dst

/-- Evaluates two operands to words that compare as they do. Strings are compared by the runtime,
and the outcome with zero. -/
def comparands (strings : Bool) (l r : OperandCode) : Build (Operand × Operand) := do
  let (l, r) ← evalBoth l r
  if strings then
    let dst ← fresh "strcmp"
    emitCall (some dst) (.builtin .stringCompare) [l, r]
    return (.vreg dst, .imm 0)
  else return (l, r)

def relationForms (loc : Location) (cond : CmpOp) (strings : Bool) (l r : OperandCode) : Forms :=
  { Forms.ofValue loc do
      let (l, r) ← comparands strings l r
      let dst ← fresh "cmp"
      emit (.compare (.vreg dst) cond l r)
      return .vreg dst
    with
    cond := fun t e => do
      let (l, r) ← comparands strings l r
      emit (.branch cond l r t e) }

/-- Turns a branch into a value of one or zero. -/
def boolValue (cond : BlockId → BlockId → Build Unit) : Build Operand := do
  let result ← fresh "bool"
  let trueBlock ← newBlock "bool_true"
  let falseBlock ← newBlock "bool_false"
  let endBlock ← newBlock "bool_end"
  cond trueBlock falseBlock
  switchTo trueBlock
  emit (.move (.vreg result) (.imm 1))
  jump endBlock
  switchTo falseBlock
  emit (.move (.vreg result) (.imm 0))
  jump endBlock
  switchTo endBlock
  return .vreg result

/-- Branches on whether both conditions hold. -/
def bothCond (l r : BlockId → BlockId → Build Unit) (t e : BlockId) : Build Unit := do
  let rest ← newBlock "and_rhs"
  l rest e
  switchTo rest
  r t e

/-- Branches on whether one of the conditions holds. -/
def eitherCond (l r : BlockId → BlockId → Build Unit) (t e : BlockId) : Build Unit := do
  let rest ← newBlock "or_rhs"
  l t rest
  switchTo rest
  r t e

/-- Code for an operator that may leave its right operand unevaluated. -/
def logicForms (loc : Location) (cond : BlockId → BlockId → Build Unit) : Forms :=
  { Forms.ofValue loc (boolValue cond) with cond := cond }

/-- Steps a place by one. The value is the one before or after the step. -/
def stepValue (op : BinOp) (after : Bool) (place : Build Place) : Build Operand := do
  match ← place with
  | .reg r =>
    if after then
      emit (.binary (.vreg r) op (.vreg r) (.imm 1))
      return .vreg r
    else
      let old ← fresh "old"
      emit (.move (.vreg old) (.vreg r))
      emit (.binary (.vreg r) op (.vreg r) (.imm 1))
      return .vreg old
  | .mem addr =>
    let old ← read (.mem addr) "old"
    let new ← fresh "new"
    emit (.binary (.vreg new) op old (.imm 1))
    write (.mem addr) (.vreg new)
    return if after then .vreg new else old

def unaryValue (op : UnOp) (operand : Build Operand) : Build Operand := do
  let src ← operand
  let dst ← fresh "un"
  emit (.unary (.vreg dst) op src)
  return .vreg dst

def notValue (operand : Build Operand) : Build Operand := do
  let src ← operand
  let dst ← fresh "not"
  emit (.binary (.vreg dst) .xor src (.imm 1))
  return .vreg dst

def unaryForms (loc : Location) (op : UnaryOp) (operand : Forms) : Forms :=
  match op with
  | .pos => .ofValue loc operand.value
  | .neg => .ofValue loc (unaryValue .neg operand.value)
  | .bitNot => .ofValue loc (unaryValue .not operand.value)
  | .logicNot =>
    { Forms.ofValue loc (notValue operand.value) with cond := fun t e => operand.cond e t }
  | .preInc => .ofValue loc (stepValue .add true operand.place)
  | .preDec => .ofValue loc (stepValue .sub true operand.place)
  | .postInc => .ofValue loc (stepValue .add false operand.place)
  | .postDec => .ofValue loc (stepValue .sub false operand.place)

/-- Assigns a value. The place is found before the value is computed. -/
def assignValue (target : Build Place) (value : Build Operand) : Build Operand := do
  let place ← target
  let v ← value
  write place v
  return match place with
    | .reg r => .vreg r
    | .mem _ => v

/-! ## Calls -/

/-- Calls, and gives the result if there is one. -/
def callValue (ty : Ty) (callee : Callee) (args : List Operand) : Build Operand :=
  if ty.isVoid then do
    emitCall none callee args
    return .imm 0
  else do
    let dst ← fresh "call"
    emitCall (some dst) callee args
    return .vreg dst

def callFunction (env : Env) (info : Info) (name : String) (args : List OperandCode) :
    Build Operand := do
  let some f := env.scope.function? name | throw (.unresolved .func name info.loc)
  let callee ← match f.kind with
    | .builtin b => pure (Callee.builtin b)
    | .user => do pure (Callee.func (← funcId env name info.loc))
    | .method cls => throw (.violation (.noReceiver cls name info.loc))
  callValue info.ty callee (← evalOperands args)

/-- Calls by a name alone: in a class that has such a method, the method of the same object, and
otherwise a free function. -/
def callNamed (env : Env) (info : Info) (name : String) (args : List OperandCode) :
    Build Operand :=
  match env.self? with
  | some (cls, obj) =>
    if (cls.method? name).isSome then do
      let id ← funcId env (cls.name ++ "." ++ name) info.loc
      callValue info.ty (.func id) (.vreg obj :: (← evalOperands args))
    else callFunction env info name args
  | none => callFunction env info name args

def lengthOf (v : Operand) : Build Operand := do
  let base ← toVReg v "len_of"
  let dst ← fresh "len"
  emit (.load (.vreg dst) (.base (.vreg base) 0))
  return .vreg dst

def isLength : Ty → String → Bool
  | .array _, method => method = "size"
  | .string, method => method = "length"
  | _, _ => false

/-- What a method of a type is. -/
def methodCallee? (env : Env) : Ty → String → Option Callee
  | .string, method => (Builtin.stringMethod? method).map .builtin
  | .object cls, method => (env.funcs.find? (cls ++ "." ++ method)).map .func
  | _, _ => none

/-- Calls a method of an object, an array or a string. -/
def callMethod (env : Env) (info : Info) (receiver : OperandCode) (ty : Ty) (method : String)
    (args : List OperandCode) : Build Operand := do
  let values ← evalOperands (receiver :: args)
  if isLength ty method then lengthOf (values.headD (.imm 0))
  else match methodCallee? env ty method with
    | some callee => callValue info.ty callee values
    | none => throw (.unresolved .method (ty.render ++ "." ++ method) info.loc)

/-- The object in a method. -/
def selfValue (env : Env) (loc : Location) : Build Operand :=
  match env.self? with
  | some (_, obj) => pure (.vreg obj)
  | none => throw (.violation (.selfOutsideMethod loc))

/-! ## Expressions -/

def Forms.operand (c : Forms) (e : Expr) : OperandCode := ⟨c.value, e.hasEffects⟩

def binaryForms (loc : Location) (op : BinaryOp) (lhs rhs : Expr) (l r : Forms) : Forms :=
  let strings := lhs.ty.isString && rhs.ty.isString
  match opKind op with
  | .both => logicForms loc (bothCond l.cond r.cond)
  | .either => logicForms loc (eitherCond l.cond r.cond)
  | .relation cond => relationForms loc cond strings (l.operand lhs) (r.operand rhs)
  | .arith op => .ofValue loc (arithValue op strings (l.operand lhs) (r.operand rhs))

mutual

def lower (env : Env) : Expr → Forms
  | .intLit i v => .ofValue i.loc (pure (.imm v))
  | .boolLit i b =>
    { Forms.ofValue i.loc (pure (.imm (if b then 1 else 0))) with
      cond := fun t e => jump (if b then t else e) }
  | .strLit i s => .ofValue i.loc (literal s)
  | .nullLit i => .ofValue i.loc (pure (.imm 0))
  | .self i => .ofValue i.loc (selfValue env i.loc)
  | .ident i name => .ofPlace (resolve env name i.loc)
  | .unary i op operand => unaryForms i.loc op (lower env operand)
  | .binary i op lhs rhs => binaryForms i.loc op lhs rhs (lower env lhs) (lower env rhs)
  | .assign i target value =>
    .ofValue i.loc (assignValue (lower env target).place (lower env value).value)
  | .call i name args => .ofValue i.loc (callNamed env i name (lowerAll env args))
  | .methodCall i receiver method args =>
    .ofValue i.loc
      (callMethod env i ((lower env receiver).operand receiver) receiver.ty method
        (lowerAll env args))
  | .member i object field =>
    .ofPlace (memberPlace env object.ty (lower env object).value field i.loc)
  | .index i array position =>
    .ofPlace (elementPlace ((lower env array).operand array)
      ((lower env position).operand position) i.loc)
  | .create i dims => .ofValue i.loc (createValue env i (lowerAll env dims))

def lowerAll (env : Env) : List Expr → List OperandCode
  | [] => []
  | e :: es => (lower env e).operand e :: lowerAll env es

end

def lowerValue (env : Env) (e : Expr) : Build Operand := (lower env e).value

def lowerOperands (env : Env) (es : List Expr) : Build (List Operand) :=
  evalOperands (lowerAll env es)

end MxStar.Lowering
