import MxStar.Tree.Basic

/-!
Expressions with the types their forms give them: literals have the type of their kind, comparisons
and logical operators are boolean, arithmetic has the type of its left operand, so that the sum of
two strings is a string, and an assignment has the type of its target. All of them stand at the
unknown place until `located` gives them one.
-/
namespace MxStar.Tree.Expr

/-- Replaces the type and place of an expression. -/
def withInfo (i : Info) : Expr → Expr
  | .intLit _ v => .intLit i v
  | .boolLit _ v => .boolLit i v
  | .strLit _ v => .strLit i v
  | .nullLit _ => .nullLit i
  | .self _ => .self i
  | .ident _ name => .ident i name
  | .unary _ op operand => .unary i op operand
  | .binary _ op lhs rhs => .binary i op lhs rhs
  | .assign _ target value => .assign i target value
  | .call _ name args => .call i name args
  | .methodCall _ receiver method args => .methodCall i receiver method args
  | .member _ object field => .member i object field
  | .index _ array position => .index i array position
  | .create _ dims => .create i dims

def located (e : Expr) (line column : Nat) : Expr :=
  e.withInfo ⟨e.ty, ⟨.ofNat line, .ofNat column⟩⟩

def ofInt (v : Int64) : Expr := .intLit ⟨.int, {}⟩ v

def ofBool (v : Bool) : Expr := .boolLit ⟨.bool, {}⟩ v

def ofString (v : String) : Expr := .strLit ⟨.string, {}⟩ v

def ofNull : Expr := .nullLit ⟨.null, {}⟩

def named (name : String) (ty : Ty) : Expr := .ident ⟨ty, {}⟩ name

/-- The object whose method runs. -/
def selfOf (cls : String) : Expr := .self ⟨.object cls, {}⟩

def ofUnary (op : UnaryOp) (operand : Expr) : Expr :=
  .unary ⟨if op = .logicNot then .bool else operand.ty, {}⟩ op operand

def ofBinary (op : BinaryOp) (lhs rhs : Expr) : Expr :=
  .binary ⟨if op.isRelational || op.isLogical then .bool else lhs.ty, {}⟩ op lhs rhs

def ofAssign (target value : Expr) : Expr := .assign ⟨target.ty, {}⟩ target value

def ofCall (name : String) (args : List Expr) (ty : Ty) : Expr := .call ⟨ty, {}⟩ name args

def ofMethod (receiver : Expr) (method : String) (args : List Expr) (ty : Ty) : Expr :=
  .methodCall ⟨ty, {}⟩ receiver method args

def ofMember (object : Expr) (field : String) (ty : Ty) : Expr := .member ⟨ty, {}⟩ object field

/-- An element of an array; what is not an array keeps its type. -/
def ofIndex (array position : Expr) : Expr :=
  .index ⟨match array.ty with | .array elem => elem | other => other, {}⟩ array position

def newObject (cls : String) : Expr := .create ⟨.object cls, {}⟩ []

def newArray (ty : Ty) (dims : List Expr) : Expr := .create ⟨ty, {}⟩ dims

end MxStar.Tree.Expr
