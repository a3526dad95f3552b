/-!
Typed program trees.

A program is a list of declarations: global variables, functions and classes. Every expression
carries the type that was resolved for it and its place in the source. The compiler trusts these
types; it reads them where the code to generate depends on them, as in the comparison of strings.
-/
namespace MxStar.Tree

structure Location where
  line : UInt64 := 0
  column : UInt64 := 0
  deriving DecidableEq, Repr, Inhabited

def Location.render (l : Location) : String := s!"{l.line}:{l.column}"

inductive Ty where
  | int
  | bool
  | string
  | void
  | null
  | object (name : String)
  | array (elem : Ty)
  deriving DecidableEq, Repr, Inhabited

namespace Ty

def render : Ty → String
  | .int => "int"
  | .bool => "bool"
  | .string => "string"
  | .void => "void"
  | .null => "null"
  | .object name => name
  | .array elem => elem.render ++ "[]"

def isString : Ty → Bool
  | .string => true
  | _ => false

def isVoid : Ty → Bool
  | .void => true
  | _ => false

end Ty

inductive UnaryOp where
  | neg | pos | logicNot | bitNot | preInc | preDec | postInc | postDec
  deriving DecidableEq, Repr

/-- Whether the operator writes its operand. -/
def UnaryOp.isStep : UnaryOp → Bool
  | .preInc | .preDec | .postInc | .postDec => true
  | .neg | .pos | .logicNot | .bitNot => false

inductive BinaryOp where
  | add | sub | mul | div | mod | shl | shr | bitAnd | bitOr | bitXor
  | logicAnd | logicOr
  | eq | ne | lt | le | gt | ge
  deriving DecidableEq, Repr

namespace BinaryOp

def isRelational : BinaryOp → Bool
  | .eq | .ne | .lt | .le | .gt | .ge => true
  | _ => false

/-- Whether the operator may leave its right operand unevaluated. -/
def isLogical : BinaryOp → Bool
  | .logicAnd | .logicOr => true
  | _ => false

end BinaryOp

/-- What every expression carries. -/
structure Info where
  ty : Ty
  loc : Location := {}
  deriving DecidableEq, Repr, Inhabited

inductive Expr where
  | intLit (info : Info) (value : Int64)
  | boolLit (info : Info) (value : Bool)
  | strLit (info : Info) (value : String)
  | nullLit (info : Info)
  | self (info : Info)
  | ident (info : Info) (name : String)
  | unary (info : Info) (op : UnaryOp) (operand : Expr)
  | binary (info : Info) (op : BinaryOp) (lhs rhs : Expr)
  | assign (info : Info) (target value : Expr)
  | call (info : Info) (name : String) (args : List Expr)
  | methodCall (info : Info) (receiver : Expr) (method : String) (args : List Expr)
  | member (info : Info) (object : Expr) (field : String)
  | index (info : Info) (array position : Expr)
  | create (info : Info) (dims : List Expr)
  deriving Repr, Inhabited

namespace Expr

def info : Expr → Info
  | .intLit i _ | .boolLit i _ | .strLit i _ | .nullLit i | .self i | .ident i _ | .unary i _ _
  | .binary i _ _ _ | .assign i _ _ | .call i _ _ | .methodCall i _ _ _ | .member i _ _
  | .index i _ _ | .create i _ => i

def ty (e : Expr) : Ty := e.info.ty

def loc (e : Expr) : Location := e.info.loc

/-- Whether evaluation may write a variable or memory. -/
def hasEffects : Expr → Bool
  | .intLit .. | .boolLit .. | .strLit .. | .nullLit .. | .self .. | .ident .. => false
  | .assign .. | .call .. | .methodCall .. | .create .. => true
  | .unary _ op operand => op.isStep || operand.hasEffects
  | .binary _ _ lhs rhs => lhs.hasEffects || rhs.hasEffects
  | .member _ object _ => object.hasEffects
  | .index _ array position => array.hasEffects || position.hasEffects

end Expr

/-- The declaration of a variable or of a field. -/
structure VarDecl where
  name : String
  ty : Ty
  init : Option Expr := none
  loc : Location := {}
  deriving Repr, Inhabited

structure Param where
  name : String
  ty : Ty
  deriving DecidableEq, Repr, Inhabited

/-- What a `for` statement does first. -/
inductive ForInit where
  | decls (decls : List VarDecl)
  | expr (e : Expr)
  deriving Repr, Inhabited

inductive Stmt where
  | block (body : List Stmt)
  | varDecl (decl : VarDecl)
  | expr (e : Expr)
  | branch (cond : Expr) (thenBranch : Stmt) (elseBranch : Option Stmt)
  | whileLoop (cond : Expr) (body : Stmt)
  | forLoop (init : Option ForInit) (cond step : Option Expr) (body : Stmt)
  | breakLoop (loc : Location)
  | continueLoop (loc : Location)
  | giveBack (value : Option Expr) (loc : Location)
  | empty
  deriving Repr, Inhabited

/-- A free function, a method, or a constructor, which is a method named like its class. -/
structure FuncDecl where
  name : String
  ret : Ty
  params : List Param
  body : List Stmt
  loc : Location := {}
  deriving Repr, Inhabited

structure ClassDecl where
  name : String
  fields : List VarDecl
  methods : List FuncDecl
  loc : Location := {}
  deriving Repr, Inhabited

inductive Decl where
  | var (decl : VarDecl)
  | func (decl : FuncDecl)
  | cls (decl : ClassDecl)
  deriving Repr, Inhabited

structure Program where
  decls : List Decl := []
  deriving Repr, Inhabited

end MxStar.Tree
