import MxStar.Json.Printer
import MxStar.Tree.Basic

/-!
Program trees as JSON, with every field present. A part that is absent is `null`, and a variant
without content is its name.
-/
namespace MxStar.Tree

def ofOption {α : Type} (write : α → Json) : Option α → Json
  | none => .null
  | some a => write a

def Location.toJson (l : Location) : Json :=
  .obj [("column", .int l.column.toNat), ("line", .int l.line.toNat)]

def Ty.toJson : Ty → Json
  | .int => .str "Int"
  | .bool => .str "Bool"
  | .string => .str "String"
  | .void => .str "Void"
  | .null => .str "Null"
  | .object name => .obj [("Class", .str name)]
  | .array elem => .obj [("Array", elem.toJson)]

def UnaryOp.name : UnaryOp → String
  | .neg => "Neg"
  | .pos => "Pos"
  | .logicNot => "LogicNot"
  | .bitNot => "BitNot"
  | .preInc => "PreInc"
  | .preDec => "PreDec"
  | .postInc => "PostInc"
  | .postDec => "PostDec"

def BinaryOp.name : BinaryOp → String
  | .add => "Add"
  | .sub => "Sub"
  | .mul => "Mul"
  | .div => "Div"
  | .mod => "Mod"
  | .shl => "Shl"
  | .shr => "Shr"
  | .bitAnd => "BitAnd"
  | .bitOr => "BitOr"
  | .bitXor => "BitXor"
  | .logicAnd => "LogicAnd"
  | .logicOr => "LogicOr"
  | .eq => "Eq"
  | .ne => "Ne"
  | .lt => "Lt"
  | .le => "Le"
  | .gt => "Gt"
  | .ge => "Ge"

def Info.toJson (i : Info) (kind : Json) : Json :=
  .obj [("kind", kind), ("loc", i.loc.toJson), ("ty", i.ty.toJson)]

mutual

def Expr.toJson : Expr → Json
  | .intLit i v => i.toJson (.obj [("IntLit", .int v.toInt)])
  | .boolLit i v => i.toJson (.obj [("BoolLit", .bool v)])
  | .strLit i v => i.toJson (.obj [("StrLit", .str v)])
  | .nullLit i => i.toJson (.str "Null")
  | .self i => i.toJson (.str "This")
  | .ident i name => i.toJson (.obj [("Ident", .str name)])
  | .unary i op operand =>
    i.toJson (.obj [("Unary", .obj [("op", .str op.name), ("operand", operand.toJson)])])
  | .binary i op lhs rhs =>
    i.toJson (.obj [("Binary", .obj [("lhs", lhs.toJson), ("op", .str op.name),
      ("rhs", rhs.toJson)])])
  | .assign i target value =>
    i.toJson (.obj [("Assign", .obj [("target", target.toJson), ("value", value.toJson)])])
  | .call i name args =>
    i.toJson (.obj [("Call", .obj [("args", .arr (Expr.listToJson args)), ("name", .str name)])])
  | .methodCall i receiver method args =>
    i.toJson (.obj [("MethodCall", .obj [("args", .arr (Expr.listToJson args)),
      ("method", .str method), ("receiver", receiver.toJson)])])
  | .member i object field =>
    i.toJson (.obj [("Member", .obj [("field", .str field), ("object", object.toJson)])])
  | .index i array position =>
    i.toJson (.obj [("Index", .obj [("array", array.toJson), ("index", position.toJson)])])
  | .create i dims => i.toJson (.obj [("New", .obj [("dims", .arr (Expr.listToJson dims))])])

def Expr.listToJson : List Expr → List Json
  | [] => []
  | e :: es => e.toJson :: Expr.listToJson es

end

def VarDecl.toJson (d : VarDecl) : Json :=
  .obj [("init", ofOption Expr.toJson d.init), ("loc", d.loc.toJson), ("name", .str d.name),
    ("ty", d.ty.toJson)]

def ForInit.toJson : ForInit → Json
  | .decls ds => .obj [("Decls", .arr (ds.map VarDecl.toJson))]
  | .expr e => .obj [("Expr", e.toJson)]

mutual

def Stmt.toJson : Stmt → Json
  | .block body => .obj [("Block", .arr (Stmt.listToJson body))]
  | .varDecl decl => .obj [("VarDecl", decl.toJson)]
  | .expr e => .obj [("Expr", e.toJson)]
  | .branch cond thenBranch elseBranch =>
    .obj [("If", .obj [("cond", cond.toJson), ("else_branch", Stmt.optionToJson elseBranch),
      ("then_branch", thenBranch.toJson)])]
  | .whileLoop cond body => .obj [("While", .obj [("body", body.toJson), ("cond", cond.toJson)])]
  | .forLoop init cond step body =>
    .obj [("For", .obj [("body", body.toJson), ("cond", ofOption Expr.toJson cond),
      ("init", ofOption ForInit.toJson init), ("step", ofOption Expr.toJson step)])]
  | .breakLoop loc => .obj [("Break", loc.toJson)]
  | .continueLoop loc => .obj [("Continue", loc.toJson)]
  | .giveBack value loc =>
    .obj [("Return", .obj [("loc", loc.toJson), ("value", ofOption Expr.toJson value)])]
  | .empty => .str "Empty"

def Stmt.listToJson : List Stmt → List Json
  | [] => []
  | s :: ss => s.toJson :: Stmt.listToJson ss

def Stmt.optionToJson : Option Stmt → Json
  | none => .null
  | some s => s.toJson

end

def Param.toJson (p : Param) : Json := .obj [("name", .str p.name), ("ty", p.ty.toJson)]

def FuncDecl.toJson (d : FuncDecl) : Json :=
  .obj [("body", .arr (Stmt.listToJson d.body)), ("loc", d.loc.toJson), ("name", .str d.name),
    ("params", .arr (d.params.map Param.toJson)), ("ret", d.ret.toJson)]

def ClassDecl.toJson (d : ClassDecl) : Json :=
  .obj [("fields", .arr (d.fields.map VarDecl.toJson)), ("loc", d.loc.toJson),
    ("methods", .arr (d.methods.map FuncDecl.toJson)), ("name", .str d.name)]

def Decl.toJson : Decl → Json
  | .var decl => .obj [("Var", decl.toJson)]
  | .func decl => .obj [("Func", decl.toJson)]
  | .cls decl => .obj [("Class", decl.toJson)]

def Program.toJson (p : Program) : Json := .obj [("decls", .arr (p.decls.map Decl.toJson))]

def Program.render (p : Program) : String := p.toJson.render

end MxStar.Tree
