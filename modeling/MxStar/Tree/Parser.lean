import MxStar.Json.Parser
import MxStar.Tree.Basic

/-!
Program trees from JSON.

Records and variants are read by the rules of `Json.fields?` and `Json.variant?`. Fields that may be
left out are a variable's initial value, every place, the else branch, the three parts of a `for`
head, the value of a `return` and the dimensions of `new`. The fuel of each reader is computed from
the depth of the value and always suffices, so that trees of any depth can be read.
-/
namespace MxStar.Tree

/-! ## Fields -/

def required {α : Type} (read : Json → Option α) (field : Option Json) : Option α := field.bind read

/-- A field with a value that stands in for it when it is left out. -/
def defaulted {α : Type} (default : α) (read : Json → Option α) : Option Json → Option α
  | none => some default
  | some j => read j

def optional {α : Type} (read : Json → Option α) : Option Json → Option (Option α) :=
  defaulted none (Json.optional? read)

def list {α : Type} (read : Json → Option α) (j : Json) : Option (List α) :=
  j.items?.bind fun items => items.mapM read

/-- One of several named variants without content. -/
def choice {α : Type} (names : List (String × α)) (j : Json) : Option α :=
  match j.variant? with
  | some (name, none) | some (name, some .null) => names.lookup name
  | _ => none

/-! ## Types, places and operators -/

def Location.ofJson? (j : Json) : Option Location :=
  match j.fields? ["line", "column"] with
  | some [line, column] => do
    return ⟨.ofNat (← required Json.count? line), .ofNat (← required Json.count? column)⟩
  | _ => none

def Ty.names : List (String × Ty) :=
  [("Int", .int), ("Bool", .bool), ("String", .string), ("Void", .void), ("Null", .null)]

/-- A type nested less deeply than the fuel. -/
def Ty.read : Nat → Json → Option Ty
  | 0, _ => none
  | _ + 1, .obj [("Class", c)] => c.str?.map .object
  | fuel + 1, .obj [("Array", c)] => (Ty.read fuel c).map .array
  | _ + 1, j => choice Ty.names j

def Ty.ofJson? (j : Json) : Option Ty := Ty.read (j.depth + 1) j

def UnaryOp.names : List (String × UnaryOp) :=
  [("Neg", .neg), ("Pos", .pos), ("LogicNot", .logicNot), ("BitNot", .bitNot),
    ("PreInc", .preInc), ("PreDec", .preDec), ("PostInc", .postInc), ("PostDec", .postDec)]

def UnaryOp.ofJson? : Json → Option UnaryOp := choice UnaryOp.names

def BinaryOp.names : List (String × BinaryOp) :=
  [("Add", .add), ("Sub", .sub), ("Mul", .mul), ("Div", .div), ("Mod", .mod), ("Shl", .shl),
    ("Shr", .shr), ("BitAnd", .bitAnd), ("BitOr", .bitOr), ("BitXor", .bitXor),
    ("LogicAnd", .logicAnd), ("LogicOr", .logicOr), ("Eq", .eq), ("Ne", .ne), ("Lt", .lt),
    ("Le", .le), ("Gt", .gt), ("Ge", .ge)]

def BinaryOp.ofJson? : Json → Option BinaryOp := choice BinaryOp.names

/-! ## Expressions -/

/-- The form of an expression whose parts are read by `part`. -/
def Expr.readForm (part : Json → Option Expr) (info : Info) : Json → Option Expr
  | .obj [("IntLit", c)] => c.word?.map (.intLit info)
  | .obj [("BoolLit", c)] => c.bool?.map (.boolLit info)
  | .obj [("StrLit", c)] => c.str?.map (.strLit info)
  | .obj [("Ident", c)] => c.str?.map (.ident info)
  | .obj [("Unary", c)] =>
    match c.fields? ["op", "operand"] with
    | some [op, operand] => do
      return .unary info (← required UnaryOp.ofJson? op) (← required part operand)
    | _ => none
  | .obj [("Binary", c)] =>
    match c.fields? ["op", "lhs", "rhs"] with
    | some [op, lhs, rhs] => do
      return .binary info (← required BinaryOp.ofJson? op) (← required part lhs)
        (← required part rhs)
    | _ => none
  | .obj [("Assign", c)] =>
    match c.fields? ["target", "value"] with
    | some [target, value] => do
      return .assign info (← required part target) (← required part value)
    | _ => none
  | .obj [("Call", c)] =>
    match c.fields? ["name", "args"] with
    | some [name, args] => do
      return .call info (← required Json.str? name) (← required (list part) args)
    | _ => none
  | .obj [("MethodCall", c)] =>
    match c.fields? ["receiver", "method", "args"] with
    | some [receiver, method, args] => do
      return .methodCall info (← required part receiver) (← required Json.str? method)
        (← required (list part) args)
    | _ => none
  | .obj [("Member", c)] =>
    match c.fields? ["object", "field"] with
    | some [object, field] => do
      return .member info (← required part object) (← required Json.str? field)
    | _ => none
  | .obj [("Index", c)] =>
    match c.fields? ["array", "index"] with
    | some [array, position] => do
      return .index info (← required part array) (← required part position)
    | _ => none
  | .obj [("New", c)] =>
    match c.fields? ["dims"] with
    | some [dims] => do return .create info (← defaulted [] (list part) dims)
    | _ => none
  | j => choice [("Null", .nullLit info), ("This", .self info)] j

/-- An expression nested less deeply than the fuel. -/
def Expr.read : Nat → Json → Option Expr
  | 0, _ => none
  | fuel + 1, j =>
    match j.fields? ["kind", "ty", "loc"] with
    | some [some kind, ty, loc] =>
      (required Ty.ofJson? ty).bind fun ty =>
        (defaulted {} Location.ofJson? loc).bind fun loc =>
          Expr.readForm (Expr.read fuel) ⟨ty, loc⟩ kind
    | _ => none

def Expr.ofJson? (j : Json) : Option Expr := Expr.read (j.depth + 1) j

/-! ## Statements -/

def VarDecl.ofJson? (j : Json) : Option VarDecl :=
  match j.fields? ["name", "ty", "init", "loc"] with
  | some [name, ty, init, loc] => do
    return {
      name := ← required Json.str? name
      ty := ← required Ty.ofJson? ty
      init := ← optional Expr.ofJson? init
      loc := ← defaulted {} Location.ofJson? loc }
  | _ => none

def ForInit.ofJson? : Json → Option ForInit
  | .obj [("Decls", c)] => (list VarDecl.ofJson? c).map .decls
  | .obj [("Expr", c)] => (Expr.ofJson? c).map .expr
  | _ => none

/-- A statement whose inner statements are read by `part`. -/
def Stmt.readForm (part : Json → Option Stmt) : Json → Option Stmt
  | .obj [("Block", c)] => (list part c).map .block
  | .obj [("VarDecl", c)] => (VarDecl.ofJson? c).map .varDecl
  | .obj [("Expr", c)] => (Expr.ofJson? c).map .expr
  | .obj [("If", c)] =>
    match c.fields? ["cond", "then_branch", "else_branch"] with
    | some [cond, thenBranch, elseBranch] => do
      return .branch (← required Expr.ofJson? cond) (← required part thenBranch)
        (← optional part elseBranch)
    | _ => none
  | .obj [("While", c)] =>
    match c.fields? ["cond", "body"] with
    | some [cond, body] => do
      return .whileLoop (← required Expr.ofJson? cond) (← required part body)
    | _ => none
  | .obj [("For", c)] =>
    match c.fields? ["init", "cond", "step", "body"] with
    | some [init, cond, step, body] => do
      return .forLoop (← optional ForInit.ofJson? init) (← optional Expr.ofJson? cond)
        (← optional Expr.ofJson? step) (← required part body)
    | _ => none
  | .obj [("Break", c)] => (Location.ofJson? c).map .breakLoop
  | .obj [("Continue", c)] => (Location.ofJson? c).map .continueLoop
  | .obj [("Return", c)] =>
    match c.fields? ["value", "loc"] with
    | some [value, loc] => do
      return .giveBack (← optional Expr.ofJson? value) (← defaulted {} Location.ofJson? loc)
    | _ => none
  | j => choice [("Empty", .empty)] j

/-- A statement nested less deeply than the fuel. -/
def Stmt.read : Nat → Json → Option Stmt
  | 0, _ => none
  | fuel + 1, j => Stmt.readForm (Stmt.read fuel) j

def Stmt.ofJson? (j : Json) : Option Stmt := Stmt.read (j.depth + 1) j

/-! ## Declarations -/

def Param.ofJson? (j : Json) : Option Param :=
  match j.fields? ["name", "ty"] with
  | some [name, ty] => do return ⟨← required Json.str? name, ← required Ty.ofJson? ty⟩
  | _ => none

def FuncDecl.ofJson? (j : Json) : Option FuncDecl :=
  match j.fields? ["name", "ret", "params", "body", "loc"] with
  | some [name, ret, params, body, loc] => do
    return {
      name := ← required Json.str? name
      ret := ← required Ty.ofJson? ret
      params := ← required (list Param.ofJson?) params
      body := ← required (list Stmt.ofJson?) body
      loc := ← defaulted {} Location.ofJson? loc }
  | _ => none

def ClassDecl.ofJson? (j : Json) : Option ClassDecl :=
  match j.fields? ["name", "fields", "methods", "loc"] with
  | some [name, fields, methods, loc] => do
    return {
      name := ← required Json.str? name
      fields := ← required (list VarDecl.ofJson?) fields
      methods := ← required (list FuncDecl.ofJson?) methods
      loc := ← defaulted {} Location.ofJson? loc }
  | _ => none

def Decl.ofJson? : Json → Option Decl
  | .obj [("Var", c)] => (VarDecl.ofJson? c).map .var
  | .obj [("Func", c)] => (FuncDecl.ofJson? c).map .func
  | .obj [("Class", c)] => (ClassDecl.ofJson? c).map .cls
  | _ => none

def Program.ofJson? (j : Json) : Option Program :=
  match j.fields? ["decls"] with
  | some [decls] => (required (list Decl.ofJson?) decls).map Program.mk
  | _ => none

def Program.parse? (text : String) : Option Program := (Json.parse? text).bind Program.ofJson?

end MxStar.Tree
