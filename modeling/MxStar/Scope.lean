import MxStar.Error
import MxStar.Table

/-!
The names that a program declares.

A scope knows the global variables, the functions and the classes of a program, and from the start
the functions of the runtime that programs may call. Variables, functions and classes have separate
names, and so have the fields and the methods of one class. Declaring a name twice is an error, and
a declaration that fails changes nothing.
-/
namespace MxStar

open MxStar.Tree IR

/-- What a function is. -/
inductive FuncKind where
  | user
  | method (cls : String)
  | builtin (b : Builtin)
  deriving DecidableEq, Repr, Inhabited

structure FuncInfo where
  name : String
  params : List Param
  ret : Ty
  kind : FuncKind
  deriving DecidableEq, Repr, Inhabited

def FuncInfo.ofDecl (decl : FuncDecl) (kind : FuncKind) : FuncInfo :=
  ⟨decl.name, decl.params, decl.ret, kind⟩

def FuncInfo.ofBuiltin (name : String) (params : List Ty) (ret : Ty) (b : Builtin) : FuncInfo :=
  ⟨name, params.zipIdx.map fun (ty, i) => ⟨"a" ++ i.repr, ty⟩, ret, .builtin b⟩

structure VarInfo where
  name : String
  ty : Ty
  deriving DecidableEq, Repr, Inhabited

/-- What is known of a class. Fields are in the order of their declaration; each takes one word. -/
structure ClassInfo where
  name : String
  fields : List VarInfo
  methods : Table FuncInfo
  deriving Repr, Inhabited

namespace ClassInfo

def fieldIndex? (c : ClassInfo) (name : String) : Option Nat :=
  c.fields.findIdx? fun f => f.name = name

def fieldOffset? (c : ClassInfo) (name : String) : Option Word :=
  (c.fieldIndex? name).map fun i => 8 * Int64.ofNat i

/-- The number of bytes of an object. An object without fields takes a word, so that no two objects
have the same address. -/
def size (c : ClassInfo) : Word := 8 * Int64.ofNat (max c.fields.length 1)

def method? (c : ClassInfo) (name : String) : Option FuncInfo := c.methods.find? name

def constructor? (c : ClassInfo) : Option FuncInfo := c.method? c.name

end ClassInfo

structure Scope where
  functions : Table FuncInfo := {}
  classes : Table ClassInfo := {}
  globals : Table VarInfo := {}
  deriving Repr, Inhabited

namespace Scope

def builtins : List FuncInfo :=
  [.ofBuiltin "print" [.string] .void .print,
    .ofBuiltin "println" [.string] .void .println,
    .ofBuiltin "printInt" [.int] .void .printInt,
    .ofBuiltin "printlnInt" [.int] .void .printlnInt,
    .ofBuiltin "getString" [] .string .getString,
    .ofBuiltin "getInt" [] .int .getInt,
    .ofBuiltin "toString" [.int] .string .toString]

def initial : Scope :=
  { functions := builtins.foldl (fun t f => t.insert f.name f) {} }

def function? (s : Scope) (name : String) : Option FuncInfo := s.functions.find? name

def class? (s : Scope) (name : String) : Option ClassInfo := s.classes.find? name

def global? (s : Scope) (name : String) : Option VarInfo := s.globals.find? name

/-- Changes to a scope. After an error the scope is as it was left. -/
abbrev Declaring := ExceptT CompileError (StateM Scope)

def declareGlobal (name : String) (ty : Ty) : Declaring Unit := do
  if (← get).globals.contains name then throw (.redefinition .var name)
  modify fun s => { s with globals := s.globals.insert name ⟨name, ty⟩ }

def declareFunction (f : FuncInfo) : Declaring Unit := do
  if (← get).functions.contains f.name then throw (.redefinition .func f.name)
  modify fun s => { s with functions := s.functions.insert f.name f }

def collectFields (cls : String) : List VarDecl → List VarInfo → Except CompileError (List VarInfo)
  | [], fields => .ok fields
  | d :: rest, fields =>
    if fields.any (fun f => f.name = d.name) then
      .error (.redefinition .field (cls ++ "." ++ d.name))
    else collectFields cls rest (fields ++ [⟨d.name, d.ty⟩])

def collectMethods (cls : String) :
    List FuncDecl → Table FuncInfo → Except CompileError (Table FuncInfo)
  | [], methods => .ok methods
  | d :: rest, methods =>
    if methods.contains d.name then .error (.redefinition .method (cls ++ "." ++ d.name))
    else collectMethods cls rest (methods.insert d.name (.ofDecl d (.method cls)))

def declareClass (decl : ClassDecl) : Declaring Unit := do
  if (← get).classes.contains decl.name then throw (.redefinition .cls decl.name)
  let fields ← collectFields decl.name decl.fields []
  let methods ← collectMethods decl.name decl.methods {}
  modify fun s => { s with classes := s.classes.insert decl.name ⟨decl.name, fields, methods⟩ }

def declare : Decl → Declaring Unit
  | .var d => declareGlobal d.name d.ty
  | .func d => declareFunction (.ofDecl d .user)
  | .cls d => declareClass d

def ofProgram (p : Tree.Program) : Except CompileError Scope :=
  let (r, s) := (p.decls.forM declare).run.run initial
  r.map fun _ => s

end Scope

end MxStar
