import MxStar.IR.Func

/-!
Statics and whole programs of register code.
-/
namespace MxStar.IR

inductive StaticInit where
  /-- One word, zero at first: a global variable. -/
  | word
  /-- A string literal: its length in a word, its bytes, and a zero byte. -/
  | text (s : String)
  deriving DecidableEq, Repr, Inhabited

structure Static where
  name : String
  init : StaticInit
  /-- The assembly symbol; empty until the layout of statics gives it one. -/
  label : String := ""
  deriving DecidableEq, Repr, Inhabited

def Static.size (s : Static) : Nat :=
  match s.init with
  | .word => 8
  | .text t => 8 + t.utf8ByteSize + 1

structure Program where
  functions : Array Func := #[]
  statics : Array Static := #[]
  /-- The function that runs first. -/
  entry : Option FuncId := none
  deriving DecidableEq, Repr, Inhabited

namespace Program

def findFunction? (p : Program) (name : String) : Option FuncId :=
  p.functions.findIdx? fun f => f.name = name

def modifyFunction (p : Program) (id : FuncId) (g : Func → Func) : Program :=
  { p with functions := p.functions.modify id g }

def mapFunctions (p : Program) (g : Func → Func) : Program :=
  { p with functions := p.functions.map g }

def mapFunctionsM {ε : Type} (p : Program) (g : Func → Except ε Func) : Except ε Program := do
  return { p with functions := (← p.functions.toList.mapM g).toArray }

end Program

end MxStar.IR
