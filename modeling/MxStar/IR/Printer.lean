import MxStar.IR.Program
import MxStar.Text.Quoted
import MxStar.Text.Decimal

/-!
The listing of a program of register code: its statics, then each function with its blocks in layout
order. A call of a function names the function it calls.
-/
namespace MxStar.IR

def blockName (b : BlockId) : String := s!"bb{b}"

def Operand.render : Operand → String
  | .vreg v => (Reg.virt v).render
  | .phys p => (Reg.phys p).render
  | .imm w => Text.Decimal.render w
  | .static s => s!"@static{s}"

def Address.render : Address → String
  | .base b offset =>
    if offset = 0 then "[" ++ b.render ++ "]"
    else if offset < 0 then "[" ++ b.render ++ "-" ++ Text.Decimal.render (-offset) ++ "]"
    else "[" ++ b.render ++ "+" ++ Text.Decimal.render offset ++ "]"
  | .static s => s!"[@static{s}]"
  | .slot k => s!"[slot{k}]"
  | .incoming k => s!"[arg{k}]"

def renderOperands (vs : List Operand) : String := ", ".intercalate (vs.map Operand.render)

/-- An instruction in the listing, where `callee` names what is called. -/
def Instr.render (callee : Callee → String) : Instr → String
  | .binary dst op lhs rhs =>
    dst.render ++ " = " ++ op.mnemonic ++ " " ++ lhs.render ++ ", " ++ rhs.render
  | .unary dst op src => dst.render ++ " = " ++ op.mnemonic ++ " " ++ src.render
  | .compare dst cond lhs rhs =>
    dst.render ++ " = cmp " ++ cond.mnemonic ++ " " ++ lhs.render ++ ", " ++ rhs.render
  | .move dst src => dst.render ++ " = " ++ src.render
  | .load dst addr => dst.render ++ " = load " ++ addr.render
  | .store addr src => "store " ++ addr.render ++ ", " ++ src.render
  | .call dst target args _ =>
    let text := "call " ++ callee target ++ "(" ++ renderOperands args ++ ")"
    match dst with
    | some d => d.render ++ " = " ++ text
    | none => text
  | .push src => "push " ++ src.render
  | .jump target => "jump " ++ blockName target
  | .branch cond lhs rhs t e =>
    "br " ++ cond.mnemonic ++ " " ++ lhs.render ++ ", " ++ rhs.render ++ " ? " ++ blockName t ++
      " : " ++ blockName e
  | .ret (some v) => "ret " ++ v.render
  | .ret none => "ret"

def StaticInit.render : StaticInit → String
  | .word => "word"
  | .text s => "str " ++ Text.quoted s

def Static.line (i : StaticId) (s : Static) : String :=
  s!"@static{i} " ++ (if s.label.isEmpty then s.name else s.label) ++ " = " ++ s.init.render

namespace Program

/-- The name of what is called; a function that does not exist is a question mark. -/
def calleeName (p : Program) : Callee → String
  | .func id => (p.functions[id]?.map (·.name)).getD "?"
  | .builtin b => b.symbol

def functionLines (p : Program) (f : Func) : List String :=
  let params := ", ".intercalate (f.params.map fun v => (Reg.virt v).render)
  let blockLines (b : BlockId) : List String :=
    (blockName b ++ "." ++ (f.block b).name ++ ":") ::
      (f.code b).map fun i => "  " ++ i.render p.calleeName
  ("func " ++ f.name ++ "(" ++ params ++ ") [" ++ f.label ++ "]") :: f.layout.flatMap blockLines

/-- The lines of the listing. A blank line stands before each function, except at the very start. -/
def lines (p : Program) : List String :=
  p.functions.toList.foldl
    (fun out f => (if out.isEmpty then out else out ++ [""]) ++ p.functionLines f)
    (p.statics.toList.zipIdx.map fun (s, i) => s.line i)

def render (p : Program) : String := String.join (p.lines.map (· ++ "\n"))

end Program

end MxStar.IR
