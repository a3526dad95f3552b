import MxStar.Asm.Selection

/-!
The frame of a routine.

The frame pointer points at its saved value. Below it are the slots, padded by one word where that
is needed to keep the stack aligned to 16 bytes, and below these the saved registers. Above it are
the return address and the arguments that are passed on the stack.
-/
namespace MxStar.Asm

open IR (Func PhysReg)

def instrsOf (lines : List Line) : List Instr := lines.filterMap Line.instr?

/-- The registers that a routine with a body has to save, in the order in which it saves them. -/
def savedBy (body : List Line) : List PhysReg :=
  PhysReg.calleeSaved.filter fun r => (instrsOf body).any (·.uses r)

/-- The number of words below the frame pointer before the saved registers. -/
def paddedSlots (slots saved : Nat) : Nat := slots + (slots + saved) % 2

def prologue (slots : Nat) (saved : List PhysReg) : List Line :=
  let size := paddedSlots slots saved.length * 8
  [plain (.push (.reg .rbp)), plain (.mov (.reg .rbp) (.reg .rsp))] ++
    (if size = 0 then [] else
      [.instr (.alu .sub .rsp (.imm (Int64.ofNat size)))
        (some (slots.repr ++ " spill slot(s)"))]) ++
    saved.map fun r => .instr (.push (.reg r)) (some ("save " ++ r.name))

def epilogue (slots : Nat) (saved : List PhysReg) : List Line :=
  let words := paddedSlots slots saved.length
  [.label epilogueLabel] ++
    (if saved.isEmpty then [] else
      plain (.lea .rsp (.base .rbp (-Int64.ofNat (words + saved.length) * 8))) ::
        saved.reverse.map fun r => .instr (.pop r) (some ("restore " ++ r.name))) ++
    (if words = 0 then [] else [plain (.mov (.reg .rsp) (.reg .rbp))]) ++
    [plain (.pop .rbp), plain .ret]

/-- The routine with a given body. -/
def Routine.ofBody (name : String) (slots : Nat) (body : List Line) : Routine :=
  let saved := savedBy body
  { name := name
    prologue := Asm.prologue slots saved
    body := body
    epilogue := Asm.epilogue slots saved
    frameSize := paddedSlots slots saved.length * 8
    saved := saved
    isLeaf := !(instrsOf body).any Instr.isCall }

def routine (syms : Symbols) (f : Func) : Except CompileError Routine := do
  return .ofBody f.label f.slots (← selectBody syms f)

/-- The built-in functions that a program calls, by symbol. -/
def calledBuiltins (p : IR.Program) : List IR.Builtin :=
  IR.Builtin.all.filter fun b => p.functions.any fun f => f.instrs.any fun
    | .call _ (.builtin c) _ _ => c = b
    | _ => false

/-- The listing of a program whose registers are allocated. -/
def listing (p : IR.Program) : Except CompileError Listing := do
  let routines ← p.functions.toList.mapM (routine (.ofProgram p))
  return {
    entry := p.entry.bind fun id => p.functions[id]?.map (·.label)
    externs := (calledBuiltins p).map (·.symbol)
    routines := routines
    data := p.statics.toList.map fun s => ⟨s.label, s.init⟩ }

end MxStar.Asm
