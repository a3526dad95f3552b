import Mathlib.Algebra.Group.Int.Defs
import Mathlib.Logic.Function.Basic
import MxStar.Asm.Listing
import MxStar.Proofs.WordMemory

/-!
What machine code does.

A `State` has sixteen registers, the flags that conditions look at, and memory. `exec` has no next state where
an instruction faults, or looks at a flag that is undefined. The effect of a call is given by the `Env`. A run
that reaches a return leaves a `Trace`. One piece of code is shown to do what another does line by line
(`run_follows`).
-/
namespace MxStar.Asm

open List

open IR (Word PhysReg CmpOp)
open Interp (Store)

variable {code : List Line}

/-! ## States -/

/-- The flags that conditions look at. An instruction may leave them undefined. -/
structure Flags where
  zero : Option Bool
  sign : Option Bool
  overflow : Option Bool
  deriving DecidableEq

namespace Flags

def undefined : Flags := ⟨none, none, none⟩

/-- The flags after a result that is as it should be as a number, unless it overflowed. -/
def ofResult (w : Word) (exact : Int) : Flags :=
  ⟨some (w = 0), some (w < 0), some (w.toInt ≠ exact)⟩

def ofDifference (l r : Word) : Flags := ofResult (l - r) (l.toInt - r.toInt)

/-- Whether a condition holds, if the flags that it looks at are defined. -/
def holds (f : Flags) : CmpOp → Option Bool
  | .eq => f.zero
  | .ne => f.zero.map (!·)
  | .lt => do return (← f.sign) != (← f.overflow)
  | .ge => do return (← f.sign) == (← f.overflow)
  | .le => do return (← f.zero) || (← f.sign) != (← f.overflow)
  | .gt => do return !(← f.zero) && (← f.sign) == (← f.overflow)

end Flags

/-- The state of the processor and its memory. -/
structure State where
  regs : PhysReg → Word
  flags : Flags
  memory : Store

namespace State

def set (s : State) (r : PhysReg) (w : Word) : State :=
  { s with regs := Function.update s.regs r w }

def store (s : State) (a w : Word) : State := { s with memory := s.memory.write a w }

variable (s : State) (r : PhysReg) (a w : Word)

@[simp] theorem regs_set : (s.set r w).regs r = w := Function.update_self ..

theorem regs_set_of_ne {r q : PhysReg} (h : q ≠ r) : (s.set r w).regs q = s.regs q :=
  Function.update_of_ne h _ _

@[simp] theorem memory_set : (s.set r w).memory = s.memory := rfl

@[simp] theorem regs_store : (s.store a w).regs = s.regs := rfl

@[simp] theorem memory_store : (s.store a w).memory = s.memory.write a w := rfl

@[simp] theorem set_self : s.set r (s.regs r) = s := by rw [set, Function.update_eq_self]

end State

/-- What surrounds a routine: where labels of data are, and what calls do. -/
structure Env where
  label : String → Word
  call : String → State → State

/-! ## Instructions -/

def Mem.address (env : Env) (s : State) : Mem → Word
  | .base b disp => s.regs b + disp
  | .label name => env.label name

def Arg.value (env : Env) (s : State) : Arg → Word
  | .reg r => s.regs r
  | .imm w => w
  | .mem m => s.memory.read (m.address env s)

namespace AluOp

def result : AluOp → Word → Word → Word
  | .add, l, r => l + r
  | .sub, l, r => l - r
  | .imul, l, r => l * r
  | .and, l, r => l &&& r
  | .or, l, r => l ||| r
  | .xor, l, r => l ^^^ r

/-- The flags after an operation. A product leaves only the overflow flag defined. -/
def flags (op : AluOp) (l r : Word) : Flags :=
  match op with
  | .add => .ofResult (l + r) (l.toInt + r.toInt)
  | .sub => .ofDifference l r
  | .imul => { Flags.undefined with overflow := some ((l * r).toInt ≠ l.toInt * r.toInt) }
  | .and | .or | .xor => .ofResult (op.result l r) (op.result l r).toInt

end AluOp

namespace ShiftOp

def result (op : ShiftOp) (w : Word) (count : Nat) : Word :=
  match op with
  | .sal => w <<< Int64.ofNat count
  | .sar => w >>> Int64.ofNat count

/-- The flags after a shift by less than the word size. A shift by nothing keeps them, and one by
more than one place leaves the overflow flag undefined. -/
def flags (op : ShiftOp) (f : Flags) (w : Word) (count : Nat) : Flags :=
  let shifted := op.result w count
  if count = 0 then f
  else { zero := some (shifted = 0)
         sign := some (shifted < 0)
         overflow := if count = 1 then
           match op with
           | .sal => some ((shifted < 0) ≠ (w < 0))
           | .sar => some false
         else none }

end ShiftOp

/-- The quotient and the remainder of a signed division of two words by one, unless the divisor is
zero or the quotient does not fit a word. -/
def divide (high low divisor : Word) : Option (Word × Word) :=
  let dividend : Int := high.toInt * 2 ^ 64 + low.toUInt64.toNat
  let quotient := dividend.tdiv divisor.toInt
  if divisor = 0 || (Int64.ofInt quotient).toInt ≠ quotient then none
  else some (Int64.ofInt quotient, Int64.ofInt (dividend.tmod divisor.toInt))

def withLowByte (w : Word) (b : Bool) : Word := (w &&& ~~~255) ||| (if b then 1 else 0)

/-- The state after an instruction that neither calls nor transfers control. -/
def exec (env : Env) (i : Instr) (s : State) : Option State :=
  match i with
  | .mov (.reg d) src => some (s.set d (src.value env s))
  | .mov (.mem _) (.mem _) => none
  | .mov (.mem m) src => some (s.store (m.address env s) (src.value env s))
  | .mov (.imm _) _ => none
  | .lea d m => some (s.set d (m.address env s))
  | .movzx d r => some (s.set d (s.regs r &&& 255))
  | .push src =>
    let top := s.regs .rsp - 8
    some ((s.set .rsp top).store top (src.value env s))
  | .pop d => some ((s.set .rsp (s.regs .rsp + 8)).set d (s.memory.read (s.regs .rsp)))
  | .alu op d src =>
    let l := s.regs d
    let r := src.value env s
    some { s.set d (op.result l r) with flags := op.flags l r }
  | .shift op d count =>
    let n := count.getD (s.regs .rcx).toUInt64.toNat % 64
    some { s.set d (op.result (s.regs d) n) with flags := op.flags s.flags (s.regs d) n }
  | .neg d => some { s.set d (-s.regs d) with flags := .ofDifference 0 (s.regs d) }
  | .not d => some (s.set d (~~~s.regs d))
  | .cqo => some (s.set .rdx (if s.regs .rax < 0 then -1 else 0))
  | .idiv r => do
    let (quotient, remainder) ← divide (s.regs .rdx) (s.regs .rax) (s.regs r)
    return { (s.set .rax quotient).set .rdx remainder with flags := .undefined }
  | .cmp l r => some { s with flags := .ofDifference (s.regs l) (r.value env s) }
  | .set c d => do return s.set d (withLowByte (s.regs d) (← s.flags.holds c))
  | .jmp _ | .jcc .. | .call _ | .ret => none

def Arg.touches (env : Env) (s : State) : Arg → List Word
  | .mem m => [m.address env s]
  | .reg _ | .imm _ => []

def Instr.touches (env : Env) (s : State) : Instr → List Word
  | .mov dst src => dst.touches env s ++ src.touches env s
  | .push src | .alu _ _ src | .cmp _ src => src.touches env s
  | .lea .. | .movzx .. | .pop _ | .shift .. | .neg _ | .not _ | .cqo | .idiv _ | .set .. | .jmp _
  | .jcc .. | .call _ | .ret => []

/-! ## Runs -/

def linesFrom (name : String) : List Line → Option (List Line)
  | [] => none
  | a :: rest => if a = .label name then some (a :: rest) else linesFrom name rest

/-- What a line leads to. -/
inductive Advance where
  /-- There is no next state. -/
  | stuck
  /-- The routine returns. -/
  | returns
  /-- The run goes on, after a call perhaps, and after accesses to memory. -/
  | goes (calls : List (String × State)) (touched : List Word) (s : State) (rest : List Line)

def jumpTo (code : List Line) (s : State) (name : String) : Advance :=
  match linesFrom name code with
  | some lines => .goes [] [] s lines
  | none => .stuck

def step (env : Env) (code : List Line) (s : State) : List Line → Advance
  | [] => .stuck
  | .label _ :: rest => .goes [] [] s rest
  | .instr i _ :: rest =>
    match i with
    | .ret => .returns
    | .jmp target => jumpTo code s target
    | .jcc c target =>
      match s.flags.holds c with
      | some true => jumpTo code s target
      | some false => .goes [] [] s rest
      | none => .stuck
    | .call target => .goes [(target, s)] [] (env.call target s) rest
    | i =>
      match exec env i s with
      | some t => .goes [] (i.touches env s) t rest
      | none => .stuck

theorem step_jcc {env : Env} {rest : List Line} {s : State} {c : CmpOp} {target : String}
    {comment : Option String} :
    step env code s (.instr (.jcc c target) comment :: rest) =
      match s.flags.holds c with
      | some true => jumpTo code s target
      | some false => .goes [] [] s rest
      | none => .stuck := rfl

/-- Whether an instruction neither calls nor transfers control. -/
def Instr.isStraight : Instr → Bool
  | .jmp _ | .jcc .. | .call _ | .ret => false
  | _ => true

theorem step_straight {env : Env} {rest : List Line} {s : State} {i : Instr}
    {comment : Option String} (hi : i.isStraight) :
    step env code s (.instr i comment :: rest) =
      match exec env i s with
      | some t => .goes [] (i.touches env s) t rest
      | none => .stuck := by
  cases i with
  | jmp | jcc | call | ret => cases hi
  | _ => rfl

structure Trace where
  /-- The calls, with the states at them. -/
  calls : List (String × State)
  /-- The addresses of the words that operands accessed. -/
  touched : List Word
  /-- The state at the return. -/
  final : State

def run (env : Env) (code : List Line) : Nat → State → List Line → Option Trace
  | 0, _, _ => none
  | fuel + 1, s, rest =>
    match step env code s rest with
    | .stuck => none
    | .returns => some ⟨[], [], s⟩
    | .goes calls touched t rest => do
      let trace ← run env code fuel t rest
      return { trace with calls := calls ++ trace.calls, touched := touched ++ trace.touched }

/-- Code, run from its first line, reaches a return and leaves a trace. -/
def Runs (env : Env) (code : List Line) (s : State) (trace : Trace) : Prop :=
  ∃ fuel, run env code fuel s code = some trace

theorem run_add {env : Env} {lines : List Line} {fuel : Nat} {s : State} {trace : Trace}
    (h : run env code fuel s lines = some trace) (more : Nat) :
    run env code (fuel + more) s lines = some trace := by
  induction fuel generalizing s lines trace with
  | zero => cases h
  | succ fuel ih =>
    rw [Nat.succ_add, run]
    rw [run] at h
    cases hstep : step env code s lines with
    | stuck =>
      rw [hstep] at h
      cases h
    | returns =>
      rw [hstep] at h
      exact h
    | goes calls touched t rest =>
      rw [hstep] at h
      obtain ⟨trace', hrun, heq⟩ := Option.bind_eq_some_iff.1 h
      dsimp only
      rw [ih hrun]
      exact heq

/-- Code leaves one trace at most. -/
theorem Runs.unique {env : Env} {s : State} {trace trace' : Trace} (h : Runs env code s trace)
    (h' : Runs env code s trace') : trace' = trace := by
  obtain ⟨fuel, h⟩ := h
  obtain ⟨fuel', h'⟩ := h'
  have hlong := run_add h fuel'
  rw [Nat.add_comm, run_add h' fuel] at hlong
  exact Option.some.inj hlong

/-! ## Following a run -/

/-- How a line of other code answers what a line led to: with a step that makes the same calls and
accesses no more, or, if there was no call, with none. -/
def Matches (env : Env) (code : List Line) (R : State → List Line → State → List Line → Prop)
    (Q : State → State → Prop) (s t : State) (rest : List Line) : Advance → Prop
  | .stuck => True
  | .returns => step env code t rest = .returns ∧ Q s t
  | .goes calls touched s1 rest1 =>
    (calls = [] ∧ R s1 rest1 t rest) ∨ ∃ touched' t1 rest2, touched' ⊆ touched ∧
      step env code t rest = .goes calls touched' t1 rest2 ∧ R s1 rest1 t1 rest2

/-- **Following a run.** If every line is matched as long as only addresses with a property are
accessed, then a run that accesses only such addresses is followed to its end. -/
theorem run_follows {env : Env} {code' : List Line}
    {R : State → List Line → State → List Line → Prop} {Q : State → State → Prop} {P : Word → Prop}
    (hstep : ∀ s lines t lines', R s lines t lines' →
      (∀ calls touched s1 rest1, step env code s lines = .goes calls touched s1 rest1 →
        ∀ a ∈ touched, P a) →
      Matches env code' R Q s t lines' (step env code s lines)) {fuel : Nat} {s t : State}
    {lines lines' : List Line} (hr : R s lines t lines') {trace : Trace}
    (h : run env code fuel s lines = some trace) (htouched : ∀ a ∈ trace.touched, P a) :
    ∃ fuel' trace', run env code' fuel' t lines' = some trace' ∧ trace'.calls = trace.calls ∧
      trace'.touched ⊆ trace.touched ∧ Q trace.final trace'.final := by
  induction fuel generalizing s t lines lines' trace with
  | zero => cases h
  | succ fuel ih =>
    rw [run] at h
    have hmatch := hstep s lines t lines' hr
    cases hadvance : step env code s lines with
    | stuck =>
      rw [hadvance] at h
      cases h
    | returns =>
      rw [hadvance] at h hmatch
      obtain ⟨hreturn, hq⟩ := hmatch (by intro _ _ _ _ he; cases he)
      cases h
      refine ⟨1, ⟨[], [], t⟩, ?_, rfl, List.Subset.refl _, hq⟩
      rw [run, hreturn]
    | goes calls touched s1 rest1 =>
      rw [hadvance] at h hmatch
      obtain ⟨rest, hrest, heq⟩ := Option.bind_eq_some_iff.1 h
      cases heq
      have hrest_touched : ∀ a ∈ rest.touched, P a := fun a ha =>
        htouched a (mem_append_right _ ha)
      obtain ⟨rfl, hr1⟩ | ⟨touched', t1, rest2, hsub, hgoes, hr1⟩ := hmatch (by
        intro _ _ _ _ he
        cases he
        exact fun a ha => htouched a (mem_append_left _ ha))
      · obtain ⟨fuel', trace', hrun, hcalls, hsub, hq⟩ := ih hr1 hrest hrest_touched
        exact ⟨fuel', trace', hrun, hcalls, fun a ha => mem_append_right _ (hsub ha), hq⟩
      · obtain ⟨fuel', trace', hrun, hcalls, hsub', hq⟩ := ih hr1 hrest hrest_touched
        refine ⟨fuel' + 1, { trace' with
          calls := calls ++ trace'.calls, touched := touched' ++ trace'.touched }, ?_, ?_, ?_, hq⟩
        · rw [run, hgoes]
          dsimp only
          rw [hrun]
          rfl
        · exact congrArg (calls ++ ·) hcalls
        · intro a ha
          rcases mem_append.1 ha with ha | ha
          · exact mem_append_left _ (hsub ha)
          · exact mem_append_right _ (hsub' ha)

end MxStar.Asm
