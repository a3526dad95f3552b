import MxStar.Interp.Step

/-!
Runs of register code.

A run executes instructions until the first function returns, an error is met, or its fuel is used
up; every instruction takes one unit. The runtime checks its plain arithmetic for overflow, unless it
is built without.
-/
namespace MxStar.Interp

open IR

def defaultFuel : Nat := 50000000

/-- What a run that returns gives. -/
structure Outcome where
  value : Word
  output : String
  deriving DecidableEq, Repr, Inhabited

def runConfig (p : Program) : Nat → Config → Except RunError Outcome
  | 0, c =>
    match c.frame.code with
    | [] => .error (.unsupported (.unterminated c.frame.block))
    | _ :: _ => .error .outOfFuel
  | fuel + 1, c =>
    match step p c with
    | .running c => runConfig p fuel c
    | .finished w m => .ok ⟨w, m.output⟩
    | .failed e => .error e

def Config.start (p : Program) (f : Func) (args : List Word) (input : String) (checks : Bool := true) :
    Config :=
  { machine := (Machine.start p input checks).passArgs args, frame := .enter f args, callers := [] }

def call (p : Program) (id : FuncId) (args : List Word) (input : String) (fuel : Nat)
    (checks : Bool := true) : Except RunError Outcome :=
  match p.functions[id]? with
  | none => .error (.unsupported (.function id))
  | some f => runConfig p fuel (.start p f args input checks)

def run (p : Program) (input : String) (fuel : Nat) (checks : Bool := true) :
    Except RunError Outcome :=
  match p.entry with
  | none => .error .noEntry
  | some id => call p id [] input fuel checks

end MxStar.Interp
