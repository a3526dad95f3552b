import MxStar.Command.Args
import MxStar.Command.Files
import MxStar.Compile
import MxStar.Interp.Run
import MxStar.Tree.Parser
import MxStar.Tree.Sample

/-!
What a command line does.

Options are read first, then the program, which is compiled and either run or written out. An error
is reported with what was being done and with its cause, and the status is then one; a command line
that cannot be read gives status two. A program that is run gives the low eight bits of its value as
the status. An overflow in the runtime is not reported as an error but ends the command.
-/
namespace MxStar

def Options.parse? (text : String) : Option Options := do
  match (← Json.parse? text).fields? ["inline"] with
  | some [inline] => return ⟨← Tree.defaulted false Json.bool? inline⟩
  | _ => none

namespace Command

inductive Failure where
  | readConfig (path : String) (cause : FileError)
  | parseConfig (path : String)
  | readTree (path : String) (cause : FileError)
  | parseTree (path : String)
  | declare (cause : CompileError)
  | build (cause : CompileError)
  | interpret (cause : Interp.RunError)
  | generate (cause : CompileError)
  | write (path : String) (cause : FileError)
  deriving Repr

namespace Failure

def context : Failure → String
  | .readConfig path _ => "reading config '" ++ path ++ "'"
  | .parseConfig path => "parsing config '" ++ path ++ "'"
  | .readTree path _ => "reading '" ++ path ++ "'"
  | .parseTree path => "parsing syntax tree '" ++ path ++ "'"
  | .declare _ => "collecting declarations"
  | .build _ => "building IR"
  | .interpret _ => "interpreting IR"
  | .generate _ => "generating assembly"
  | .write path _ => "writing '" ++ path ++ "'"

def cause : Failure → String
  | .readConfig _ e | .readTree _ e | .write _ e => e.message
  | .parseConfig _ => "not a set of options"
  | .parseTree _ => "not a syntax tree"
  | .declare e | .build e | .generate e => e.message
  | .interpret e => e.message

def report (f : Failure) : String :=
  let cause := "\n".intercalate ((f.cause.splitOn "\n").map ("    " ++ ·))
  "Error: " ++ f.context ++ "\n\nCaused by:\n" ++ cause ++ "\n"

end Failure

structure Result where
  status : UInt32 := 0
  stdout : String := ""
  stderr : Option String := none
  deriving DecidableEq, Repr, Inhabited

def Result.ofFailure : Failure → Result
  | .interpret .overflow => { status := 101 }
  | f => { status := 1, stderr := some f.report }

variable {m : Type → Type} [Monad m]

/-- The compile options: those of the configuration, and what the flags add. -/
def loadOptions (files : FileSystem m) (args : Args) : ExceptT Failure m Options := do
  let options : Options ← match args.config with
    | none => pure {}
    | some path =>
      match ← files.read path with
      | .error e => throw (.readConfig path e)
      | .ok text =>
        match Options.parse? text with
        | some options => pure options
        | none => throw (.parseConfig path)
  return if args.inline then { options with inline := true } else options

/-- The program: that of the operand, or a sample. -/
def loadProgram (files : FileSystem m) (args : Args) : ExceptT Failure m Tree.Program := do
  match args.file with
  | none => return .sample
  | some path =>
    match ← files.read path with
    | .error e => throw (.readTree path e)
    | .ok text =>
      match Tree.Program.parse? text with
      | some p => return p
      | none => throw (.parseTree path)

def buildIR (options : Options) (p : Tree.Program) : Except Failure IR.Program := do
  let scope ← (Scope.ofProgram p).mapError .declare
  (compileToIR scope options p).mapError .build

def interpret (args : Args) (p : IR.Program) : Except Failure Result := do
  let outcome ← (Interp.run p (args.stdin.getD "") Interp.defaultFuel).mapError .interpret
  return { status := (outcome.value &&& 255).toUInt64.toUInt32, stdout := outcome.output }

/-- The text that is written out: the register code, the assembly or both. -/
def outputText (args : Args) (p : IR.Program) : Except Failure String := do
  let wantAsm := args.asm || !args.ir
  let ir := if args.ir then p.render ++ (if wantAsm then "\n" else "") else ""
  if wantAsm then
    let (_, listing) ← (assemble IR.PhysReg.allocatable p).mapError .generate
    return ir ++ listing.render
  else return ir

/-- Writes a text to where it is wanted. -/
def deliver (files : FileSystem m) (args : Args) (text : String) : ExceptT Failure m Result := do
  match args.output with
  | none => return { stdout := text }
  | some path =>
    match ← files.write path text with
    | .ok () => return {}
    | .error e => throw (.write path e)

def perform (files : FileSystem m) (args : Args) : ExceptT Failure m Result := do
  let options ← loadOptions files args
  let program ← loadProgram files args
  let ir ← liftExcept (buildIR options program)
  if args.run then liftExcept (interpret args ir)
  else deliver files args (← liftExcept (outputText args ir))
where
  /-- The outcome of a step that uses no files. -/
  liftExcept {α : Type} (x : Except Failure α) : ExceptT Failure m α := ExceptT.mk (pure x)

def runCommand (files : FileSystem m) (words : List String) : m Result := do
  match Args.parse? words with
  | none => return { status := 2 }
  | some args =>
    match ← (perform files args).run with
    | .ok result => return result
    | .error f => return .ofFailure f

end Command

end MxStar
