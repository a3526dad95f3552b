import MxStar.Command.Run

/-!
The command line on the files of the disk.
-/
namespace MxStar.Command

/-- The error with a number, which the system also gives as its negative. -/
def FileError.ofCode? (code : UInt32) : Option FileError :=
  match (min code (0 - code)).toNat with
  | 2 => some .notFound
  | 20 => some .notDirectory
  | 21 => some .isDirectory
  | 36 => some .nameTooLong
  | _ => none

def FileError.ofSystem (e : IO.Error) : FileError :=
  let code? := match e with
    | .noFileOrDirectory _ code _ => some code
    | .inappropriateType _ code _ | .invalidArgument _ code _ => some code
    | _ => none
  (code?.bind ofCode?).getD (.other (toString e))

def FileSystem.disk : FileSystem IO where
  read path := do
    try return .ok (← IO.FS.readFile path)
    catch e => return .error (.ofSystem e)
  write path text := do
    try
      IO.FS.writeFile path text
      return .ok ()
    catch e => return .error (.ofSystem e)

end MxStar.Command

def main (words : List String) : IO UInt32 := do
  let result ← MxStar.Command.runCommand .disk words
  IO.print result.stdout
  if let some text := result.stderr then IO.eprint text
  return result.status
