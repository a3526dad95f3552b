/-!
The words of the command line.

A flag is given at most once, except `-v`, which is counted. An option takes a value: after an
equals sign, attached to its letter, or as the next word, which may then not look like an option
itself. One operand names the program to compile. After `--` every word is an operand. Paths may not
be empty.
-/
namespace MxStar.Command

inductive Opt where
  | output | config | stdin
  deriving DecidableEq, Repr

inductive Flag where
  | ir | asm | inline | run | verbose
  deriving DecidableEq, Repr

structure Args where
  file : Option String := none
  output : Option String := none
  /-- A file with compile options. -/
  config : Option String := none
  /-- The input of a program that is run. -/
  stdin : Option String := none
  ir : Bool := false
  asm : Bool := false
  inline : Bool := false
  run : Bool := false
  /-- How often `-v` is given. -/
  verbose : Nat := 0
  deriving DecidableEq, Repr, Inhabited

namespace Args

def newPath (old : Option String) (path : String) : Option String :=
  if old.isSome || path.isEmpty then none else some path

def setFlag (a : Args) : Flag → Option Args
  | .ir => if a.ir then none else some { a with ir := true }
  | .asm => if a.asm then none else some { a with asm := true }
  | .inline => if a.inline then none else some { a with inline := true }
  | .run => if a.run then none else some { a with run := true }
  | .verbose => some { a with verbose := a.verbose + 1 }

def setOption (a : Args) (o : Opt) (value : String) : Option Args :=
  match o with
  | .output => (newPath a.output value).map fun path => { a with output := some path }
  | .config => (newPath a.config value).map fun path => { a with config := some path }
  | .stdin => if a.stdin.isSome then none else some { a with stdin := some value }

def setFile (a : Args) (path : String) : Option Args :=
  (newPath a.file path).map fun path => { a with file := some path }

end Args

inductive Expected where
  /-- An option or an operand. -/
  | any
  /-- The value of an option. -/
  | value (o : Opt)
  /-- An operand, whatever it looks like. -/
  | operand
  deriving DecidableEq, Repr

def longFlag? (name : List Char) : Option Flag :=
  [("ir".toList, Flag.ir), ("asm".toList, .asm), ("inline".toList, .inline), ("run".toList, .run),
    ("verbose".toList, .verbose)].lookup name

def longOpt? (name : List Char) : Option Opt :=
  [("output".toList, Opt.output), ("config".toList, .config), ("stdin".toList, .stdin)].lookup name

/-- Takes a word that starts with two dashes. -/
def acceptLong (a : Args) (word : List Char) : Option (Args × Expected) :=
  let name := word.takeWhile (· ≠ '=')
  match word.dropWhile (· ≠ '='), longFlag? name, longOpt? name with
  | [], some f, _ => (a.setFlag f).map (·, .any)
  | [], none, some o => some (a, .value o)
  | _ :: value, none, some o => (a.setOption o (String.ofList value)).map (·, .any)
  | _, _, _ => none

/-- Takes the letters of a word that starts with one dash. -/
def acceptShort (a : Args) : List Char → Option (Args × Expected)
  | [] => some (a, .any)
  | 'v' :: rest => (a.setFlag .verbose).bind (acceptShort · rest)
  | ['o'] => some (a, .value .output)
  | 'o' :: '=' :: value => (a.setOption .output (String.ofList value)).map (·, .any)
  | 'o' :: value => (a.setOption .output (String.ofList value)).map (·, .any)
  | _ => none

/-- Takes a word where an option or an operand is expected. -/
def accept (a : Args) (word : String) : Option (Args × Expected) :=
  match word.toList with
  | ['-', '-'] => some (a, .operand)
  | '-' :: '-' :: long => acceptLong a long
  | '-' :: c :: short => acceptShort a (c :: short)
  | _ => (a.setFile word).map (·, .any)

/-- Whether a word looks like an option. A dash alone does not. -/
def looksLikeOption (word : String) : Bool :=
  match word.toList with
  | '-' :: _ :: _ => true
  | _ => false

def Args.readWords : Args → Expected → List String → Option Args
  | _, .value _, [] => none
  | a, _, [] => some a
  | a, .value o, word :: rest =>
    if looksLikeOption word then none
    else (a.setOption o word).bind fun a => a.readWords .any rest
  | a, .operand, word :: rest => (a.setFile word).bind fun a => a.readWords .operand rest
  | a, .any, word :: rest => (accept a word).bind fun (a, expected) => a.readWords expected rest

def Args.parse? (words : List String) : Option Args := Args.readWords {} .any words

end MxStar.Command
