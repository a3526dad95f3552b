import MxStar.Interp.Memory
import MxStar.Text.Blank
import MxStar.Text.Utf8

/-!
The part of a running program that all its functions share: memory, the physical registers, the
addresses of the statics, the input that is left and the output so far. Here are also the routines
of the runtime.
-/
namespace MxStar.Interp

open IR

/-- The physical registers; a register may be undefined. -/
structure RegFile where
  cells : Vector (Option Word) 16
  deriving Inhabited

namespace RegFile

def empty : RegFile := ⟨Vector.replicate 16 none⟩

def get (r : RegFile) (p : PhysReg) : Option Word := r.cells.get p.index

def set (r : RegFile) (p : PhysReg) (v : Option Word) : RegFile :=
  ⟨r.cells.set p.index.val v p.index.isLt⟩

def clear (r : RegFile) (ps : List PhysReg) : RegFile := ps.foldl (fun r p => r.set p none) r

def setMany (r : RegFile) (vs : List (PhysReg × Option Word)) : RegFile :=
  vs.foldl (fun r (p, v) => r.set p v) r

end RegFile

/-- The state that all functions share. -/
structure Machine where
  memory : Memory
  regs : RegFile
  statics : Array Word
  input : List String
  output : String
  /-- Whether plain arithmetic is checked for overflow. -/
  checks : Bool
  deriving Inhabited

namespace Machine

def placeStatic (memory : Memory) (s : Static) : Word × Memory :=
  match s.init with
  | .word => memory.alloc 8
  | .text t => memory.allocText (Text.Utf8.encode t)

/-- Places every static and reads the input as tokens. -/
def start (p : Program) (input : String) (checks : Bool := true) : Machine :=
  let (statics, memory) := p.statics.foldl
    (fun (addresses, memory) s =>
      let (a, memory) := placeStatic memory s
      (addresses.push a, memory))
    ((#[] : Array Word), Memory.initial)
  { memory := memory, regs := .empty, statics := statics, input := Text.tokens input, output := ""
    checks := checks }

def staticAddress (m : Machine) (s : StaticId) : Except RunError Word :=
  match m.statics[s]? with
  | some a => .ok a
  | none => .error (.unsupported (.static s))

def print (m : Machine) (s : String) : Machine := { m with output := m.output ++ s }

def alloc (m : Machine) (n : Nat) : Word × Machine :=
  let (a, memory) := m.memory.alloc n
  (a, { m with memory := memory })

def allocText (m : Machine) (s : List UInt8) : Word × Machine :=
  let (a, memory) := m.memory.allocText s
  (a, { m with memory := memory })

def readText (m : Machine) (address : Word) : Except RunError (List UInt8) :=
  m.memory.readText m.checks address

/-- The word that plain arithmetic gives. -/
def plain (m : Machine) (exact : Int) : Except RunError Word := plainWord m.checks exact

/-- The address of a place in the string at an address. -/
def textAddress (m : Machine) (address k : Word) : Except RunError Word := do
  m.plain ((← m.plain (address.toInt + 8)).toInt + k.toInt)

/-- Takes a token off the input; the input that is used up gives none. -/
def takeToken (m : Machine) : Option String × Machine :=
  match m.input with
  | [] => (none, m)
  | t :: rest => (some t, { m with input := rest })

/-- The order of two byte strings as a number below, at or above zero. -/
def compareBytes : List UInt8 → List UInt8 → Word
  | [], [] => 0
  | [], _ :: _ => -1
  | _ :: _, [] => 1
  | a :: as, b :: bs => if a < b then -1 else if b < a then 1 else compareBytes as bs

/-- Runs a routine of the runtime. Arguments that are missing are zero. -/
def callBuiltin (m : Machine) (b : Builtin) (args : List Word) : Except RunError (Word × Machine) :=
  let arg (i : Nat) : Word := args.getD i 0
  match b with
  | .malloc =>
    if (arg 0).toInt < 0 then .error (.outOfBounds (arg 0)) else .ok (m.alloc (arg 0).toInt.toNat)
  | .print => do
    let s ← m.readText (arg 0)
    return (0, m.print (Text.Utf8.decode s))
  | .println => do
    let s ← m.readText (arg 0)
    return (0, m.print (Text.Utf8.decode s ++ "\n"))
  | .printInt => .ok (0, m.print (Text.Decimal.render (arg 0)))
  | .printlnInt => .ok (0, m.print (Text.Decimal.render (arg 0) ++ "\n"))
  | .getString =>
    let (t, m) := m.takeToken
    .ok (m.allocText (Text.Utf8.encode (t.getD "")))
  | .getInt =>
    let (t, m) := m.takeToken
    .ok ((t.bind Text.Decimal.parse?).getD 0, m)
  | .toString => .ok (m.allocText (Text.Utf8.encode (Text.Decimal.render (arg 0))))
  | .stringConcat => do
    let s ← m.readText (arg 0)
    let t ← m.readText (arg 1)
    return m.allocText (s ++ t)
  | .stringCompare => do
    let s ← m.readText (arg 0)
    let t ← m.readText (arg 1)
    return (compareBytes s t, m)
  | .stringSubstring => do
    let s ← m.readText (arg 0)
    let lo := (arg 1).toInt
    let hi := (arg 2).toInt
    if lo < 0 || hi < lo || s.length < hi then throw (.outOfBounds (← m.textAddress (arg 0) (arg 2)))
    return m.allocText ((s.take hi.toNat).drop lo.toNat)
  | .stringParseInt => do
    let s ← m.readText (arg 0)
    return (← m.plain (Text.Decimal.leadingExact s), m)
  | .stringOrd => do
    let s ← m.readText (arg 0)
    -- The address is there before it is known whether it has to be reported.
    let address ← m.textAddress (arg 0) (arg 1)
    let k := (arg 1).toInt
    match if k < 0 then none else s[k.toNat]? with
    | some c => return (Int64.ofNat c.toNat, m)
    | none => throw (.outOfBounds address)

end Machine

end MxStar.Interp
