import MxStar.Interp.Error

/-!
Memory of a running program.

Memory is a sequence of bytes that only grows. Its first word is never handed out, so that reading
through the null reference is out of bounds. Words are stored with the lowest byte first. A string
is the word of its length, its bytes, and a zero byte.

Addresses are computed with plain arithmetic, whose result has to fit its type. Whether a build checks
for this is a parameter; one that does not has the result modulo the size of a word.
-/
namespace MxStar.Interp

open IR

structure Memory where
  bytes : Array UInt8
  deriving DecidableEq, Repr, Inhabited

def wordBytes (w : Word) : List UInt8 :=
  (List.range 8).map fun i => (w.toUInt64 >>> UInt64.ofNat (8 * i)).toUInt8

def wordOfBytes (bs : List UInt8) : Word :=
  (bs.foldr (fun (b : UInt8) (acc : UInt64) => acc * 256 + b.toUInt64) 0).toInt64

/-- The word that plain arithmetic gives. -/
def plainWord (checks : Bool) (exact : Int) : Except RunError Word :=
  let w := Int64.ofInt exact
  if checks && w.toInt != exact then .error .overflow else .ok w

/-- The unsigned word that plain arithmetic gives. All those that are computed fit, so that it does
not matter here what a build checks for. -/
def plainSize (exact : Nat) : Except RunError Nat :=
  if UInt64.size ≤ exact then .error .overflow else .ok exact

namespace Memory

def initial : Memory := ⟨Array.replicate 8 0⟩

def size (m : Memory) : Nat := m.bytes.size

def nextAddress (m : Memory) : Nat := (m.size + 7) / 8 * 8

def padding (m : Memory) : Nat := m.nextAddress - m.size

/-- Places a block of zeros of at least one word. -/
def alloc (m : Memory) (n : Nat) : Word × Memory :=
  (Int64.ofNat m.nextAddress, ⟨m.bytes ++ Array.replicate (m.padding + max n 8) 0⟩)

def allocText (m : Memory) (s : List UInt8) : Word × Memory :=
  let text := wordBytes (Int64.ofNat s.length) ++ s ++ [0]
  (Int64.ofNat m.nextAddress, ⟨m.bytes ++ (List.replicate m.padding 0 ++ text).toArray⟩)

/-- The place of `len` bytes at an address, if all of them may be accessed. -/
def place (m : Memory) (address : Word) (len : Nat) : Except RunError Nat := do
  let a := address.toInt
  if a < 8 then throw (.outOfBounds address)
  let stop ← plainSize (a.toNat + len)
  if m.size < stop then throw (.outOfBounds address)
  return a.toNat

def slice (m : Memory) (start len : Nat) : List UInt8 :=
  (m.bytes.extract start (start + len)).toList

def writeFrom (bytes : Array UInt8) (start : Nat) : List UInt8 → Array UInt8
  | [] => bytes
  | b :: bs => writeFrom (bytes.setIfInBounds start b) (start + 1) bs

def readWord (m : Memory) (address : Word) : Except RunError Word := do
  return wordOfBytes (m.slice (← m.place address 8) 8)

def writeWord (m : Memory) (address w : Word) : Except RunError Memory := do
  return ⟨writeFrom m.bytes (← m.place address 8) (wordBytes w)⟩

/-- The bytes of the string at an address. -/
def readText (m : Memory) (checks : Bool) (address : Word) : Except RunError (List UInt8) := do
  let len := (← m.readWord address).toInt
  if len < 0 then throw (.outOfBounds address)
  let start ← plainWord checks (address.toInt + 8)
  return m.slice (← m.place start len.toNat) len.toNat

end Memory

end MxStar.Interp
