import MxStar.Asm.Instr
import MxStar.IR.Program
import MxStar.Text.Utf8

/-!
Assembly listings.

A listing holds routines and data. A routine keeps its body apart from the code that sets up its
frame and the code that takes it down, so that later stages can look at the frame. `Listing.lines`
is the text in the syntax of NASM.
-/
namespace MxStar.Asm

open IR (PhysReg StaticInit)

inductive Line where
  | label (name : String)
  | instr (i : Instr) (comment : Option String := none)
  deriving DecidableEq, Repr, Inhabited

def commentColumn : Nat := 36

namespace Line

def instr? : Line → Option Instr
  | .label _ => none
  | .instr i _ => some i

def label? : Line → Option String
  | .label name => some name
  | .instr .. => none

/-- The text of a line. A comment stands at least two columns after its instruction. -/
def render : Line → String
  | .label name => name ++ ":"
  | .instr i none => i.render
  | .instr i (some comment) =>
    let gap := max (commentColumn - i.render.length) 2
    i.render ++ String.ofList (List.replicate gap ' ') ++ "; " ++ comment

end Line

structure Routine where
  name : String
  prologue : List Line
  body : List Line
  epilogue : List Line
  /-- The number of bytes below the frame pointer that hold slots and padding. -/
  frameSize : Nat
  /-- The registers that the prologue saves. -/
  saved : List PhysReg
  isLeaf : Bool
  deriving DecidableEq, Repr, Inhabited

def Routine.code (r : Routine) : List Line := r.prologue ++ r.body ++ r.epilogue

def Routine.lines (r : Routine) : List String := (Line.label r.name :: r.code).map Line.render

def quad (w : IR.Word) : String := "dq " ++ Text.Decimal.render w

def bytes (bs : List UInt8) : String := "db " ++ ", ".intercalate (bs.map fun b => b.toNat.repr)

structure Datum where
  label : String
  init : StaticInit
  deriving DecidableEq, Repr, Inhabited

/-- The text of a piece of data: a zero word, or the length of a string with its bytes and a zero.
-/
def Datum.lines (d : Datum) : List String :=
  match d.init with
  | .word => ["align 8", d.label ++ ": " ++ quad 0]
  | .text s =>
    ["align 8", d.label ++ ": " ++ quad (Int64.ofNat s.utf8ByteSize),
      "    " ++ bytes (Text.Utf8.encode s ++ [0])]

structure Listing where
  /-- The symbol that the linker starts at. -/
  entry : Option String
  /-- The symbols that other files define. -/
  externs : List String
  routines : List Routine
  data : List Datum
  deriving DecidableEq, Repr, Inhabited

namespace Listing

def header (l : Listing) : List String :=
  "default rel" :: (l.entry.map ("global " ++ ·)).toList ++ l.externs.map ("extern " ++ ·)

def dataLines (l : Listing) : List String :=
  if l.data.isEmpty then [] else "" :: "section .data" :: l.data.flatMap Datum.lines

def lines (l : Listing) : List String :=
  l.header ++ ["", "section .text"] ++ l.routines.flatMap (fun r => "" :: r.lines) ++ l.dataLines

def render (l : Listing) : String := "\n".intercalate l.lines ++ "\n"

end Listing

end MxStar.Asm
