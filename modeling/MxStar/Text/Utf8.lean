/-!
Text as bytes and bytes as text.

`encode` writes UTF-8 and `decode` reads it. Where the bytes are not UTF-8, each maximal run of
bytes that could have begun a character becomes one replacement character, and reading goes on at
the byte that did not fit. The decoder is a machine that takes one byte at a time: between
characters, or inside one with the range of bytes that may come next.
-/
namespace MxStar.Text.Utf8

def encode (s : String) : List UInt8 := s.toList.flatMap String.utf8EncodeChar

def replacement : Char := Char.ofNat 0xfffd

inductive State where
  /-- Between characters. -/
  | start
  /-- Inside a character: `more` bytes follow after the next one, which lies between `low` and
  `high`; `value` is made of the bits read so far. -/
  | inside (more : Nat) (low high : UInt8) (value : Nat)
  deriving DecidableEq, Repr

/-- The state after the first byte of a character that takes several, if it is one. -/
def lead (b : UInt8) : Option State :=
  if 0xc2 ≤ b && b ≤ 0xdf then some (.inside 0 0x80 0xbf (b.toNat - 0xc0))
  else if b == 0xe0 then some (.inside 1 0xa0 0xbf 0)
  else if b == 0xed then some (.inside 1 0x80 0x9f 0xd)
  else if 0xe1 ≤ b && b ≤ 0xef then some (.inside 1 0x80 0xbf (b.toNat - 0xe0))
  else if b == 0xf0 then some (.inside 2 0x90 0xbf 0)
  else if b == 0xf4 then some (.inside 2 0x80 0x8f 4)
  else if 0xf1 ≤ b && b ≤ 0xf3 then some (.inside 2 0x80 0xbf (b.toNat - 0xf0))
  else none

/-- A decoder: its state and the characters read, last first. -/
structure Decoder where
  state : State := .start
  read : List Char := []
  deriving DecidableEq, Repr

def Decoder.begin (read : List Char) (b : UInt8) : Decoder :=
  if b < 0x80 then ⟨.start, Char.ofNat b.toNat :: read⟩
  else match lead b with
    | some s => ⟨s, read⟩
    | none => ⟨.start, replacement :: read⟩

def Decoder.push (d : Decoder) (b : UInt8) : Decoder :=
  match d.state with
  | .start => .begin d.read b
  | .inside more low high value =>
    if low ≤ b && b ≤ high then
      let value := value * 64 + (b.toNat - 0x80)
      match more with
      | 0 => ⟨.start, Char.ofNat value :: d.read⟩
      | more + 1 => ⟨.inside more 0x80 0xbf value, d.read⟩
    else .begin (replacement :: d.read) b

/-- The text read; a character left unfinished is replaced. -/
def Decoder.finish (d : Decoder) : String :=
  match d.state with
  | .start => String.ofList d.read.reverse
  | .inside .. => String.ofList (replacement :: d.read).reverse

def decode (bytes : List UInt8) : String :=
  (bytes.foldl Decoder.push {}).finish

end MxStar.Text.Utf8
