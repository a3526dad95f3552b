import MxStar.Alloc.Interference

/-!
Colouring the interference graph.

Registers are first taken out of the graph one by one: the lowest one with fewer interferences left
than there are colours, or, if there is none, the likeliest one to spill. They are then put back in
the opposite order, and each is given a colour that no neighbour has, by preference one that makes a
move needless. A register that finds no colour has to be spilled. Registers that hold spilled values
for a moment cannot be spilled again; if one of them finds no colour, its neighbours are spilled.
-/
namespace MxStar.Alloc

open IR

structure Coloring where
  colors : Array (Option PhysReg)
  deriving DecidableEq, Repr, Inhabited

namespace Coloring

def empty (n : Nat) : Coloring := ⟨Array.replicate n none⟩

def get? (c : Coloring) (v : VReg) : Option PhysReg := (c.colors[v]?).join

def set (c : Coloring) (v : VReg) (p : PhysReg) : Coloring := ⟨c.colors.setIfInBounds v (some p)⟩

def toList (c : Coloring) : List (VReg × PhysReg) :=
  c.colors.toList.zipIdx.filterMap fun (p, v) => p.map (v, ·)

end Coloring

/-! ## Taking registers out -/

/-- For each register, the number of its interferences: its neighbours, and the colours that are
forbidden to it. -/
def degrees (g : Interference) (palette : List PhysReg) : Array Nat :=
  (Array.range g.adjacent.size).map fun v =>
    (g.neighbours v).size + ((g.banned v).filter palette.contains).size

def degree (ds : Array Nat) (v : VReg) : Nat := ds[v]?.getD 0

/-- The register with the most interferences, the lowest one of several. -/
def heaviest (ds : Array Nat) (vs : List VReg) : Option VReg :=
  vs.foldl (fun best v => match best with
    | none => some v
    | some b => if degree ds b < degree ds v then some v else some b) none

/-- The register to take out when all have too many interferences: one that may be spilled, if there
is one. -/
def spillCandidate (ds : Array Nat) (remaining : List VReg) (unspillable : SortedSet VReg) :
    Option VReg :=
  (heaviest ds (remaining.filter fun v => !unspillable.contains v)).or (heaviest ds remaining)

def nextNode (k : Nat) (ds : Array Nat) (remaining : List VReg) (unspillable : SortedSet VReg) :
    Option VReg :=
  (remaining.find? fun v => degree ds v < k).or (spillCandidate ds remaining unspillable)

/-- Takes registers out until none is left; the result has the last one first. -/
def simplify (g : Interference) (k : Nat) (unspillable : SortedSet VReg) :
    Nat → Array Nat → List VReg → List VReg → List VReg
  | 0, _, _, stack => stack
  | fuel + 1, ds, remaining, stack =>
    match nextNode k ds remaining unspillable with
    | none => stack
    | some v =>
      let ds := (g.neighbours v).toList.foldl (fun ds n => ds.modify n (· - 1)) ds
      simplify g k unspillable fuel ds (remaining.erase v) (v :: stack)

/-! ## Putting registers back -/

/-- The colour of the other end of a move, if `v` is one of its ends. -/
def partnerColor (c : Coloring) (v : VReg) (pair : VReg × Reg) : Option PhysReg :=
  let color : Reg → Option PhysReg
    | .phys p => some p
    | .virt w => c.get? w
  if pair.1 = v then color pair.2
  else if pair.2 = .virt v then color (.virt pair.1)
  else none

def preferred (g : Interference) (c : Coloring) (v : VReg) (free : List PhysReg) : Option PhysReg :=
  (g.moves.toList.filterMap (partnerColor c v)).find? free.contains

/-- The colours that no neighbour has and that are not forbidden. -/
def freeColors (g : Interference) (palette : List PhysReg) (c : Coloring) (v : VReg) :
    List PhysReg :=
  palette.filter fun p =>
    !(g.banned v).contains p && !(g.neighbours v).toList.any fun n => c.get? n = some p

/-- Puts registers back, with the colours given and the registers to spill so far. -/
def select (g : Interference) (palette : List PhysReg) (unspillable : SortedSet VReg) :
    List VReg → Coloring → SortedSet VReg → Coloring × SortedSet VReg
  | [], c, spills => (c, spills)
  | v :: stack, c, spills =>
    match freeColors g palette c v with
    | [] =>
      let more := if unspillable.contains v then
          (g.neighbours v).toList.filter fun n => !unspillable.contains n
        else [v]
      select g palette unspillable stack c (spills.insertMany more)
    | first :: rest =>
      let pick := (preferred g c v (first :: rest)).getD first
      select g palette unspillable stack (c.set v pick) spills

/-- Colours every register from the palette, or says which registers to spill. -/
def color (g : Interference) (palette : List PhysReg) (unspillable : SortedSet VReg) :
    Except (SortedSet VReg) Coloring :=
  let nodes := g.nodes
  let stack := simplify g palette.length unspillable nodes.length (degrees g palette) nodes []
  let (c, spills) := select g palette unspillable stack (.empty g.adjacent.size) ∅
  if spills.isEmpty then .ok c else .error spills

end MxStar.Alloc
