import MxStar.Asm.Frame

/-!
Cleaning up a listing.

Each stage looks at neighbouring lines or at the shape of one routine. Moves that do nothing go,
loads of what was just stored become moves, jumps to the next line go, a leaf that needs no frame
loses it and returns in place, and labels of blocks that nothing jumps to go.
-/
namespace MxStar.Asm

open IR (PhysReg)

/-! ## Neighbouring lines -/

inductive Change where
  | keep
  | drop
  | replace (i : Instr)
  deriving DecidableEq, Repr

def lineChange (change : Instr → Instr → Change) : Line → Line → Change
  | .instr a _, .instr b _ => change a b
  | _, _ => .keep

/-- Goes through the lines after `a`. A line that is dropped leaves `a` next to the one after it. -/
def changeAfter (change : Instr → Instr → Change) (a : Line) : List Line → List Line
  | [] => [a]
  | b :: rest =>
    match lineChange change a b with
    | .keep => a :: changeAfter change b rest
    | .drop => changeAfter change a rest
    | .replace i => a :: changeAfter change (plain i) rest

/-- Changes the second instruction of each neighbouring pair. -/
def changePairs (change : Instr → Instr → Change) : List Line → List Line
  | [] => []
  | a :: rest => changeAfter change a rest

def isSelfMove : Instr → Bool
  | .mov (.reg d) (.reg s) => d = s
  | _ => false

/-- A register need not be moved back to where it came from. -/
def inverseMove : Instr → Instr → Change
  | .mov (.reg a) (.reg b), .mov (.reg c) (.reg d) => if a = d && b = c then .drop else .keep
  | _, _ => .keep

/-- A word just stored is still in its register, and a word just loaded need not be stored again. -/
def storeReload : Instr → Instr → Change
  | .mov (.mem m) (.reg r), .mov (.reg s) (.mem n) =>
    if m = n && !m.uses r then if r = s then .drop else .replace (.mov (.reg s) (.reg r)) else .keep
  | .mov (.reg r) (.mem m), .mov (.mem n) (.reg s) =>
    if m = n && r = s && !m.uses r then .drop else .keep
  | _, _ => .keep

/-! ## Jumps -/

/-- Whether a line jumps to the line that is next. -/
def jumpsToNext (a : Line) (next : Option Line) : Bool :=
  match a.instr?.bind Instr.jumpTarget?, next with
  | some target, some (.label name) => target = name
  | _, _ => false

/-- Drops the jumps to the next line. -/
def dropJumps : List Line → List Line
  | [] => []
  | a :: rest => if jumpsToNext a rest.head? then dropJumps rest else a :: dropJumps rest

/-- Drops the jumps of a body to the next line, and its last jump if that goes to the epilogue. -/
def fallThrough (r : Routine) : Routine :=
  let body := dropJumps r.body
  let last := body.getLast?.any fun a => jumpsToNext a r.epilogue.head?
  { r with body := if last then body.dropLast else body }

/-! ## Frames -/

/-- Whether a routine can do without its frame. -/
def isFrameless (r : Routine) : Bool :=
  r.isLeaf && r.frameSize = 0 && r.saved.isEmpty &&
    !(instrsOf r.body).any fun i => i.uses .rbp || i.uses .rsp

def bareReturn : List Line := [.label epilogueLabel, plain .ret]

def omitFrame (r : Routine) : Routine :=
  if isFrameless r then { r with prologue := [], epilogue := bareReturn } else r

def returnInPlace (a : Line) : Line :=
  if a.instr?.bind Instr.jumpTarget? = some epilogueLabel then plain .ret else a

/-- Returns in place where the epilogue does nothing else. -/
def inlineReturns (r : Routine) : Routine :=
  if r.epilogue.map (fun a => (a.label?, a.instr?)) = bareReturn.map fun a => (a.label?, a.instr?)
  then { r with body := r.body.map returnInPlace, epilogue := r.epilogue.tail }
  else r

/-! ## Labels -/

/-- Whether a line is of use: all are, except the labels of blocks that nothing jumps to. -/
def isUsed (targets : List String) : Line → Bool
  | .label name => !blockMark.toList.isPrefixOf name.toList || targets.contains name
  | .instr .. => true

def dropLabels (body : List Line) : List Line :=
  body.filter (isUsed ((instrsOf body).filterMap Instr.branchTarget?))

/-! ## All together -/

def cleanMoves (body : List Line) : List Line :=
  changePairs storeReload (changePairs inverseMove (body.filter fun a => !a.instr?.any isSelfMove))

def cleanRoutine (r : Routine) : Routine :=
  let r := inlineReturns (omitFrame (fallThrough { r with body := cleanMoves r.body }))
  { r with body := dropLabels r.body }

def clean (l : Listing) : Listing := { l with routines := l.routines.map cleanRoutine }

end MxStar.Asm
