import MxStar.Alloc.Expansion
import MxStar.SortedSet

/-!
Spilling registers to the frame.

Each spilled register gets a slot of the frame. A move to or from it becomes a store or a load where
the machine can do that in one instruction. Every other instruction reads it through a register that
is loaded just before and writes it through one that is stored just after. These registers live for
one instruction only.
-/
namespace MxStar.Alloc

open IR

/-- The slots of the spilled registers, the first of which is `base`, in ascending order. -/
structure Slots where
  base : SlotId
  spilled : SortedSet VReg
  deriving DecidableEq, Repr, Inhabited

namespace Slots

def get? (s : Slots) (v : VReg) : Option SlotId := (s.spilled.toList.idxOf? v).map (s.base + ·)

def ofOperand? (s : Slots) (v : Operand) : Option SlotId := v.vreg?.bind s.get?

end Slots

/-- Whether one instruction can store the value in a slot. -/
def storable (slots : Slots) : Operand → Bool
  | .vreg v => (slots.get? v).isNone
  | .phys _ => true
  | .imm w => fitsImm32 w
  | .static _ => false

def spilledAmong (slots : Slots) (vs : List Operand) : List VReg :=
  (vs.filterMap fun v => v.vreg?.filter fun r => (slots.get? r).isSome).eraseDups

/-- An instruction whose spilled operands go through registers of their own. -/
def spillGeneral (slots : Slots) (i : Instr) : Expand Unit := do
  let temps ← (spilledAmong slots i.operands).mapM fun v => do return (v, ← fresh "spill")
  let inOrder := (SortedSet.ofList (temps.map (·.1))).toList
  let tempOf (v : VReg) : VReg := (temps.lookup v).getD v
  let slotOf (v : VReg) : Address := .slot ((slots.get? v).getD 0)
  inOrder.forM fun v => do
    if i.sources.contains (.vreg v) then emit (.load (.vreg (tempOf v)) (slotOf v))
  emit (i.mapOperands fun
    | .vreg v => .vreg (tempOf v)
    | v => v)
  inOrder.forM fun v => do
    if i.dst? = some (.vreg v) then emit (.store (slotOf v) (.vreg (tempOf v)))

/-- An instruction without spilled operands. -/
def spillInstr (slots : Slots) (i : Instr) : Expand Unit :=
  match i with
  | .move dst src =>
    match slots.ofOperand? dst, slots.ofOperand? src with
    | some s, none =>
      if storable slots src then emit (.store (.slot s) src) else spillGeneral slots i
    | none, some s => emit (.load dst (.slot s))
    | _, _ => spillGeneral slots i
  | i => spillGeneral slots i

/-- Spills registers. The result says also which registers may not be spilled from now on: those
before and the ones taken here. -/
def spillRegs (f : Func) (spilled unspillable : SortedSet VReg) : Func × SortedSet VReg :=
  let slots : Slots := ⟨f.slots, spilled⟩
  let g := expandFunc (spillInstr slots) { f with slots := f.slots + spilled.size }
  let taken := (List.range g.vregCount).drop f.vregCount
  (g, unspillable.insertMany taken)

end MxStar.Alloc
