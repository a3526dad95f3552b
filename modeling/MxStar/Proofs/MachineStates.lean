import MxStar.Asm.Frame
import MxStar.Proofs.Actions
import MxStar.Proofs.Processor
import MxStar.Proofs.Registers

/-!
Machine states that stand for states of the interpreter.

The machine has one memory where the interpreter has several: the bytes of the program, the slots of the
running function, its arguments on the stack, and the words pushed for the next call. An `Area` says where
these are, `Fits` that they have room there, and `Agrees` that a machine state holds what a state of the
interpreter holds.
-/
namespace MxStar.Interp

open IR

/-! ## Addresses apart -/

theorem apart_of_le {a b : Word} (h : position a + 8 ≤ position b) (hb : position b + 8 ≤ 2 ^ 64) :
    Apart a b := by
  have ha := position_lt a
  constructor <;> rw [distance_eq] <;> omega

theorem Store.write_of_le {m : Store} {a b w : Word} (h : 8 ≤ distance a b) :
    m.write a w b = m b := by
  rw [Store.write, if_neg (Nat.not_lt.2 h)]

/-! ## Words of the program's memory -/

def Store.Holds (s : Store) (m : Memory) : Prop :=
  ∀ a : Word, 8 ≤ position a → ∀ b, m.bytes[position a]? = some b → s a = b

namespace Store.Holds

variable {s : Store} {m m' : Memory} {a w : Word}

theorem read (h : s.Holds m) (hr : m.readWord a = .ok w) : s.read a = w := by
  obtain ⟨hplace, hword⟩ := Memory.readWord_eq_ok.1 hr
  obtain ⟨hlow, hhigh, -, hlt⟩ := Memory.place_eq_ok hplace
  have hbytes : s.bytes a = wordBytes w := by
    apply List.ext_getElem
    · rw [length_bytes, length_wordBytes]
    · intro k hk hk'
      have hk8 : k < 8 := by rwa [length_bytes] at hk
      have hpos : position (a + Int64.ofNat k) = position a + k := by
        rw [position_add, position_ofNat]
        omega
      rw [getElem_bytes]
      apply h _ (by omega)
      rw [hpos, hword k hk8, List.getElem?_eq_getElem hk']
  rw [Store.read, hbytes, wordOfBytes_wordBytes]

theorem write (h : s.Holds m) (hw : m.writeWord a w = .ok m') :
    m'.size = m.size ∧ (s.write a w).Holds m' ∧ 8 ≤ position a ∧ position a + 8 ≤ m.size := by
  obtain ⟨n, hn, -⟩ := Memory.writeWord_eq_ok hw
  obtain ⟨hlow, hhigh, rfl, hlt⟩ := Memory.place_eq_ok hn
  refine ⟨Memory.size_writeWord hw, ?_, hlow, hhigh⟩
  intro b hb byte hbyte
  have hlt' := position_lt b
  rw [Memory.getElem?_writeWord hw] at hbyte
  rw [Store.write]
  split at hbyte
  · next hcovers =>
    obtain ⟨hle, hlt⟩ := hcovers
    have hd : distance a b = position b - position a := by
      rw [distance_eq]
      omega
    rw [if_pos (by omega), hd, List.getD_eq_getElem?_getD, hbyte]
    rfl
  · next hcovers =>
    rw [Covers] at hcovers
    rw [distance_eq, if_neg (by omega)]
    exact h b hb byte hbyte

theorem write_above (h : s.Holds m) (ha : m.size ≤ position a) (ha' : position a + 8 ≤ 2 ^ 64) :
    (s.write a w).Holds m := by
  intro b hb byte hbyte
  have hin : position b < m.size := (Array.getElem?_eq_some_iff.1 hbyte).1
  rw [Store.write_of_le]
  · exact h b hb byte hbyte
  · rw [distance_eq]
    omega

end Store.Holds

end MxStar.Interp

namespace MxStar.Asm

open IR (Word PhysReg SlotId)
open Interp List

variable {k : Nat} {w : Word}

/-! ## Where things are -/

/-- Where the parts of memory are while a function runs. The bytes of the program are below `floor`.
The stack pointer is at `top` when nothing is pushed, and the frame pointer at `frame`. -/
structure Area where
  floor : Nat
  top : Nat
  frame : Nat

namespace Area

variable (area : Area)

def slot (k : SlotId) : Word := Int64.ofNat (area.frame - 8 * (k + 1))

def incoming (k : Nat) : Word := Int64.ofNat (area.frame + 16 + 8 * k)

def pushed (k : Nat) : Word := Int64.ofNat (area.top - 8 * (k + 1))

def lowered (n : Nat) : Area := { area with top := area.top - 8 * n }

end Area

/-- The parts of memory have room in an area and do not touch. -/
structure Fits (area : Area) (m : Machine) (fr : Frame) : Prop where
  memory : m.memory.size ≤ area.floor
  pushed : area.floor + 8 * fr.pushed.length ≤ area.top
  slots : area.top + 8 * fr.slots.size ≤ area.frame
  incoming : area.frame + 16 + 8 * fr.incoming.length ≤ 2 ^ 64

/-- A machine state holds what a state of the interpreter holds. Registers that are undefined may hold
anything, and the two pointers are the machine's own. -/
structure Agrees (env : Env) (syms : Symbols) (area : Area) (m : Machine) (fr : Frame) (s : State) :
    Prop where
  regs : ∀ q w, q ≠ .rsp → q ≠ .rbp → m.regs.get q = some w → s.regs q = w
  stack : position (s.regs .rsp) + 8 * fr.pushed.length = area.top
  frame : position (s.regs .rbp) = area.frame
  slots : ∀ k w, fr.slot k = some w → s.memory.read (area.slot k) = w
  incoming : ∀ k w, fr.incoming[k]? = some w → s.memory.read (area.incoming k) = w
  pushed : ∀ k w, fr.pushed.reverse[k]? = some w → s.memory.read (area.pushed k) = w
  memory : s.memory.Holds m.memory
  statics : ∀ (k : Nat) name w, syms.statics[k]? = some name → m.statics[k]? = some w → env.label name = w

section Following

variable {env : Env} {syms : Symbols} {area : Area} {m : Machine} {fr : Frame} {s t : State}

/-! ## Places -/

theorem lt_size_of_slot (h : fr.slot k = some w) : k < fr.slots.size :=
  (Array.getElem?_eq_some_iff.1 (Option.join_eq_some_iff.1 h)).1

theorem Fits.position_slot (h : Fits area m fr) (hk : k < fr.slots.size) :
    position (area.slot k) + 8 * (k + 1) = area.frame := by
  have hslots := h.slots
  have hincoming := h.incoming
  rw [Area.slot, position_ofNat]
  omega

theorem Fits.position_incoming (h : Fits area m fr) (hk : k < fr.incoming.length) :
    position (area.incoming k) = area.frame + 16 + 8 * k := by
  have hincoming := h.incoming
  rw [Area.incoming, position_ofNat]
  omega

theorem Fits.position_pushed (h : Fits area m fr) (hk : k < fr.pushed.length) :
    position (area.pushed k) + 8 * (k + 1) = area.top := by
  have hpushed := h.pushed
  have hslots := h.slots
  have hincoming := h.incoming
  rw [Area.pushed, position_ofNat]
  omega

theorem Agrees.address_slotPlace (h : Agrees env syms area m fr s) (hfit : Fits area m fr)
    (hk : k < fr.slots.size) : (slotPlace k).address env s = area.slot k := by
  have hslot := hfit.position_slot hk
  have hframe := h.frame
  have hlt := position_lt (s.regs .rbp)
  have hdisp : -(Int64.ofNat k + 1) * 8 = -Int64.ofNat (8 * (k + 1)) := by
    rw [Nat.mul_comm, Int64.ofNat_mul, Int64.ofNat_add, Int64.neg_mul]
    rfl
  apply position_inj
  show position (s.regs .rbp + -(Int64.ofNat k + 1) * 8) = _
  rw [hdisp, ← Int64.sub_eq_add_neg, position_sub, position_ofNat]
  omega

theorem Agrees.address_incomingPlace (h : Agrees env syms area m fr s) (hfit : Fits area m fr)
    (hk : k < fr.incoming.length) : (incomingPlace k).address env s = area.incoming k := by
  have hincoming := hfit.position_incoming hk
  have hroom := hfit.incoming
  have hframe := h.frame
  have hdisp : 16 + Int64.ofNat k * 8 = Int64.ofNat (16 + 8 * k) := by
    rw [Nat.mul_comm, Int64.ofNat_add, Int64.ofNat_mul]
    rfl
  apply position_inj
  show position (s.regs .rbp + (16 + Int64.ofNat k * 8)) = _
  rw [hdisp, position_add, position_ofNat]
  omega

/-! ## Writes -/

/-- A state agrees with what another one with the same registers and memory agrees with. -/
theorem Agrees.congr (h : Agrees env syms area m fr s) (hregs : t.regs = s.regs)
    (hmem : t.memory = s.memory) : Agrees env syms area m fr t := by
  obtain ⟨regs, flags, memory⟩ := t
  cases hregs
  cases hmem
  exact ⟨h.regs, h.stack, h.frame, h.slots, h.incoming, h.pushed, h.memory, h.statics⟩

theorem Agrees.withCode (h : Agrees env syms area m fr s) (b : IR.BlockId) (code : List IR.Instr) :
    Agrees env syms area m { fr with block := b, code := code } s :=
  ⟨h.regs, h.stack, h.frame, h.slots, h.incoming, h.pushed, h.memory, h.statics⟩

theorem Fits.withCode (h : Fits area m fr) (code : List IR.Instr) :
    Fits area m { fr with code := code } := ⟨h.memory, h.pushed, h.slots, h.incoming⟩

theorem Agrees.write (h : Agrees env syms area m fr s) {q : PhysReg} (hq : q ≠ .rsp ∧ q ≠ .rbp)
    (hkept : ∀ x, x ≠ q → t.regs x = s.regs x) (hw : t.regs q = w) (hmem : t.memory = s.memory) :
    Agrees env syms area { m with regs := m.regs.set q (some w) } fr t where
  regs := by
    intro x v hx hx' hv
    by_cases hxq : x = q
    · subst hxq
      rw [RegFile.get_set, if_pos rfl] at hv
      rw [hw, Option.some.inj hv]
    · rw [RegFile.get_set, if_neg (Ne.symm hxq)] at hv
      rw [hkept x hxq]
      exact h.regs x v hx hx' hv
  stack := by
    rw [hkept _ hq.1.symm]
    exact h.stack
  frame := by
    rw [hkept _ hq.2.symm]
    exact h.frame
  slots := hmem ▸ h.slots
  incoming := hmem ▸ h.incoming
  pushed := hmem ▸ h.pushed
  memory := hmem ▸ h.memory
  statics := h.statics

theorem Agrees.storeWord (h : Agrees env syms area m fr s) (hfit : Fits area m fr) {a : Word}
    {mem : Memory} (hw : m.memory.writeWord a w = .ok mem) :
    Agrees env syms area { m with memory := mem } fr (s.store a w) := by
  obtain ⟨-, hholds, hlow, hhigh⟩ := h.memory.write hw
  have hmem := hfit.memory
  have hpushed := hfit.pushed
  have hslots := hfit.slots
  have hincoming := hfit.incoming
  refine ⟨h.regs, h.stack, h.frame, ?_, ?_, ?_, hholds, h.statics⟩
  · intro k v hv
    have hk := lt_size_of_slot hv
    have hpos := hfit.position_slot hk
    rw [State.memory_store, Store.read_write_apart _ _ (apart_of_le (by omega) (by omega))]
    exact h.slots k v hv
  · intro k v hv
    have hpos := hfit.position_incoming (List.getElem?_eq_some_iff.1 hv).1
    have hk := (List.getElem?_eq_some_iff.1 hv).1
    rw [State.memory_store, Store.read_write_apart _ _ (apart_of_le (by omega) (by omega))]
    exact h.incoming k v hv
  · intro k v hv
    have hk := (List.getElem?_eq_some_iff.1 hv).1
    rw [length_reverse] at hk
    have hpos := hfit.position_pushed hk
    rw [State.memory_store, Store.read_write_apart _ _ (apart_of_le (by omega) (by omega))]
    exact h.pushed k v hv

theorem Agrees.storeSlot (h : Agrees env syms area m fr s) (hfit : Fits area m fr)
    (hk : k < fr.slots.size) :
    Agrees env syms area m { fr with slots := fr.slots.setIfInBounds k (some w) }
      (s.store (area.slot k) w) := by
  have hmem := hfit.memory
  have hpushed := hfit.pushed
  have hslots := hfit.slots
  have hincoming := hfit.incoming
  have hpos := hfit.position_slot hk
  refine ⟨h.regs, h.stack, h.frame, ?_, ?_, ?_, h.memory.write_above (by omega) (by omega), h.statics⟩
  · intro k' v hv
    rw [Frame.slot, join_setIfInBounds _ _ _ _ hk] at hv
    split at hv
    · next heq =>
      cases hv
      rw [← heq, State.memory_store, Store.read_write]
    · next hne =>
      have hk' := lt_size_of_slot hv
      have hpos' := hfit.position_slot hk'
      have hapart : Apart (area.slot k) (area.slot k') := by
        rcases Nat.lt_or_gt_of_ne hne with hlt | hlt
        · exact (apart_of_le (by omega) (by omega)).symm
        · exact apart_of_le (by omega) (by omega)
      rw [State.memory_store, Store.read_write_apart _ _ hapart]
      exact h.slots k' v hv
  · intro k' v hv
    have hk' : k' < fr.incoming.length := (List.getElem?_eq_some_iff.1 hv).1
    have hpos' := hfit.position_incoming hk'
    rw [State.memory_store, Store.read_write_apart _ _ (apart_of_le (by omega) (by omega))]
    exact h.incoming k' v hv
  · intro k' v hv
    have hk' : k' < fr.pushed.reverse.length := (List.getElem?_eq_some_iff.1 hv).1
    rw [length_reverse] at hk'
    have hpos' := hfit.position_pushed hk'
    have hapart : Apart (area.pushed k') (area.slot k) := apart_of_le (by omega) (by omega)
    rw [State.memory_store, Store.read_write_apart _ _ hapart.symm]
    exact h.pushed k' v hv

theorem Agrees.push (h : Agrees env syms area m fr s)
    (hfit : Fits area m { fr with pushed := w :: fr.pushed }) :
    Agrees env syms area m { fr with pushed := w :: fr.pushed }
      ((s.set .rsp (s.regs .rsp - 8)).store (s.regs .rsp - 8) w) := by
  have hmem := hfit.memory
  have hpushed : area.floor + 8 * (fr.pushed.length + 1) ≤ area.top := hfit.pushed
  have hslots : area.top + 8 * fr.slots.size ≤ area.frame := hfit.slots
  have hincoming : area.frame + 16 + 8 * fr.incoming.length ≤ 2 ^ 64 := hfit.incoming
  have hstack := h.stack
  have hpos : position (s.regs .rsp - 8) + 8 = position (s.regs .rsp) := by
    have hlt := position_lt (s.regs .rsp)
    rw [position_sub, show position 8 = 8 from rfl]
    omega
  have hregs : ∀ q, q ≠ .rsp →
      ((s.set .rsp (s.regs .rsp - 8)).store (s.regs .rsp - 8) w).regs q = s.regs q := by
    intro q hq
    rw [State.regs_store, State.regs_set_of_ne _ _ hq]
  refine ⟨?_, ?_, ?_, ?_, ?_, ?_, h.memory.write_above (by omega) (by omega), h.statics⟩
  · intro q v hq hq' hv
    rw [hregs q hq]
    exact h.regs q v hq hq' hv
  · rw [State.regs_store, State.regs_set, length_cons]
    omega
  · rw [hregs _ (by decide)]
    exact h.frame
  · intro k v hv
    have hk := lt_size_of_slot (show fr.slot k = some v from hv)
    have hpos' := hfit.position_slot hk
    rw [State.memory_store, Store.read_write_apart _ _ (apart_of_le (by omega) (by omega))]
    exact h.slots k v hv
  · intro k v hv
    have hk : k < fr.incoming.length := (List.getElem?_eq_some_iff.1 hv).1
    have hpos' := hfit.position_incoming hk
    rw [State.memory_store, Store.read_write_apart _ _ (apart_of_le (by omega) (by omega))]
    exact h.incoming k v hv
  · intro k v hv
    have hk := (List.getElem?_eq_some_iff.1 hv).1
    rw [length_reverse] at hk
    have hpos' := hfit.position_pushed hk
    rw [length_cons] at hk
    rw [reverse_cons, getElem?_append, length_reverse] at hv
    rw [State.memory_store]
    split at hv
    · have hapart : Apart (s.regs .rsp - 8) (area.pushed k) := apart_of_le (by omega) (by omega)
      rw [Store.read_write_apart _ _ hapart]
      exact h.pushed k v hv
    · -- The last word pushed is where the stack pointer now is.
      have hlast : k = fr.pushed.length := by omega
      have haddr : area.pushed k = s.regs .rsp - 8 := position_inj (by omega)
      rw [hlast, Nat.sub_self] at hv
      cases hv
      rw [haddr, Store.read_write]

/-- Once the words that were left on the stack are taken off, the state agrees in the whole area. -/
theorem Agrees.release {n : Nat} (h : Agrees env syms (area.lowered n) m fr s) (hpushed : fr.pushed = [])
    (hroom : 8 * n ≤ area.top) (hfit : Fits area m fr) :
    Agrees env syms area m fr (s.set .rsp (s.regs .rsp + Int64.ofNat n * 8)) := by
  have hstack : position (s.regs .rsp) + 8 * fr.pushed.length = area.top - 8 * n := h.stack
  have hslots := hfit.slots
  have hincoming := hfit.incoming
  have hregs : ∀ q, q ≠ .rsp →
      (s.set .rsp (s.regs .rsp + Int64.ofNat n * 8)).regs q = s.regs q := fun q hq =>
    State.regs_set_of_ne _ _ hq
  have hdisp : Int64.ofNat n * 8 = Int64.ofNat (n * 8) := by
    rw [Int64.ofNat_mul]
    rfl
  refine ⟨?_, ?_, ?_, h.slots, h.incoming, ?_, h.memory, h.statics⟩
  · intro q v hq hq' hv
    rw [hregs q hq]
    exact h.regs q v hq hq' hv
  · rw [hpushed] at hstack ⊢
    rw [State.regs_set, hdisp, position_add, position_ofNat]
    simp only [length_nil] at hstack ⊢
    omega
  · rw [hregs _ (by decide)]
    exact h.frame
  · rw [hpushed]
    intro k v hv
    cases hv

end Following

end MxStar.Asm
