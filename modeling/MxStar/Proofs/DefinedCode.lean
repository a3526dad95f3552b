import Mathlib.Data.Set.Insert
import MxStar.Proofs.FlowGraph

/-!
Code in which every register is written before it is read.

`Known` is what is known at a place in code, among it the registers that are written on every way there.
`Instr.Within K i` says that all that an instruction refers to exists, and that all that it reads has a
value; `Grounded K D code` says so of code. A function is `Defined` if the code of every block is grounded
with some set of registers, and nothing but the parameters is needed at the entry.
-/
namespace MxStar.IR

variable {D E : Set VReg}

/-! ## What is known at a place -/

/-- What is known at a place in the code of a function. -/
structure Known where
  regs : Nat
  blocks : Nat
  statics : Nat
  /-- The functions that may be called. -/
  callable : FuncId → Prop
  /-- The registers that are written on every way to a block. -/
  starts : BlockId → Set VReg
  /-- The registers that are written on every way to this place. -/
  written : Set VReg

namespace Known

def having (K : Known) (D : Set VReg) : Known := { K with written := D }

def Enters (K : Known) (b : BlockId) : Prop := b < K.blocks ∧ K.starts b ⊆ K.written

def Has (K : Known) (v : VReg) : Prop := v < K.regs ∧ v ∈ K.written

/-- More is known, and control may go wherever it could. -/
structure Le (K L : Known) : Prop where
  regs : K.regs ≤ L.regs
  statics : K.statics ≤ L.statics
  callable : ∀ id, K.callable id → L.callable id
  enters : ∀ b, K.Enters b → L.Enters b
  written : K.written ⊆ L.written

theorem Le.trans {K L M : Known} (h : K.Le L) (h' : L.Le M) : K.Le M where
  regs := Nat.le_trans h.regs h'.regs
  statics := Nat.le_trans h.statics h'.statics
  callable := fun id hid => h'.callable id (h.callable id hid)
  enters := fun b hb => h'.enters b (h.enters b hb)
  written := h.written.trans h'.written

theorem Le.widen {K L : Known} (h : K.Le L) (hE : L.written ⊆ E) : K.Le (L.having E) :=
  { h with
    enters := fun b hb => ⟨(h.enters b hb).1, (h.enters b hb).2.trans hE⟩
    written := h.written.trans hE }

end Known

/-- The operand exists before registers are allocated, and has a value. -/
def Operand.Within (K : Known) : Operand → Prop
  | .vreg v => K.Has v
  | .phys _ => False
  | .imm _ => True
  | .static s => s < K.statics

def Address.Within (K : Known) : Address → Prop
  | .base b _ => b.Within K
  | .static s => s < K.statics
  | .slot _ | .incoming _ => False

def Operand.Writable (K : Known) : Operand → Prop
  | .vreg v => v < K.regs
  | _ => False

/-- What is called may be called. -/
def Callee.Within (K : Known) : Callee → Prop
  | .func id => K.callable id
  | .builtin _ => True

/-- The instruction is one that code has before registers are allocated; all that it refers to
exists, and all that it reads has a value. -/
def Instr.Within (K : Known) : Instr → Prop
  | .binary dst _ l r | .compare dst _ l r => dst.Writable K ∧ l.Within K ∧ r.Within K
  | .unary dst _ src | .move dst src => dst.Writable K ∧ src.Within K
  | .load dst a => dst.Writable K ∧ a.Within K
  | .store a src => a.Within K ∧ src.Within K
  | .call dst callee args _ =>
    (∀ o ∈ dst, o.Writable K) ∧ callee.Within K ∧ ∀ o ∈ args, o.Within K
  | .push _ => False
  | .jump t => K.Enters t
  | .branch _ l r t e => l.Within K ∧ r.Within K ∧ K.Enters t ∧ K.Enters e
  | .ret v => ∀ o ∈ v, o.Within K

section Mono

variable {K L : Known} (h : K.Le L)

include h

theorem Known.Has.mono {v : VReg} (hv : K.Has v) : L.Has v :=
  ⟨Nat.lt_of_lt_of_le hv.1 h.regs, h.written hv.2⟩

theorem Known.Enters.mono {b : BlockId} (hb : K.Enters b) : L.Enters b := h.enters b hb

theorem Operand.Within.mono {o : Operand} (ho : o.Within K) : o.Within L := by
  cases o with
  | vreg v => exact Known.Has.mono h ho
  | phys p => exact ho
  | imm w => exact ho
  | static s => exact Nat.lt_of_lt_of_le ho h.statics

theorem Operand.Writable.mono {o : Operand} (ho : o.Writable K) : o.Writable L := by
  cases o with
  | vreg v => exact Nat.lt_of_lt_of_le ho h.regs
  | phys p => exact ho
  | imm w => exact ho
  | static s => exact ho

theorem Address.Within.mono {a : Address} (ha : a.Within K) : a.Within L := by
  cases a with
  | base b offset => exact Operand.Within.mono h ha
  | static s => exact Nat.lt_of_lt_of_le ha h.statics
  | slot k => exact ha
  | incoming k => exact ha

theorem Callee.Within.mono {callee : Callee} (hc : callee.Within K) : callee.Within L := by
  cases callee with
  | func id => exact h.callable id hc
  | builtin b => exact hc

theorem Instr.Within.mono {i : Instr} (hi : i.Within K) : i.Within L := by
  cases i with
  | binary | compare => exact ⟨hi.1.mono h, hi.2.1.mono h, hi.2.2.mono h⟩
  | unary | move | load | store => exact ⟨hi.1.mono h, hi.2.mono h⟩
  | call =>
    exact ⟨fun o ho => (hi.1 o ho).mono h, hi.2.1.mono h, fun o ho => (hi.2.2 o ho).mono h⟩
  | push => exact hi
  | jump => exact Known.Enters.mono h hi
  | branch => exact ⟨hi.1.mono h, hi.2.1.mono h, hi.2.2.1.mono h, hi.2.2.2.mono h⟩
  | ret => exact fun o ho => (hi o ho).mono h

end Mono

/-! ## Code in which all that is read is written before -/

/-- The register that an instruction writes. -/
def Instr.writes (i : Instr) : Set VReg := { v | i.dst? = some (.vreg v) }

/-- The registers that are written after some code, given those that are written before it. -/
def writtenBy (D : Set VReg) (code : List Instr) : Set VReg :=
  code.foldl (fun D i => D ∪ i.writes) D

theorem writtenBy_append (D : Set VReg) (l r : List Instr) :
    writtenBy D (l ++ r) = writtenBy (writtenBy D l) r :=
  List.foldl_append

theorem subset_writtenBy (D : Set VReg) (code : List Instr) : D ⊆ writtenBy D code := by
  induction code generalizing D with
  | nil => exact subset_rfl
  | cons i rest ih => exact Set.subset_union_left.trans (ih _)

/-- All that the code refers to exists, and all that it reads is in `D` or written before. -/
def Grounded (K : Known) : Set VReg → List Instr → Prop
  | _, [] => True
  | D, i :: rest => i.Within (K.having D) ∧ Grounded K (D ∪ i.writes) rest

theorem grounded_append {K : Known} {l r : List Instr} :
    Grounded K D (l ++ r) ↔ Grounded K D l ∧ Grounded K (writtenBy D l) r := by
  induction l generalizing D with
  | nil => exact ⟨fun h => ⟨trivial, h⟩, fun h => h.2⟩
  | cons i l ih => exact (and_congr_right fun _ => ih).trans and_assoc.symm

theorem Grounded.mono {K L : Known} (hKL : ∀ D, (K.having D).Le (L.having D)) (hDE : D ⊆ E)
    {code : List Instr} (h : Grounded K D code) : Grounded L E code := by
  induction code generalizing D E with
  | nil => trivial
  | cons i rest ih =>
    exact ⟨h.1.mono ((hKL D).widen hDE), ih (Set.union_subset_union_left _ hDE) h.2⟩

theorem grounded_having {K : Known} {code : List Instr} :
    Grounded (K.having E) D code ↔ Grounded K D code := by
  induction code generalizing D with
  | nil => exact Iff.rfl
  | cons i rest ih => exact and_congr_right fun _ => ih

theorem Grounded.exists_within {K : Known} {code : List Instr} {i : Instr} (h : Grounded K D code)
    (hi : i ∈ code) : ∃ E, i.Within (K.having E) := by
  induction code generalizing D with
  | nil => cases hi
  | cons j rest ih =>
    rcases List.mem_cons.1 hi with rfl | hi
    · exact ⟨D, h.1⟩
    · exact ih h.2 hi

/-! ## Functions and programs -/

/-- What is known in a function, apart from what is written. -/
def Func.known (f : Func) (statics : Nat) (callable : FuncId → Prop) (starts : BlockId → Set VReg) :
    Known :=
  ⟨f.vregCount, f.blocks.size, statics, callable, starts, ∅⟩

/-- Every block ends with its only transfer of control, all that the code refers to exists, and all
that it reads is written on every way from the entry. -/
structure Func.Defined (statics : Nat) (callable : FuncId → Prop) (f : Func) : Prop where
  nodup : f.layout.Nodup
  layout : ∀ b, b ∈ f.layout ↔ b < f.blocks.size
  entry : f.entry < f.blocks.size
  params : ∀ v ∈ f.params, v < f.vregCount
  ends : ∀ b, b < f.blocks.size → EndsOnce (f.code b)
  grounded : ∃ starts, starts f.entry ⊆ { v | v ∈ f.params } ∧
    ∀ b, b < f.blocks.size → Grounded (f.known statics callable starts) (starts b) (f.code b)

theorem Func.Defined.mono {statics statics' : Nat} {callable callable' : FuncId → Prop} {f : Func}
    (h : f.Defined statics callable) (hstatics : statics ≤ statics')
    (hcallable : ∀ id, callable id → callable' id) : f.Defined statics' callable' := by
  obtain ⟨starts, hentry, hgrounded⟩ := h.grounded
  refine { h with grounded := ⟨starts, hentry, fun b hb => (hgrounded b hb).mono ?_ subset_rfl⟩ }
  exact fun D => ⟨Nat.le_refl _, hstatics, hcallable, fun _ h => h, subset_rfl⟩

/-- There is an entry, and what it calls is defined. Functions that nothing calls may be empty. -/
def Program.Defined (p : Program) : Prop :=
  ∃ callable : FuncId → Prop,
    (∀ id, callable id → ∃ f, p.functions[id]? = some f ∧ f.Defined p.statics.size callable) ∧
    (∀ f ∈ p.functions, f.Defined p.statics.size callable ∨ f.allInstrs = []) ∧
    ∃ id, p.entry = some id ∧ callable id

end MxStar.IR
