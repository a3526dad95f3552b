import MxStar.Alloc.Liveness
import MxStar.Proofs.Actions
import MxStar.Proofs.Sets

/-!
The physical registers of a machine: laws of reading a register after writing some, what assigning does to the
registers of both kinds (`regValue_assign`), and that the routines of the runtime neither read nor write
registers (`callBuiltin_withRegs`).
-/
namespace MxStar.Interp

open IR List

/-! ## Reading after writing -/

namespace RegFile

theorem get_eq (r : RegFile) (p : PhysReg) : r.get p = r.cells[p.index.val] := rfl

theorem get_set (r : RegFile) (p q : PhysReg) (v : Option Word) :
    (r.set p v).get q = if p = q then v else r.get q := by
  have hi : p.index.val = q.index.val ↔ p = q := by
    cases p <;> cases q <;> decide
  simp only [get_eq, set, Vector.getElem_set, hi]

theorem get_clear (r : RegFile) (ps : List PhysReg) (q : PhysReg) :
    (r.clear ps).get q = if q ∈ ps then none else r.get q := by
  induction ps generalizing r with
  | nil => simp [clear]
  | cons p ps ih =>
    change ((r.set p none).clear ps).get q = _
    rw [ih, get_set]
    by_cases hq : q ∈ ps
    · simp [hq]
    · by_cases hp : p = q
      · simp [hp]
      · simp [hq, hp, Ne.symm hp]

theorem get_setMany_of_not_mem (r : RegFile) (vs : List (PhysReg × Option Word)) {q : PhysReg}
    (hq : ∀ x ∈ vs, x.1 ≠ q) : (r.setMany vs).get q = r.get q := by
  induction vs generalizing r with
  | nil => rfl
  | cons x vs ih =>
    change ((r.set x.1 x.2).setMany vs).get q = _
    rw [ih _ fun y hy => hq y (mem_cons_of_mem _ hy), get_set,
      if_neg (hq x mem_cons_self)]

theorem get_setMany_of_mem (r : RegFile) {vs : List (PhysReg × Option Word)}
    (hnd : (vs.map (·.1)).Nodup) {q : PhysReg} {v : Option Word} (hq : (q, v) ∈ vs) :
    (r.setMany vs).get q = v := by
  induction vs generalizing r with
  | nil => simp at hq
  | cons x vs ih =>
    obtain ⟨hx, hnd⟩ := nodup_cons.1 hnd
    change ((r.set x.1 x.2).setMany vs).get q = _
    rcases mem_cons.1 hq with rfl | hq
    · rw [get_setMany_of_not_mem, get_set, if_pos rfl]
      intro y hy h
      exact hx (mem_map.2 ⟨y, hy, h⟩)
    · exact ih _ hnd hq

end RegFile

/-! ## Both kinds of registers -/

def regValue (m : Machine) (fr : Frame) : Reg → Option Word
  | .virt v => fr.reg v
  | .phys p => m.regs.get p

theorem value_eq_of_reg? {m : Machine} {fr : Frame} {o : Operand} {r : Reg} (h : o.reg? = some r)
    {w : Word} : value m fr o = .ok w ↔ regValue m fr r = some w := by
  cases o with
  | vreg v =>
    cases h
    exact value_vreg
  | phys p =>
    cases h
    exact value_phys
  | imm w => cases h
  | static s => cases h

theorem regValue_assign {m m1 : Machine} {fr fr1 : Frame} {dst : Operand} {w : Word}
    (h : assign m fr dst w = .ok (m1, fr1)) :
    ∃ d, dst.reg? = some d ∧
      (∀ r, regValue m1 fr1 r = if r = d then some w else regValue m fr r) ∧
      m1 = { m with regs := m1.regs } ∧ fr1 = { fr with regs := fr1.regs } := by
  cases dst with
  | vreg v =>
    simp only [assign] at h
    split at h
    · next hv =>
      cases h
      refine ⟨.virt v, rfl, fun r => ?_, rfl, rfl⟩
      cases r with
      | virt u =>
        simp only [regValue, Frame.reg, join_setIfInBounds _ _ _ _ hv, Reg.virt.injEq, eq_comm]
      | phys p => simp [regValue]
    · cases h
  | phys p =>
    cases h
    refine ⟨.phys p, rfl, fun r => ?_, rfl, rfl⟩
    cases r with
    | virt u => simp [regValue]
    | phys q => simp only [regValue, RegFile.get_set, Reg.phys.injEq, eq_comm]
  | imm w => cases h
  | static s => cases h

/-! ## The registers of a frame at its start -/

theorem join_replicate_none (n k : Nat) :
    ((Array.replicate n (none : Option Word))[k]?).join = none := by
  rw [Array.getElem?_replicate]
  split <;> rfl

theorem slot_enter (f : Func) (args : List Word) (k : SlotId) :
    (Frame.enter f args).slot k = none :=
  join_replicate_none f.slots k

theorem size_foldl_set (params : List (VReg × Nat)) (args : List Word)
    (regs : Array (Option Word)) :
    (params.foldl (fun regs (v, i) => regs.setIfInBounds v (some (args.getD i 0))) regs).size =
      regs.size := by
  induction params generalizing regs with
  | nil => rfl
  | cons x params ih => rw [foldl_cons, ih, Array.size_setIfInBounds]

theorem regs_enter {f : Func} (hf : f.params = []) (args : List Word) :
    (Frame.enter f args).regs = Array.replicate f.vregCount none := by
  simp [Frame.enter, hf]

theorem reg_enter {f : Func} (hf : f.params = []) (args : List Word) (v : VReg) :
    (Frame.enter f args).reg v = none := by
  rw [Frame.reg, regs_enter hf]
  exact join_replicate_none _ v

/-! ## The runtime leaves registers alone -/

def Machine.withRegs (m : Machine) (r : RegFile) : Machine := { m with regs := r }

theorem callBuiltin_with (m : Machine) (r : RegFile) (s : Array Word) (b : Builtin) (args : List Word) :
    { m with regs := r, statics := s }.callBuiltin b args =
      (m.callBuiltin b args).map fun x => (x.1, { x.2 with regs := r, statics := s }) := by
  cases b with
  | malloc =>
    simp only [Machine.callBuiltin]
    split <;> rfl
  | getString | getInt =>
    obtain ⟨memory, regs, statics, input, output, checks⟩ := m
    cases input <;> rfl
  | stringSubstring =>
    simp only [Machine.callBuiltin, Except.map_bind]
    congr 1
    funext s
    split
    · rw [Except.map_bind]
      rfl
    · rfl
  | stringOrd =>
    simp only [Machine.callBuiltin, Except.map_bind]
    congr 1
    funext s
    congr 1
    funext address
    split <;> rfl
  | stringConcat | stringCompare | print | println | stringParseInt =>
    simp only [Machine.callBuiltin, Except.map_bind]; rfl
  | printInt | printlnInt | toString => rfl

theorem callBuiltin_statics {m m' : Machine} {w : Word} {b : Builtin} {args : List Word}
    (h : m.callBuiltin b args = .ok (w, m')) : m'.statics = m.statics := by
  have hsame := callBuiltin_with m m.regs m.statics b args
  rw [show { m with regs := m.regs, statics := m.statics } = m from rfl, h] at hsame
  exact congrArg (·.2.statics) (Except.ok.inj hsame)

theorem callBuiltin_withRegs (m : Machine) (r : RegFile) (b : Builtin) (args : List Word) :
    (m.withRegs r).callBuiltin b args =
      (m.callBuiltin b args).map fun x => (x.1, x.2.withRegs r) := by
  refine (callBuiltin_with m r m.statics b args).trans ?_
  cases h : m.callBuiltin b args with
  | error e => rfl
  | ok x => rw [← callBuiltin_statics h]; rfl

end MxStar.Interp

namespace MxStar.Alloc

open IR Interp

/-! ## What an instruction writes -/

theorem mem_defs_divide {dst lhs rhs : Operand} {op : BinOp} (hop : op = .div ∨ op = .mod)
    {r : Reg} : r ∈ defs (.binary dst op lhs rhs) ↔
      dst.reg? = some r ∨ r = .phys .rax ∨ r = .phys .rdx := by
  rcases hop with rfl | rfl <;> simp [defs, Instr.dst?]

theorem mem_defs_call {callee : Callee} {args : List Operand} {n : Nat} {r : Reg} :
    r ∈ defs (.call none callee args n) ↔ ∃ q ∈ PhysReg.callerSaved, r = .phys q := by
  simp [defs, Instr.dst?, eq_comm]

theorem not_mem_defs_of_isTerminator {i : Instr} (h : i.isTerminator = true) (r : Reg) :
    r ∉ defs i := by
  cases i with
  | jump | branch | ret => simp [defs, Instr.dst?]
  | _ => simp [Instr.isTerminator] at h

/-- What an action says about the instruction that it belongs to, which read the words `vs`. -/
inductive ActsAs (i : Instr) (vs : List Word) : Action → Prop
  | write {dst : Operand} {w : Word} (hdst : i.dst? = some dst)
      (hdefs : ∀ r, r ∈ defs i ↔ dst.reg? = some r)
      (hmove : ∀ d src, i = .move d src → w = vs.getD 0 0) : ActsAs i vs (.write dst w)
  | divide {dst : Operand} {op : BinOp} {lhs rhs : Operand} {quot rem : Word}
      (hi : i = .binary dst op lhs rhs) (hop : op = .div ∨ op = .mod) :
      ActsAs i vs (.divide dst op quot rem)
  | memory {mem : Memory} (hdefs : ∀ r, r ∉ defs i) : ActsAs i vs (.memory mem)
  | slot {src : Operand} {k : SlotId} {w : Word} (hi : i = .store (.slot k) src)
      (hdefs : ∀ r, r ∉ defs i) : ActsAs i vs (.slot k w)
  | push {src : Operand} {w : Word} (hi : i = .push src) (hdefs : ∀ r, r ∉ defs i) :
      ActsAs i vs (.push w)

theorem actsAs {m : Machine} {fr : Frame} {i : Instr} {vs : List Word} {a : Action}
    (h : act m fr i vs = .ok a) : ActsAs i vs a := by
  cases i with
  | binary d op lhs rhs =>
    simp only [act, actBinary] at h
    split at h
    · next hop =>
      split at h <;> cases h
      exact .divide rfl (by simpa using hop)
    · next hop =>
      split at h <;> cases h
      refine .write rfl (fun r => ?_) (by simp)
      cases op <;> simp_all [defs, Instr.dst?]
  | unary d op src | compare d cond lhs rhs | move d src =>
    cases h
    exact .write rfl (by simp [defs, Instr.dst?]) (by simp)
  | load d addr =>
    have hload : ∃ w, a = .write d w := by
      simp only [act, actLoad] at h
      split at h
      · split at h <;> cases h
        exact ⟨_, rfl⟩
      · split at h <;> cases h
        exact ⟨_, rfl⟩
      · obtain ⟨x, hx, h⟩ := Except.bind_eq_ok.1 h
        obtain ⟨y, hy, h⟩ := Except.bind_eq_ok.1 h
        cases h
        exact ⟨_, rfl⟩
    obtain ⟨w, rfl⟩ := hload
    exact .write rfl (by simp [defs, Instr.dst?]) (by simp)
  | store addr src =>
    simp only [act, actStore] at h
    split at h
    · cases h
      exact .slot rfl (by simp [defs, Instr.dst?])
    · obtain ⟨x, hx, h⟩ := Except.bind_eq_ok.1 h
      obtain ⟨y, hy, h⟩ := Except.bind_eq_ok.1 h
      cases h
      exact .memory (by simp [defs, Instr.dst?])
  | push src =>
    cases h
    exact .push rfl (by simp [defs, Instr.dst?])
  | call | jump | branch | ret => cases h

theorem mem_defs_of_dst {i : Instr} {o : Operand} {r : Reg} (ho : i.dst? = some o)
    (hr : o.reg? = some r) : r ∈ defs i := by
  unfold defs
  split <;> simp [ho, hr]

end MxStar.Alloc
