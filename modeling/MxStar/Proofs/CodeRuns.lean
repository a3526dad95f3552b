import MxStar.Proofs.AssignedPlaces
import MxStar.Proofs.HeapBlocks

/-!
Runs from one place of a draft to the next.

`Passes p K c c'` says that control goes on in one activation and leaves the registers of `K` alone. The
lemmas `At.*` say for each kind of instruction how control goes from the place of a draft to that behind it.
-/
namespace MxStar.Lowering

open IR Interp List

variable {p : IR.Program} {f : Func} {d d' : Draft} {c c1 c2 : Config} {i : Instr} {r : VReg}
  {w : Word} {K K' : VReg → Prop}

/-- Control goes on in the same activation, and some registers are as they were. -/
structure Passes (p : IR.Program) (K : VReg → Prop) (c c' : Config) : Prop where
  steps : Steps p c c'
  callers : c'.callers = c.callers
  size : c'.frame.regs.size = c.frame.regs.size
  regs : ∀ v, K v → c'.frame.reg v = c.frame.reg v

theorem Passes.refl (c : Config) : Passes p K c c := ⟨.refl, rfl, rfl, fun _ _ => rfl⟩

theorem Passes.trans (h1 : Passes p K c c1) (h2 : Passes p K' c1 c2) (hK : ∀ v, K v → K' v) :
    Passes p K c c2 where
  steps := h1.steps.trans h2.steps
  callers := h2.callers.trans h1.callers
  size := h2.size.trans h1.size
  regs v hv := (h2.regs v (hK v hv)).trans (h1.regs v hv)

theorem Passes.mono (h : Passes p K c c1) (hK : ∀ v, K' v → K v) : Passes p K' c c1 :=
  { h with regs := fun v hv => h.regs v (hK v hv) }

theorem Draft.Within.of_emit (hf : (d.emit i).Within f) (hd : d.current < d.size) : d.Within f :=
  fun b => (d.code_prefix_emit hd i b).trans (hf b)

theorem At.goto (hc : At f d c) {b : BlockId} (hempty : d'.code b = []) :
    At f (d'.goto b) ⟨c.machine, c.frame.goto b, c.callers⟩ := by
  refine ⟨hc.func, rfl, ?_⟩
  change f.code b = d'.code b ++ c.frame.func.code b
  rw [hempty, hc.func]
  rfl

section Instructions

variable (hc : At f d c) (hd : d.current < d.size) (hf : (d.emit i).Within f)

include hc hd hf

theorem At.define (hi : IsSimple i) (hr : r < c.frame.regs.size)
    (hcompute : ∀ code, compute c.machine { c.frame with code := code } i =
      assign c.machine { c.frame with code := code } (.vreg r) w) :
    ∃ c', Passes p (· ≠ r) c c' ∧ At f (d.emit i) c' ∧ c'.machine = c.machine ∧
      c'.frame.reg r = some w := by
  obtain ⟨rest, hcode⟩ := hc.code_emit hd hf
  have hassign : assign c.machine { c.frame with code := rest } (.vreg r) w = .ok _ := if_pos hr
  have hstep := step_eq_compute (p := p) (m := c.machine) (k := c.callers) hcode hi
  rw [hcompute, hassign, Except.ok_bind] at hstep
  have hkeeps := assign_keeps hassign
  refine ⟨_, ⟨.one hstep, rfl, hkeeps.size, fun v hv => hkeeps.regs v ?_⟩, hc.behind hd hcode hkeeps,
    rfl, reg_of_assign hassign⟩
  rintro ⟨⟩
  exact hv rfl

end Instructions

theorem At.binary {op : BinOp} {l o : Operand} {x y : Word} (hc : At f d c) (hd : d.current < d.size)
    (hf : (d.emit (.binary (.vreg r) op l o)).Within f) (hr : r < c.frame.regs.size)
    (hx : value c.machine c.frame l = .ok x) (hy : value c.machine c.frame o = .ok y)
    (hop : (op = .div || op = .mod) = false) (heval : op.eval x y = some w) :
    ∃ c', Passes p (· ≠ r) c c' ∧ At f (d.emit (.binary (.vreg r) op l o)) c' ∧
      c'.machine = c.machine ∧ c'.frame.reg r = some w := by
  refine hc.define hd hf ⟨rfl, rfl⟩ hr fun code => ?_
  simp only [compute, value_withCode, hx, hy, Except.ok_bind, hop, heval]
  rfl

theorem At.store {base src : Operand} {offset a : Word} {mem : Memory} (hc : At f d c)
    (hd : d.current < d.size) (hf : (d.emit (.store (.base base offset) src)).Within f)
    (hbase : value c.machine c.frame base = .ok a) (hsrc : value c.machine c.frame src = .ok w)
    (hw : c.machine.memory.writeWord (a + offset) w = .ok mem) :
    ∃ c', Passes p (fun _ => True) c c' ∧ At f (d.emit (.store (.base base offset) src)) c' ∧
      c'.machine = { c.machine with memory := mem } := by
  obtain ⟨rest, hcode⟩ := hc.code_emit hd hf
  have hstep := step_simple (p := p) (k := c.callers) hcode ⟨rfl, rfl⟩
    (reads_two.2 ⟨a, w, hbase, hsrc, rfl⟩)
  have hact : act c.machine c.frame (.store (.base base offset) src) [a, w] = .ok (.memory mem) := by
    change (do return Action.memory (← c.machine.memory.writeWord (a + offset) w)) = _
    rw [hw]
    rfl
  rw [hact] at hstep
  exact ⟨_, ⟨.one hstep, rfl, rfl, fun _ _ => rfl⟩, hc.behind hd hcode (.refl none _), rfl⟩

theorem At.malloc {bytes : Operand} {n : Nat} (hc : At f d c) (hd : d.current < d.size)
    (hf : (d.emit (.call (some (.vreg r)) (.builtin .malloc) [bytes] n)).Within f)
    (hr : r < c.frame.regs.size) (hbytes : value c.machine c.frame bytes = .ok w) (hw : 8 ≤ w.toInt) :
    ∃ c', Passes p (· ≠ r) c c' ∧
      At f (d.emit (.call (some (.vreg r)) (.builtin .malloc) [bytes] n)) c' ∧
      c'.machine.memory = c.machine.memory.extend (replicate w.toInt.toNat 0) ∧
      c'.frame.reg r = some (Int64.ofNat c.machine.memory.nextAddress) := by
  obtain ⟨rest, hcode⟩ := hc.code_emit hd hf
  have hstep := step_call_builtin (p := p) (k := c.callers) hcode (reads_one.2 ⟨w, hbytes, rfl⟩)
  have hcall : c.machine.callBuiltin .malloc ([w] ++ c.frame.pushed) = .ok (c.machine.alloc w.toInt.toNat) :=
    if_neg (show ¬w.toInt < 0 by omega)
  rw [hcall, Machine.alloc, Memory.alloc_eq, Nat.max_eq_left (by omega)] at hstep
  have hassign (m' : Machine) (a : Word) :
      assign m' { c.frame with code := rest, pushed := [] } (.vreg r) a = .ok _ := if_pos hr
  simp only [Except.ok_bind, finishCall, hassign] at hstep
  obtain ⟨hfunc, hblock, hcode', hsize, hregs⟩ :=
    assign_keeps (hassign c.machine (Int64.ofNat c.machine.memory.nextAddress))
  refine ⟨_, ⟨.one hstep, rfl, hsize, fun v hv => hregs v ?_⟩,
    hc.behind hd hcode ⟨hfunc, hblock, hcode', hsize, hregs⟩, rfl, reg_of_assign (hassign c.machine _)⟩
  rintro ⟨⟩
  exact hv rfl

theorem At.jump {b : BlockId} (hc : At f d c) (hd : d.current < d.size) (hf : (d.emit (.jump b)).Within f)
    (hempty : d'.code b = []) :
    ∃ c', Passes p (fun _ => True) c c' ∧ At f (d'.goto b) c' ∧ c'.machine = c.machine := by
  obtain ⟨rest, hcode⟩ := hc.code_emit hd hf
  exact ⟨_, ⟨.one (step_jump hcode), rfl, rfl, fun _ _ => rfl⟩, hc.goto hempty, rfl⟩

theorem At.branch {cond : CmpOp} {lhs rhs : Operand} {t e b : BlockId} {x y : Word} (hc : At f d c)
    (hd : d.current < d.size) (hf : (d.emit (.branch cond lhs rhs t e)).Within f)
    (hx : value c.machine c.frame lhs = .ok x) (hy : value c.machine c.frame rhs = .ok y)
    (hb : b = if cond.eval x y then t else e) (hempty : d'.code b = []) :
    ∃ c', Passes p (fun _ => True) c c' ∧ At f (d'.goto b) c' ∧ c'.machine = c.machine := by
  obtain ⟨rest, hcode⟩ := hc.code_emit hd hf
  have hstep := step_branch (p := p) (k := c.callers) hcode hx hy
  rw [← hb] at hstep
  exact ⟨_, ⟨.one hstep, rfl, rfl, fun _ _ => rfl⟩, hc.goto hempty, rfl⟩

end MxStar.Lowering
