import MxStar.Proofs.KeptFrames
import MxStar.Proofs.StackBalance

/-!
Runs through a block.

Within one activation of a function, a call is one step that takes as long as the called function runs
(`NextInFrame`); it comes back to the frame that it left (`NextInFrame.call`). `BlockRun` follows the
instructions of a block up to the one that ends it, and `Leaves` says how the block is left.
-/
namespace MxStar.Interp

open IR List

variable {m m' : Machine} {fr fr' : Frame} {dst : Option Operand} {c : Config} {w : Word}
  {args : List Operand} {callee : Callee}

/-! ## Calls taken whole -/

/-- Steps with more than a given number of callers until there are that many again. -/
inductive Returns (p : Program) (depth : Nat) : Config → Config → Prop
  | back {c d : Config} (h : step p c = .running d) (hd : d.callers.length = depth) :
    Returns p depth c d
  | inside {c d e : Config} (h : step p c = .running d) (hd : depth < d.callers.length)
    (hr : Returns p depth d e) : Returns p depth c e

/-- One instruction of the running function, where a call takes the whole run of what is called. -/
def NextInFrame (p : Program) (c d : Config) : Prop := Returns p c.callers.length c d

/-- A frame that a call has returned to: nothing but a register may have changed. -/
def Resumes (fr fr' : Frame) : Prop := fr' = { fr with regs := fr'.regs }

theorem assign_resumes {dst : Operand} (h : assign m fr dst w = .ok (m', fr')) :
    Resumes fr fr' := by
  obtain ⟨-, -, -, -, hfr⟩ := regValue_assign h
  exact hfr

theorem finishCall_resumes (h : finishCall m fr dst w = .ok (m', fr')) : Resumes fr fr' := by
  cases dst with
  | none =>
    cases h
    rfl
  | some d => exact assign_resumes h

/-- A call has come back to the frame that it left. -/
def ComesBack (fr : Frame) (dst : Option Operand) (d : Config) : Prop :=
  ∃ m w, finishCall m fr dst w = .ok (d.machine, d.frame)

section Steps

variable {p : Program} {m : Machine} {fr : Frame} {k : List Caller} {i : Instr} {rest : List Instr}
  {d : Config}

theorem step_compute (hcode : fr.code = i :: rest) (hi : IsSimple i)
    (h : step p ⟨m, fr, k⟩ = .running d) : ∃ m' fr',
      compute m { fr with code := rest } i = .ok (m', fr') ∧ d = ⟨m', fr', k⟩ := by
  rw [step_eq_compute hcode hi] at h
  obtain ⟨⟨m', fr'⟩, hc, hd⟩ := Except.bind_eq_ok.1 (ofExcept_eq_running h)
  cases hd
  exact ⟨m', fr', hc, rfl⟩

/-- What a call instruction leads to: the next instruction, or the start of a function that will come
back to it. -/
theorem step_call {n : Nat} (hcode : fr.code = .call dst callee args n :: rest)
    (h : step p ⟨m, fr, k⟩ = .running d) :
    (d.callers = k ∧ ComesBack { fr with code := rest, pushed := [] } dst d) ∨
      ∃ saved, d.callers = ⟨{ fr with code := rest, pushed := [] }, dst, saved⟩ :: k := by
  obtain ⟨_, _, hcode', hgoes⟩ := goes h
  obtain ⟨rfl, rfl⟩ := List.cons.inj (hcode.symm.trans hcode')
  cases hgoes with
  | action hi => cases hi.2
  | builtin _ hfin => exact .inl ⟨rfl, _, _, hfin⟩
  | enter => exact .inr ⟨_, rfl⟩

theorem step_branch_eq {cond : CmpOp} {lhs rhs : Operand} {t e : BlockId}
    (hcode : fr.code = .branch cond lhs rhs t e :: rest) (h : step p ⟨m, fr, k⟩ = .running d) :
    ∃ l r, value m fr lhs = .ok l ∧ value m fr rhs = .ok r ∧
      d = ⟨m, fr.goto (if cond.eval l r then t else e), k⟩ := by
  obtain ⟨_, _, hcode', hgoes⟩ := goes h
  obtain ⟨rfl, rfl⟩ := List.cons.inj (hcode.symm.trans hcode')
  cases hgoes with
  | action hi => cases hi.1
  | branch hl hr => exact ⟨_, _, hl, hr, rfl⟩

/-- A step stays in its frame, enters a function or goes back to a caller. -/
theorem step_callers {d : Config} (h : step p c = .running d) :
    d.callers = c.callers ∨ (∃ cl, d.callers = cl :: c.callers) ∨
      ∃ cl, c.callers = cl :: d.callers ∧ ComesBack cl.frame cl.dst d := by
  obtain ⟨m, fr, k⟩ := c
  obtain ⟨i, rest, -, hgoes⟩ := goes h
  cases hgoes with
  | action | jump | branch | builtin => exact .inl rfl
  | enter => exact .inr (.inl ⟨_, rfl⟩)
  | ret hfin => exact .inr (.inr ⟨_, rfl, _, _, hfin⟩)

theorem Returns.comesBack {e : Config} {cl : Caller} (h : Returns p k.length c e)
    (own : List Caller) (hc : c.callers = own ++ cl :: k) :
    ComesBack cl.frame cl.dst e ∧ e.callers = k := by
  induction h generalizing own with
  | back h hd =>
    obtain hsame | ⟨cl', hmore⟩ | ⟨cl', hless, hres⟩ := step_callers h
    · rw [hsame, hc, length_append, length_cons] at hd
      omega
    · rw [hmore, hc, length_cons, length_append, length_cons] at hd
      omega
    · rw [hc] at hless
      cases own with
      | nil =>
        cases hless
        exact ⟨hres, rfl⟩
      | cons _ own =>
        have htail : _ = own ++ cl :: k := (List.cons.inj hless).2.symm
        rw [htail, length_append, length_cons] at hd
        omega
  | inside h hd _ ih =>
    obtain hsame | ⟨cl', hmore⟩ | ⟨cl', hless, -⟩ := step_callers h
    · exact ih own (hsame.trans hc)
    · exact ih (cl' :: own) (by rw [hmore, hc, cons_append])
    · rw [hc] at hless
      cases own with
      | nil =>
        cases hless
        omega
      | cons _ own => exact ih own (List.cons.inj hless).2.symm

/-- A call comes back to its frame, after the call and with nothing pushed. -/
theorem NextInFrame.comesBack {n : Nat} (hcode : c.frame.code = .call dst callee args n :: rest)
    (h : NextInFrame p c d) : ComesBack { c.frame with code := rest, pushed := [] } dst d := by
  obtain ⟨m, fr, k⟩ := c
  cases h with
  | back h hd =>
    obtain ⟨-, hres⟩ | ⟨saved, hd'⟩ := step_call hcode h
    · exact hres
    · rw [hd', length_cons] at hd
      exact absurd hd (Nat.succ_ne_self _)
  | inside h hd hr =>
    obtain ⟨hd', -⟩ | ⟨saved, hd'⟩ := step_call hcode h
    · rw [hd'] at hd
      exact absurd hd (Nat.lt_irrefl _)
    · exact (hr.comesBack [] hd').1

theorem NextInFrame.call {n : Nat} (hcode : c.frame.code = .call dst callee args n :: rest)
    (h : NextInFrame p c d) : Resumes { c.frame with code := rest, pushed := [] } d.frame := by
  obtain ⟨m, w, hfin⟩ := h.comesBack hcode
  exact finishCall_resumes hfin

theorem NextInFrame.compute (hcode : c.frame.code = i :: rest) (hi : IsSimple i)
    (h : NextInFrame p c d) : ∃ m' fr',
      Interp.compute c.machine { c.frame with code := rest } i = .ok (m', fr') ∧
      d = ⟨m', fr', c.callers⟩ := by
  obtain ⟨m, fr, k⟩ := c
  cases h with
  | back h hd => exact step_compute hcode hi h
  | inside h hd hr =>
    obtain ⟨m', fr', -, rfl⟩ := step_compute hcode hi h
    exact absurd hd (Nat.lt_irrefl _)

end Steps

/-! ## Statics -/

theorem assign_statics {dst : Operand} (h : assign m fr dst w = .ok (m', fr')) :
    m'.statics = m.statics := by
  obtain ⟨-, -, -, hm, -⟩ := regValue_assign h
  rw [hm]

theorem finishCall_statics (h : finishCall m fr dst w = .ok (m', fr')) :
    m'.statics = m.statics := by
  cases dst with
  | none =>
    cases h
    rfl
  | some d => exact (assign_statics h).trans rfl

theorem Action.apply_statics {a : Action} (h : a.apply m fr = .ok (m', fr')) :
    m'.statics = m.statics := by
  cases a with
  | write dst w => exact assign_statics h
  | divide dst op quot rem =>
    refine (assign_statics h).trans ?_
    cases dst <;> rfl
  | slot k w =>
    simp only [Action.apply] at h
    split at h <;> cases h
    rfl
  | memory mem | push w =>
    cases h
    rfl

theorem step_statics {p : Program} {d : Config} (h : step p c = .running d) :
    d.machine.statics = c.machine.statics := by
  obtain ⟨m, fr, k⟩ := c
  obtain ⟨i, rest, -, hgoes⟩ := goes h
  cases hgoes with
  | action _ _ happly => exact Action.apply_statics happly
  | jump | branch | enter => rfl
  | ret hfin => exact (finishCall_statics hfin).trans rfl
  | builtin hb hfin => exact (finishCall_statics hfin).trans (callBuiltin_statics hb)

theorem Returns.statics {p : Program} {depth : Nat} {d : Config} (h : Returns p depth c d) :
    d.machine.statics = c.machine.statics := by
  induction h with
  | back h => exact step_statics h
  | inside h _ _ ih => exact ih.trans (step_statics h)

/-! ## Frames after an instruction -/

def Stays (fr fr' : Frame) : Prop :=
  fr'.func = fr.func ∧ fr'.code = fr.code ∧ fr'.pushed = fr.pushed

theorem Resumes.stays (h : Resumes fr fr') : Stays fr fr' := by
  rw [h]
  exact ⟨rfl, rfl, rfl⟩

theorem compute_stays {i : Instr} (hi : IsSimple i) (hpush : ∀ v, i ≠ .push v)
    (h : compute m fr i = .ok (m', fr')) : Stays fr fr' := by
  obtain ⟨vs, a, hacts, h⟩ := exists_action hi h
  cases hacts with
  | write | divide => exact (assign_resumes h).stays
  | memory =>
    cases h
    exact ⟨rfl, rfl, rfl⟩
  | slot =>
    simp only [Action.apply] at h
    split at h <;> cases h
    exact ⟨rfl, rfl, rfl⟩
  | push hi => exact absurd hi (hpush _)

/-- After an instruction that neither calls nor transfers control, the rest of the code takes off what
is pushed if the code did. -/
theorem compute_frame {i : Instr} {rest : List Instr} (hi : IsSimple i)
    (h : compute m fr i = .ok (m', fr')) (hbal : Alloc.Balanced fr.pushed.length (i :: rest)) :
    fr'.func = fr.func ∧ fr'.code = fr.code ∧ Alloc.Balanced fr'.pushed.length rest := by
  by_cases hpush : ∃ v, i = .push v
  · obtain ⟨v, rfl⟩ := hpush
    obtain ⟨w, -, h⟩ := Except.bind_eq_ok.1 h
    cases h
    exact ⟨rfl, rfl, hbal⟩
  · have hstays := compute_stays hi (fun v hv => hpush ⟨v, hv⟩) h
    refine ⟨hstays.1, hstays.2.1, ?_⟩
    rw [hstays.2.2]
    refine (Alloc.balanced_cons ?_).1 hbal
    cases i with
    | push v => exact absurd ⟨v, rfl⟩ hpush
    | call => exact absurd hi.2 (by simp [Instr.isCall])
    | _ => rfl

/-! ## Blocks -/

/-- A run through the rest of a block up to the instruction that ends it. Every configuration on the
way has a property. -/
inductive BlockRun (p : Program) (P : Config → Prop) : Config → Config → Prop
  | last {c : Config} {i : Instr} (h : P c) (hcode : c.frame.code = [i]) (hi : i.isTerminator = true) :
    BlockRun p P c c
  | next {c d e : Config} {i : Instr} {rest : List Instr} (h : P c) (hcode : c.frame.code = i :: rest)
    (hi : i.isTerminator = false) (hd : NextInFrame p c d) (hrun : BlockRun p P d e) : BlockRun p P c e

/-- How a block is left: to another block, or by a return from its last configuration. -/
inductive Exit where
  | goto (c : Config)
  | ret (c : Config) (v : Option Operand)

/-- The instruction that ends a block leads out of it. -/
inductive Leaves (p : Program) : Config → Exit → Prop
  | jump {c : Config} {t : BlockId} (hcode : c.frame.code = [.jump t]) :
    Leaves p c (.goto { c with frame := c.frame.goto t })
  | branch {c d : Config} {cond : CmpOp} {lhs rhs : Operand} {t e : BlockId}
    (hcode : c.frame.code = [.branch cond lhs rhs t e]) (h : step p c = .running d) :
    Leaves p c (.goto d)
  | ret {c : Config} {v : Option Operand} (hcode : c.frame.code = [.ret v]) : Leaves p c (.ret c v)

end MxStar.Interp
