import MxStar.Pass.TwoOperand
import MxStar.Proofs.DefinedPasses
import MxStar.Proofs.KeptFrames

/-!
Two-operand form keeps every outcome.

Code in two-operand form does what the code did, one step for each of its steps, apart from a move before an
operation that had three operands. So each configuration has an image, and a step is matched by one that
leads to the image of what it led to (`mirrors_twoOperand`). Runs of both programs then end alike, in both
directions (`Mirrors.ends_iff`).
-/
namespace MxStar.Interp

open IR

/-! ## Runs that end alike -/

variable {p q : Program} {c : Config} {o : Except RunError Outcome}

/-- A run goes through the configurations that its steps lead to. -/
theorem Executes.of_steps {d : Config} (hs : Steps p c d) :
    ∀ {n : Nat}, Executes p c n o → ∃ k, k ≤ n ∧ Executes p d k o := by
  induction hs using Relation.ReflTransGen.head_induction_on with
  | refl => exact fun h => ⟨_, Nat.le_refl _, h⟩
  | head hstep _ ih =>
    intro n h
    have hfirst := h.first
    rw [hstep] at hfirst
    obtain ⟨k, hk, hrun⟩ := hfirst
    obtain ⟨j, hj, hrun⟩ := ih hrun
    exact ⟨j, by omega, hrun⟩

/-- From the image of a configuration, `q` gets to where it does what `p` does next. -/
structure Mirrors (p q : Program) (I : Config → Prop) (T : Config → Config) : Prop where
  kept : ∀ {c d}, I c → step p c = .running d → I d
  same : ∀ {c}, I c → ∃ d, Steps q (T c) d ∧ step q d = (step p c).map T

theorem Mirrors.steps {I : Config → Prop} {T : Config → Config} (h : Mirrors p q I T) (hc : I c)
    {c' : Config} (hs : Steps p c c') : I c' ∧ Steps q (T c) (T c') := by
  induction hs with
  | refl => exact ⟨hc, .refl⟩
  | tail _ hstep ih =>
    obtain ⟨d, hd, hsame⟩ := h.same ih.1
    rw [hstep] at hsame
    exact ⟨h.kept ih.1 hstep, (ih.2.trans hd).tail hsame⟩

/-- A configuration and its image end alike. From the image back, the induction is on the number of
instructions. -/
theorem Mirrors.ends_iff {I : Config → Prop} {T : Config → Config} (h : Mirrors p q I T) (hc : I c)
    (ho : o ≠ .error .outOfFuel) : Ends p c o ↔ Ends q (T c) o := by
  constructor
  · intro hends
    obtain ⟨c', hc', hlast⟩ := hends.exists_end ho
    obtain ⟨hI, hsteps⟩ := h.steps hc hc'
    obtain ⟨d, hd, hsame⟩ := h.same hI
    refine .of_steps (hsteps.trans hd) ?_
    rcases hlast with ⟨w, m, hw, rfl⟩ | ⟨e, he, rfl⟩
    · exact .of_finished (hsame.trans (congrArg _ hw))
    · exact .of_failed (hsame.trans (congrArg _ he))
  · intro hends
    obtain ⟨n, hrun⟩ := hends.executes ho
    clear hends
    induction n using Nat.strongRecOn generalizing c with
    | _ n ih =>
      obtain ⟨d, hd, hsame⟩ := h.same hc
      obtain ⟨k, hn, hrun⟩ := Executes.of_steps hd hrun
      have hfirst := hrun.first
      rw [hsame] at hfirst
      cases hstep : step p c with
      | running c' =>
        rw [hstep] at hfirst
        obtain ⟨j, hj, hrun⟩ := hfirst
        exact .of_next hstep (ih j (Nat.lt_of_lt_of_le hj hn) (h.kept hc hstep) hrun)
      | finished w m =>
        rw [hstep] at hfirst
        exact hfirst ▸ .of_finished hstep
      | failed e =>
        rw [hstep] at hfirst
        exact hfirst ▸ .of_failed hstep

/-! ## An operation on its destination -/

variable {m m1 : Machine} {fr fr1 : Frame}

theorem RegFile.ext_get {r r' : RegFile} (h : ∀ q, r.get q = r'.get q) : r = r' := by
  obtain ⟨cells⟩ := r
  obtain ⟨cells'⟩ := r'
  congr 1
  ext k hk
  obtain ⟨q, rfl⟩ : ∃ q : PhysReg, q.index.val = k := by
    have hall : ∀ k : Fin 16, ∃ q ∈ PhysReg.all, q.index = k := by decide
    obtain ⟨q, -, hq⟩ := hall ⟨k, hk⟩
    exact ⟨q, congrArg Fin.val hq⟩
  rw [← get_eq ⟨cells⟩, h q, get_eq]

/-- A value that is overwritten before anything else reads it does not matter. -/
theorem assign_again {dst : Operand} {l : Word} (h : assign m fr dst l = .ok (m1, fr1)) (w : Word) :
    assign m1 fr1 dst w = assign m fr dst w := by
  cases dst with
  | vreg v =>
    simp only [assign] at h ⊢
    split at h
    · next hv =>
      cases h
      simp [hv]
    · cases h
  | phys p =>
    cases h
    simp only [assign]
    congr 3
    exact RegFile.ext_get fun q => by simp only [RegFile.get_set]; split <;> rfl
  | imm | static => cases h

theorem divide_again {dst : Operand} {l : Word} (h : assign m fr dst l = .ok (m1, fr1)) (op : BinOp)
    (a b : Word) : divide m1 fr1 dst op a b = divide m fr dst op a b := by
  unfold divide
  split
  · cases dst with
    | phys p =>
      cases h
      simp only [assign]
      congr 3
      exact RegFile.ext_get fun q => by simp only [RegFile.get_set]; split <;> rfl
    | vreg | imm | static => exact assign_again h _
  · rfl

/-- An operation on its destination, to which the left operand was moved, is the operation on its
operands: nothing but the destination has changed, and that is not the right operand. -/
theorem compute_moved {dst lhs rhs : Operand} {op : BinOp} {l : Word} (hl : value m fr lhs = .ok l)
    (hne : dst ≠ rhs) (h : assign m fr dst l = .ok (m1, fr1)) :
    compute m1 fr1 (.binary dst op dst rhs) = compute m fr (.binary dst op lhs rhs) := by
  obtain ⟨d, hd, hregs, hm, hfr⟩ := regValue_assign h
  have hdst : value m1 fr1 dst = .ok l := (value_eq_of_reg? hd).2 (by rw [hregs, if_pos rfl])
  have hrhs : value m1 fr1 rhs = value m fr rhs := by
    rw [hm, hfr] at hregs ⊢
    cases rhs with
    | vreg v =>
      have hne' : Reg.virt v ≠ d := fun heq => hne (by subst heq; cases dst <;> cases hd; rfl)
      have hv := hregs (.virt v)
      rw [if_neg hne'] at hv
      simp only [value]
      rw [show (fr1.regs[v]?).join = (fr.regs[v]?).join from hv]
    | phys p =>
      have hne' : Reg.phys p ≠ d := fun heq => hne (by subst heq; cases dst <;> cases hd; rfl)
      have hp := hregs (.phys p)
      rw [if_neg hne'] at hp
      simp only [value]
      rw [show m1.regs.get p = m.regs.get p from hp]
    | imm | static => rfl
  simp only [compute, hdst, hrhs, hl, Except.ok_bind, assign_again h, divide_again h]

end MxStar.Interp

namespace MxStar.Pass

open IR Interp List

variable {p : Program} {f : Func} {m : Machine} {fr : Frame} {k : List Caller} {i : Instr}
  {rest : List Instr}

/-! ## The image of a configuration -/

abbrev rewrittenCode (code : List Instr) : List Instr := code.flatMap twoOperandInstr

abbrev rewritten : Config → Config := .relabel twoOperandFunc rewrittenCode

theorem relabels_twoOperand : Relabels twoOperandFunc rewrittenCode :=
  ⟨fun _ => rfl, fun f b => f.code_expandAll twoOperandInstr b⟩

theorem enter_twoOperandFunc (f : Func) (args : List Word) :
    Frame.enter (twoOperandFunc f) args = (Frame.enter f args).relabel twoOperandFunc rewrittenCode := by
  simp only [Frame.enter, Frame.relabel, ← relabels_twoOperand.code]
  rfl

theorem functions_twoOperand (p : Program) (id : FuncId) :
    (twoOperand p).functions[id]? = p.functions[id]?.map twoOperandFunc := by
  rw [twoOperand, Program.mapFunctions, Array.getElem?_map]

theorem step_rewritten (hcode : fr.code = i :: rest) (hi : twoOperandInstr i = [i]) :
    step (twoOperand p) (rewritten ⟨m, fr, k⟩) = (step p ⟨m, fr, k⟩).map rewritten :=
  step_relabel relabels_twoOperand hcode (by simp [rewrittenCode, hi]) fun _ id _ _ _ =>
    ⟨functions_twoOperand p id, fun f _ ws => enter_twoOperandFunc f ws⟩

/-! ## Steps and runs -/

/-- The operand is a register of the function, or one of the machine. -/
def IsRegister (f : Func) : Operand → Prop
  | .vreg v => v < f.vregCount
  | .phys _ => True
  | .imm _ | .static _ => False

def WritesRegisters (f : Func) (code : List Instr) : Prop :=
  ∀ dst op lhs rhs, .binary dst op lhs rhs ∈ code → IsRegister f dst

/-- The frame has the registers of its function, and the code that is left writes registers. -/
structure Fits (fr : Frame) : Prop where
  func : WritesRegisters fr.func fr.func.allInstrs
  size : fr.regs.size = fr.func.vregCount
  code : WritesRegisters fr.func fr.code

def AllFit (c : Config) : Prop := Fits c.frame ∧ ∀ cl ∈ c.callers, Fits cl.frame

theorem WritesRegisters.block (h : WritesRegisters f f.allInstrs) (b : BlockId) :
    WritesRegisters f (f.code b) := by
  intro dst op lhs rhs hi
  obtain ⟨block, hblock, hi⟩ := Func.mem_code hi
  exact h dst op lhs rhs (mem_flatMap.2 ⟨block, Array.mem_toList_iff.2 hblock, hi⟩)

theorem Fits.goto (h : Fits fr) (b : BlockId) : Fits (fr.goto b) := { h with code := h.func.block b }

theorem Fits.past (h : Fits fr) (hcode : fr.code = i :: rest) (pushed : List Word) :
    Fits { fr with code := rest, pushed := pushed } :=
  { h with code := fun dst op lhs rhs hi => h.code dst op lhs rhs (hcode ▸ mem_cons_of_mem _ hi) }

theorem Fits.keeps {dst : Option Operand} {fr' : Frame} (h : Fits fr) (hk : Keeps dst fr fr') :
    Fits fr' := by
  refine ⟨?_, ?_, ?_⟩
  · rw [hk.func]
    exact h.func
  · rw [hk.size, hk.func]
    exact h.size
  · rw [hk.func, hk.code]
    exact h.code

theorem fits_enter (hf : WritesRegisters f f.allInstrs) (args : List Word) : Fits (.enter f args) :=
  ⟨hf, (size_foldl_set ..).trans Array.size_replicate, hf.block f.entry⟩

theorem allFit_step (hp : ∀ f ∈ p.functions, WritesRegisters f f.allInstrs) {c d : Config}
    (h : AllFit c) (hs : step p c = .running d) : AllFit d := by
  obtain ⟨m, fr, k⟩ := c
  obtain ⟨hfr, hk⟩ := h
  obtain ⟨i, rest, hcode, hgoes⟩ := goes hs
  cases hgoes with
  | action hi hact happly => exact ⟨(hfr.past hcode _).keeps (Action.apply_keeps happly), hk⟩
  | jump | branch => exact ⟨hfr.goto _, hk⟩
  | ret hfin =>
    obtain ⟨hcl, hk⟩ := forall_mem_cons.1 hk
    exact ⟨hcl.keeps (finishCall_keeps hfin), hk⟩
  | builtin hb hfin => exact ⟨(hfr.past hcode []).keeps (finishCall_keeps hfin), hk⟩
  | enter hf =>
    exact ⟨fits_enter (hp _ (Array.mem_of_getElem? hf)) _,
      forall_mem_cons.2 ⟨hfr.past hcode [], hk⟩⟩

theorem exists_assign (fr : Frame) {dst : Operand} (hdst : IsRegister fr.func dst)
    (hsize : fr.regs.size = fr.func.vregCount) (w : Word) : ∃ m' fr', assign m fr dst w = .ok (m', fr') := by
  cases dst with
  | vreg v => exact ⟨_, _, by rw [assign, if_pos (by rw [hsize]; exact hdst)]⟩
  | phys q => exact ⟨_, _, rfl⟩
  | imm | static => exact hdst.elim

/-- An operation with three operands is done by a move and an operation with two. -/
theorem step_threeOperand {dst lhs rhs : Operand} {op : BinOp} (h : Fits fr)
    (hcode : fr.code = .binary dst op lhs rhs :: rest) (hl : dst ≠ lhs) (hr : dst ≠ rhs) :
    ∃ d, Steps (twoOperand p) (rewritten ⟨m, fr, k⟩) d ∧
      step (twoOperand p) d = (step p ⟨m, fr, k⟩).map rewritten := by
  have hcode' : (fr.relabel twoOperandFunc rewrittenCode).code =
      .move dst lhs :: .binary dst op dst rhs :: rewrittenCode rest := by
    simp [Frame.relabel, rewrittenCode, hcode, twoOperandInstr, hl, hr]
  have hvalue : value m (fr.relabel twoOperandFunc rewrittenCode) lhs = value m fr lhs :=
    value_relabel rfl lhs
  cases hvl : value m fr lhs with
  | error e =>
    refine ⟨_, .refl, ?_⟩
    rw [rewritten, Config.relabel, step_eq_compute hcode' ⟨rfl, rfl⟩, step_eq_compute hcode ⟨rfl, rfl⟩]
    simp only [compute, value_withCode, hvalue, hvl]
    rfl
  | ok l =>
    obtain ⟨m1, fr1, hassign⟩ := exists_assign (m := m) { fr with code := rest }
      (h.code dst op lhs rhs (hcode ▸ mem_cons_self)) h.size l
    have hkeeps := assign_keeps hassign
    refine ⟨⟨m1, { fr1 with
      func := twoOperandFunc fr.func
      code := .binary dst op dst rhs :: rewrittenCode rest }, (rewritten ⟨m, fr, k⟩).callers⟩, .one ?_, ?_⟩
    · rw [rewritten, Config.relabel, step_eq_compute hcode' ⟨rfl, rfl⟩]
      simp only [compute, value_withCode, hvalue, hvl, Except.ok_bind]
      change Progress.ofExcept (assign m { { fr with code := rest } with
        func := twoOperandFunc fr.func
        code := .binary dst op dst rhs :: rewrittenCode rest } dst l >>= _) = _
      rw [assign_relabel, hassign]
      rfl
    · rw [step_eq_compute rfl ⟨rfl, rfl⟩, step_eq_compute hcode ⟨rfl, rfl⟩]
      have hmoved : compute m1 fr1 (.binary dst op dst rhs) = _ :=
        compute_moved ((value_withCode m fr rest lhs).trans hvl) hr hassign
      have hname : (twoOperandFunc fr.func).name = fr1.func.name := by
        rw [hkeeps.func]
        rfl
      exact ofExcept_relabel (m := m) ((compute_relabel fr1 hname _).trans (congrArg _ hmoved))
        fun _ _ hx => ⟨(compute_keeps ⟨rfl, rfl⟩ hx).func, (compute_keeps ⟨rfl, rfl⟩ hx).code⟩

/-- From the image of a configuration, code in two-operand form gets to where it does what the code
did. -/
theorem mirrors_twoOperand (hp : ∀ f ∈ p.functions, WritesRegisters f f.allInstrs) :
    Mirrors p (twoOperand p) AllFit rewritten where
  kept := allFit_step hp
  same := by
    rintro ⟨m, fr, k⟩ ⟨hfr, -⟩
    cases hcode : fr.code with
    | nil =>
      refine ⟨_, .refl, ?_⟩
      have hcode' : (fr.relabel twoOperandFunc rewrittenCode).code = [] := by
        rw [Frame.relabel, hcode]
        rfl
      simp only [Config.relabel, step, hcode, hcode']
      rfl
    | cons i rest =>
      by_cases hi : twoOperandInstr i = [i]
      · exact ⟨_, .refl, step_rewritten hcode hi⟩
      · cases i with
        | binary dst op lhs rhs =>
          simp only [twoOperandInstr] at hi
          split at hi
          · next hne =>
            obtain ⟨hl, hr⟩ : dst ≠ lhs ∧ dst ≠ rhs := by simpa using hne
            exact step_threeOperand hfr hcode hl hr
          · exact absurd rfl hi
        | _ => exact absurd rfl hi

theorem twoOperandInstr_idem (i : Instr) :
    ∀ j ∈ twoOperandInstr i, twoOperandInstr j = [j] ∧ isThreeOperand j = false := by
  cases i with
  | binary dst op lhs rhs =>
    intro j hj
    simp only [twoOperandInstr] at hj
    split at hj
    · rcases mem_cons.1 hj with rfl | hj
      · exact ⟨rfl, rfl⟩
      · rw [mem_singleton.1 hj]
        simp [twoOperandInstr, isThreeOperand]
    · next hne =>
      rw [mem_singleton.1 hj]
      exact ⟨if_neg hne, by simpa [isThreeOperand] using hne⟩
  | _ =>
    intro j hj
    obtain rfl := mem_singleton.1 hj
    exact ⟨rfl, rfl⟩

theorem flatMap_twoOperandInstr_idem (code : List Instr) :
    (code.flatMap twoOperandInstr).flatMap twoOperandInstr = code.flatMap twoOperandInstr := by
  rw [flatMap_assoc]
  refine flatMap_congr fun i _ => ?_
  refine (flatMap_congr fun j hj => (twoOperandInstr_idem i j hj).1).trans ?_
  exact flatMap_singleton' _

/-- **Two-operand form is an equivalence.** No operation is left whose destination is neither of its
operands, a second rewriting changes nothing, and every call ends as before, and in no other way. -/
theorem twoOperand_equivalent (hp : ∀ f ∈ p.functions, WritesRegisters f f.allInstrs) :
    (∀ f ∈ (twoOperand p).functions, ∀ dst op lhs rhs,
      .binary dst op lhs rhs ∈ f.allInstrs → dst = lhs ∨ dst = rhs) ∧
    twoOperand (twoOperand p) = twoOperand p ∧
    ∀ id args input o, o ≠ .error .outOfFuel →
      (CallEnds p id args input o ↔ CallEnds (twoOperand p) id args input o) := by
  refine ⟨?_, ?_, ?_⟩
  · intro f hf dst op lhs rhs hi
    obtain ⟨g, -, rfl⟩ := Array.mem_map.1 hf
    rw [twoOperandFunc, Func.allInstrs_expandAll] at hi
    obtain ⟨i, -, hi⟩ := mem_flatMap.1 hi
    simpa [isThreeOperand, or_iff_not_imp_left] using (twoOperandInstr_idem i _ hi).2
  · simp [twoOperand, Program.mapFunctions, Function.comp_def, twoOperandFunc, Func.expandAll,
      flatMap_twoOperandInstr_idem]
  · intro id args input o ho
    cases hf : p.functions[id]? with
    | none =>
      have hf' : (twoOperand p).functions[id]? = none := by rw [functions_twoOperand, hf]; rfl
      simp only [CallEnds, call, hf, hf']
    | some f =>
      have hf' : (twoOperand p).functions[id]? = some (twoOperandFunc f) := by
        rw [functions_twoOperand, hf]
        rfl
      rw [callEnds_iff hf, callEnds_iff hf']
      have hstart : Config.start (twoOperand p) (twoOperandFunc f) args input =
          rewritten (.start p f args input) := by
        rw [Config.start, enter_twoOperandFunc]
        rfl
      rw [hstart]
      exact (mirrors_twoOperand hp).ends_iff
        ⟨fits_enter (hp f (Array.mem_of_getElem? hf)) args, fun cl hcl => by cases hcl⟩ ho

/-- Takes the remainder of a division by four into a register of the machine, and returns the quotient. -/
def divmod : Program where
  functions := #[{
    name := "divmod"
    label := "divmod"
    params := [0]
    blocks := #[{
      name := "entry"
      instrs := [.binary (.phys .rdx) .mod (.vreg 0) (.imm 4), .ret (some (.phys .rax))] }]
    layout := [0]
    hints := #["n"] }]

theorem callEnds_twoOperand_divmod : CallEnds (twoOperand divmod) 0 [-7] "" (.ok ⟨-1, ""⟩) := by
  refine ((twoOperand_equivalent ?_).2.2 0 [-7] "" _ (by simp)).1 ⟨2, by decide +kernel⟩
  intro f hf dst op lhs rhs hi
  obtain rfl := mem_singleton.1 (mem_toArray.1 hf)
  simp only [Func.allInstrs, flatMap_cons, flatMap_nil, append_nil, mem_cons, not_mem_nil, or_false,
    Instr.binary.injEq, reduceCtorEq] at hi
  rw [hi.1]
  trivial

end MxStar.Pass
