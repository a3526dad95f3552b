import MxStar.Proofs.BlockRuns
import MxStar.Proofs.DefinedCode

/-!
Runs of defined programs.

A program that is defined never does what has no meaning. `Holds K m fr` says that all that is known at a
place is so in a machine and a frame, and `Stands p callable c` is the invariant of a run: in every frame,
all that the code that is left reads is written or will be (`Stands.step`).
-/
namespace MxStar.Interp

open IR List

variable {i : Instr} {a : Address} {c : Config}

/-! ## Results -/

/-- The computation gives what `Q` says, or fails as a program with a meaning can. -/
def Safely {α : Type} (Q : α → Prop) : Except RunError α → Prop
  | .ok a => Q a
  | .error e => e.Definite

theorem Safely.bind {α β : Type} {P : α → Prop} {Q : β → Prop} {x : Except RunError α}
    {f : α → Except RunError β} (hx : Safely P x) (hf : ∀ a, P a → Safely Q (f a)) :
    Safely Q (x >>= f) := by
  cases x with
  | ok a => exact hf a hx
  | error e => exact hx

theorem Safely.of_error {α : Type} {x : Except RunError α}
    (h : ∀ e, x = .error e → e.Definite) : Safely (fun _ => True) x := by
  cases x with
  | ok a => trivial
  | error e => exact h e rfl

/-! ## One instruction -/

/-- What is known is so. -/
structure Holds (K : Known) (m : Machine) (fr : Frame) : Prop where
  statics : m.statics.size = K.statics
  regs : fr.regs.size = K.regs
  written : ∀ v, K.Has v → ∃ w, fr.reg v = some w

variable {K : Known} {m : Machine} {fr : Frame}

theorem staticAddress_exists (h : Holds K m fr) {s : StaticId} (hs : s < K.statics) :
    ∃ w, m.staticAddress s = .ok w := by
  rw [← h.statics] at hs
  exact ⟨m.statics[s], by simp [Machine.staticAddress, hs]⟩

theorem value_exists (h : Holds K m fr) {o : Operand} (ho : o.Within K) :
    ∃ w, value m fr o = .ok w := by
  cases o with
  | vreg v =>
    obtain ⟨w, hw⟩ := h.written v ho
    exact ⟨w, value_vreg.2 hw⟩
  | phys q => exact ho.elim
  | imm w => exact ⟨w, rfl⟩
  | static s => exact staticAddress_exists h ho

theorem address_exists (h : Holds K m fr) (ha : a.Within K) : ∃ w, address m fr a = .ok w := by
  cases a with
  | base b offset =>
    obtain ⟨w, hw⟩ := value_exists h ha
    exact ⟨w + offset, by rw [address, hw]; rfl⟩
  | static s => exact staticAddress_exists h ha
  | slot k => exact ha.elim
  | incoming k => exact ha.elim

theorem Holds.unchanged (h : Holds K m fr) {m' : Machine} {fr' : Frame} {D : Set VReg}
    (hstatics : m'.statics = m.statics) (hregs : fr'.regs = fr.regs) (hD : D ⊆ K.written) :
    Holds (K.having D) m' fr' where
  statics := hstatics ▸ h.statics
  regs := hregs ▸ h.regs
  written := by
    intro v hv
    rw [Frame.reg, hregs]
    exact h.written v ⟨hv.1, hD hv.2⟩

/-- What an instruction leads to: the same place of the frame, where also what it writes is known. -/
def Advances (K : Known) (fr : Frame) (i : Instr) (x : Machine × Frame) : Prop :=
  Resumes fr x.2 ∧ Holds (K.having (K.written ∪ i.writes)) x.1 x.2

theorem assign_safely (h : Holds K m fr) {dst : Operand} (hi : i.dst? = some dst)
    (hdst : dst.Writable K) (w : Word) : Safely (Advances K fr i) (assign m fr dst w) := by
  cases dst with
  | vreg v =>
    have hlt : v < fr.regs.size := h.regs ▸ hdst
    rw [assign, if_pos hlt]
    refine ⟨rfl, h.statics, (Array.size_setIfInBounds ..).trans h.regs, fun u hu => ?_⟩
    change ∃ w', ((fr.regs.setIfInBounds v (some w))[u]?).join = some w'
    rw [join_setIfInBounds _ _ _ _ hlt]
    split
    · exact ⟨w, rfl⟩
    · next hne =>
      rcases hu.2 with hold | hnew
      · exact h.written u ⟨hu.1, hold⟩
      · exact absurd (Operand.vreg.inj (Option.some.inj (hi.symm.trans hnew))) hne
  | phys q | imm w' | static s => exact hdst.elim

theorem divide_safely (h : Holds K m fr) {dst : Operand} (hi : i.dst? = some dst)
    (hdst : dst.Writable K) (op : BinOp) (l r : Word) :
    Safely (Advances K fr i) (divide m fr dst op l r) := by
  cases dst with
  | vreg v =>
    unfold divide
    split
    · exact assign_safely h hi hdst _
    · trivial
  | phys q | imm w' | static s => exact hdst.elim

theorem load_safely (h : Holds K m fr) (ha : a.Within K) :
    Safely (fun _ => True) (load m fr a) := by
  obtain ⟨w, hw⟩ := address_exists h ha
  have hread : Safely (fun _ => True) (address m fr a >>= m.memory.readWord) := by
    rw [hw]
    exact .of_error fun e he => (definiteIf_readWord true he).1
  cases a with
  | base b offset => exact hread
  | static s => exact hread
  | slot k => exact ha.elim
  | incoming k => exact ha.elim

theorem store_safely (h : Holds K m fr) (ha : a.Within K) (hi : i.dst? = none) (w : Word) :
    Safely (Advances K fr i) (store m fr a w) := by
  obtain ⟨target, htarget⟩ := address_exists h ha
  have hwrite : Safely (Advances K fr i) (do
      let target ← address m fr a
      let memory ← m.memory.writeWord target w
      return ({ m with memory := memory }, fr)) := by
    rw [htarget]
    refine Safely.bind (x := m.memory.writeWord target w)
      (.of_error fun e he => (definiteIf_writeWord true he).1) fun memory _ => ⟨rfl, ?_⟩
    refine h.unchanged rfl rfl (Set.union_subset subset_rfl fun v hv => ?_)
    exact absurd (hi.symm.trans hv) (by simp)
  cases a with
  | base b offset => exact hwrite
  | static s => exact hwrite
  | slot k => exact ha.elim
  | incoming k => exact ha.elim

/-- An instruction whose operands are known fails only as a program with a meaning can. -/
theorem compute_safely (h : Holds K m fr) (hsimple : IsSimple i) (hi : i.Within K) :
    Safely (Advances K fr i) (compute m fr i) := by
  cases i with
  | binary dst op lhs rhs =>
    obtain ⟨l, hl⟩ := value_exists h hi.2.1
    obtain ⟨r, hr⟩ := value_exists h hi.2.2
    simp only [compute, hl, hr, bind, Except.bind]
    split
    · exact divide_safely h rfl hi.1 op l r
    · split
      · exact assign_safely h rfl hi.1 _
      · trivial
  | unary dst op src | move dst src =>
    obtain ⟨w, hw⟩ := value_exists h hi.2
    simp only [compute, hw, bind, Except.bind]
    exact assign_safely h rfl hi.1 _
  | compare dst cond lhs rhs =>
    obtain ⟨l, hl⟩ := value_exists h hi.2.1
    obtain ⟨r, hr⟩ := value_exists h hi.2.2
    simp only [compute, hl, hr, bind, Except.bind]
    exact assign_safely h rfl hi.1 _
  | load dst a => exact .bind (load_safely h hi.2) fun w _ => assign_safely h rfl hi.1 w
  | store a src =>
    obtain ⟨w, hw⟩ := value_exists h hi.2
    simp only [compute, hw, bind, Except.bind]
    exact store_safely h hi.1 rfl w
  | push src => exact hi.elim
  | call dst callee args n => exact absurd hsimple.2 (by simp [Instr.isCall])
  | jump t | branch cond lhs rhs t e | ret v =>
    exact absurd hsimple.1 (by simp [Instr.isTerminator])

theorem finishCall_safely (h : Holds K m fr) {dst : Option Operand} (callee : Callee)
    (args : List Operand) (n : Nat) (hdst : ∀ o ∈ dst, o.Writable K) (w : Word) :
    Safely (Advances K fr (.call dst callee args n)) (finishCall m fr dst w) := by
  have h' : Holds K { m with regs := (m.regs.clear PhysReg.callerSaved).set .rax (some w) } fr :=
    h.unchanged rfl rfl subset_rfl
  cases dst with
  | none =>
    refine ⟨rfl, h.unchanged rfl rfl (Set.union_subset subset_rfl fun v hv => ?_)⟩
    cases hv
  | some o => exact assign_safely h' rfl (hdst o rfl) w

/-! ## Frames -/

/-- The function of a frame is defined with these sets of registers, and its registers exist. -/
structure Rests (statics : Nat) (callable : FuncId → Prop) (starts : BlockId → Set VReg)
    (fr : Frame) : Prop where
  ends : ∀ b, b < fr.func.blocks.size → EndsOnce (fr.func.code b)
  blocks : ∀ b, b < fr.func.blocks.size →
    Grounded (fr.func.known statics callable starts) (starts b) (fr.func.code b)
  here : EndsOnce fr.code
  regs : fr.regs.size = fr.func.vregCount

/-- The registers of a set have values, as far as they exist. -/
def Frame.Defines (fr : Frame) (D : Set VReg) : Prop :=
  ∀ v, v < fr.func.vregCount → v ∈ D → ∃ w, fr.reg v = some w

/-- All that the code that is left reads has a value. -/
def Running (statics : Nat) (callable : FuncId → Prop) (fr : Frame) : Prop :=
  ∃ starts D, Rests statics callable starts fr ∧ fr.Defines D ∧
    Grounded (fr.func.known statics callable starts) D fr.code

/-- All that the code that is left reads has a value, once the result of a call is written. -/
def Waiting (statics : Nat) (callable : FuncId → Prop) (cl : Caller) : Prop :=
  ∃ starts D, Rests statics callable starts cl.frame ∧ cl.frame.Defines D ∧
    (∀ o ∈ cl.dst, o.Writable (cl.frame.func.known statics callable starts)) ∧
    Grounded (cl.frame.func.known statics callable starts) (D ∪ { v | cl.dst = some (.vreg v) })
      cl.frame.code

/-- What holds in a run of a defined program. -/
structure Stands (p : Program) (callable : FuncId → Prop) (c : Config) : Prop where
  statics : c.machine.statics.size = p.statics.size
  frame : Running p.statics.size callable c.frame
  callers : ∀ cl ∈ c.callers, Waiting p.statics.size callable cl

section Frames

variable {statics : Nat} {callable : FuncId → Prop} {starts : BlockId → Set VReg} {D : Set VReg}

theorem Rests.holds (h : Rests statics callable starts fr) (hm : m.statics.size = statics)
    (hD : fr.Defines D) : Holds ((fr.func.known statics callable starts).having D) m fr :=
  ⟨hm, h.regs, fun v hv => hD v hv.1 hv.2⟩

theorem Rests.past (h : Rests statics callable starts fr) {rest : List Instr}
    (hcode : fr.code = i :: rest) (hi : i.isTerminator = false) (pushed : List Word) :
    Rests statics callable starts { fr with code := rest, pushed := pushed } :=
  { h with here := (h.here.of_suffix (hcode ▸ suffix_refl _)).2 hi }

theorem Rests.running (h : Rests statics callable starts fr) {x : Machine × Frame}
    (hx : Advances ((fr.func.known statics callable starts).having D) fr i x)
    (hcode : Grounded (fr.func.known statics callable starts) (D ∪ i.writes) fr.code) :
    Running statics callable x.2 := by
  obtain ⟨m', fr'⟩ := x
  obtain ⟨hres, hholds⟩ := hx
  dsimp only at hres hholds ⊢
  rw [hres] at hholds ⊢
  refine ⟨starts, D ∪ i.writes, { h with regs := hholds.regs }, fun v hlt hv => ?_, hcode⟩
  exact hholds.written v ⟨hlt, hv⟩

theorem Rests.goto (h : Rests statics callable starts fr) (hD : fr.Defines D) {t : BlockId}
    (ht : ((fr.func.known statics callable starts).having D).Enters t) :
    Running statics callable (fr.goto t) := by
  refine ⟨starts, starts t, { h with here := h.ends t ht.1 }, fun v hlt hv => ?_, h.blocks t ht.1⟩
  exact hD v hlt (ht.2 hv)

theorem regs_enter_params (args : List Word) (params : List (VReg × Nat))
    (regs : Array (Option Word)) (hparams : ∀ x ∈ params, x.1 < regs.size) :
    let regs' := params.foldl (fun regs (v, i) => regs.setIfInBounds v (some (args.getD i 0))) regs
    regs'.size = regs.size ∧
      ∀ v, ((∃ w, (regs[v]?).join = some w) ∨ ∃ i, (v, i) ∈ params) →
        ∃ w, (regs'[v]?).join = some w := by
  induction params generalizing regs with
  | nil =>
    refine ⟨rfl, fun v hv => ?_⟩
    rcases hv with hv | ⟨i, hi⟩
    · exact hv
    · cases hi
  | cons x params ih =>
    obtain ⟨u, i⟩ := x
    have hu : u < regs.size := hparams (u, i) mem_cons_self
    have hsize : (regs.setIfInBounds u (some (args.getD i 0))).size = regs.size :=
      Array.size_setIfInBounds
    obtain ⟨hsize', hwritten⟩ := ih (regs.setIfInBounds u (some (args.getD i 0)))
      fun x hx => hsize ▸ hparams x (mem_cons_of_mem _ hx)
    refine ⟨hsize'.trans hsize, fun v hv => hwritten v ?_⟩
    rw [join_setIfInBounds _ _ _ _ hu]
    by_cases huv : u = v
    · exact .inl ⟨_, if_pos huv⟩
    · rw [if_neg huv]
      rcases hv with hv | ⟨j, hj⟩
      · exact .inl hv
      · rcases mem_cons.1 hj with heq | hj
        · exact absurd (Prod.mk.inj heq).1.symm huv
        · exact .inr ⟨j, hj⟩

theorem running_enter {f : Func} (h : f.Defined statics callable) (args : List Word) :
    Running statics callable (.enter f args) := by
  obtain ⟨starts, hentry, hblocks⟩ := h.grounded
  have hregs := regs_enter_params args f.params.zipIdx (Array.replicate f.vregCount none)
    fun x hx => by simpa using h.params x.1 (fst_mem_of_mem_zipIdx hx)
  refine ⟨starts, starts f.entry, ⟨h.ends, hblocks, h.ends _ h.entry, ?_⟩, fun v _ hv => ?_,
    hblocks _ h.entry⟩
  · exact hregs.1.trans Array.size_replicate
  · obtain ⟨i, hi⟩ := mem_iff_getElem?.1 (hentry hv)
    exact hregs.2 v (.inr ⟨i, mk_mem_zipIdx_iff_getElem?.2 hi⟩)

end Frames

/-! ## Steps and runs -/

/-- What a step leads to is as `Q` says, or it fails as a program with a meaning can. -/
def Progress.Safe (Q : Config → Prop) : Progress → Prop
  | .running c => Q c
  | .finished _ _ => True
  | .failed e => e.Definite

theorem Safely.progress {Q : Config → Prop} {x : Except RunError Config} (h : Safely Q x) :
    (Progress.ofExcept x).Safe Q := by
  cases x with
  | ok c => exact h
  | error e => exact h

section Steps

variable {p : Program} {callable : FuncId → Prop} {k : List Caller} {rest : List Instr}
  (hp : ∀ id, callable id → ∃ f, p.functions[id]? = some f ∧ f.Defined p.statics.size callable)

theorem mapM_value_exists (h : Holds K m fr) {args : List Operand} (hargs : ∀ o ∈ args, o.Within K) :
    ∃ ws, args.mapM (value m fr) = .ok ws := by
  induction args with
  | nil => exact ⟨[], rfl⟩
  | cons o args ih =>
    obtain ⟨w, hw⟩ := value_exists h (hargs o mem_cons_self)
    obtain ⟨ws, hws⟩ := ih fun o ho => hargs o (mem_cons_of_mem _ ho)
    exact ⟨w :: ws, by simp [mapM_cons, hw, hws, bind, Except.bind, pure, Except.pure]⟩

include hp

theorem stepCall_safely {starts : BlockId → Set VReg} {D : Set VReg} {dst : Option Operand}
    {callee : Callee} {args : List Operand} {n : Nat} (hm : m.statics.size = p.statics.size)
    (hk : ∀ cl ∈ k, Waiting p.statics.size callable cl)
    (hfr : Rests p.statics.size callable starts fr) (hD : fr.Defines D)
    (hcode : fr.code = .call dst callee args n :: rest)
    (hi : (Instr.call dst callee args n).Within
      ((fr.func.known p.statics.size callable starts).having D))
    (hrest : Grounded (fr.func.known p.statics.size callable starts)
      (D ∪ (Instr.call dst callee args n).writes) rest) :
    Safely (Stands p callable) (stepCall p ⟨m, { fr with code := rest }, k⟩ dst callee args) := by
  have hrests := hfr.past hcode rfl
  have hholds : Holds ((fr.func.known p.statics.size callable starts).having D) m
      { fr with code := rest } := (hrests fr.pushed).holds hm hD
  obtain ⟨ws, hws⟩ := mapM_value_exists hholds hi.2.2
  unfold stepCall
  dsimp only
  rw [hws]
  cases callee with
  | builtin b =>
    refine Safely.bind (P := fun x => x.2.statics = m.statics) (x := m.callBuiltin b _) ?_ ?_
    · cases hb : m.callBuiltin b (ws ++ fr.pushed) with
      | ok x => exact callBuiltin_statics hb
      | error e => exact (callBuiltin_error hb).definiteIf.1
    · intro x hx
      have hholds' := (hrests []).holds (m := x.2) (hx ▸ hm) hD
      refine Safely.bind (finishCall_safely hholds' (.builtin b) args n hi.1 x.1)
        fun y hy => ?_
      exact ⟨hy.2.statics, (hrests []).running hy hrest, hk⟩
  | func id =>
    obtain ⟨f, hf, hdef⟩ := hp id hi.2.1
    change Safely _ (if maxDepth ≤ k.length + 1 then _ else _)
    split
    · trivial
    · rw [hf]
      refine ⟨hm, running_enter hdef _, fun cl hcl => ?_⟩
      rcases mem_cons.1 hcl with rfl | hcl
      · exact ⟨starts, D, hrests [], hD, hi.1, hrest⟩
      · exact hk cl hcl

omit hp in
theorem stepReturn_safely {v : Option Operand} (hv : ∀ o ∈ v, o.Within K)
    (h : Holds K c.machine c.frame) (hm : c.machine.statics.size = p.statics.size)
    (hk : ∀ cl ∈ c.callers, Waiting p.statics.size callable cl) :
    (stepReturn c v).Safe (Stands p callable) := by
  have hw : ∃ w, v.elim (.ok 0) (value c.machine c.frame) = .ok w := by
    cases v with
    | none => exact ⟨0, rfl⟩
    | some o => exact value_exists h (hv o rfl)
  obtain ⟨w, hw⟩ := hw
  unfold stepReturn
  rw [hw]
  dsimp only
  split
  · trivial
  · next cl callers hcallers =>
    rw [hcallers] at hk
    obtain ⟨starts, D, hrests, hD, hdst, hcode⟩ := hk cl mem_cons_self
    have hholds := hrests.holds (m := { c.machine with regs := c.machine.regs.setMany cl.saved }) hm hD
    refine (Safely.bind (finishCall_safely hholds (.func 0) [] 0 hdst w)
      fun x hx => ?_).progress
    exact ⟨hx.2.statics, hrests.running hx hcode, fun cl' hcl' => hk cl' (mem_cons_of_mem _ hcl')⟩

theorem Stands.step (h : Stands p callable c) : (step p c).Safe (Stands p callable) := by
  obtain ⟨m, fr, k⟩ := c
  obtain ⟨hm, ⟨starts, D, hrests, hD, hcode⟩, hk⟩ := h
  dsimp only at hm hrests hD hcode hk
  cases hfr : fr.code with
  | nil =>
    have hends := hrests.here
    rw [hfr] at hends
    obtain ⟨⟨i, hi, -⟩, -⟩ := hends
    cases hi
  | cons i rest =>
    rw [hfr] at hcode
    obtain ⟨hi, hrest⟩ := hcode
    have hholds := hrests.holds hm hD
    by_cases hsimple : IsSimple i
    · rw [step_eq_compute hfr hsimple]
      have hpast := hrests.past hfr hsimple.1 fr.pushed
      refine (Safely.bind (compute_safely (hpast.holds hm hD) hsimple hi) fun x hx => ?_).progress
      exact ⟨hx.2.statics, hpast.running hx hrest, hk⟩
    cases i with
    | call dst callee args n =>
      simp only [Interp.step, hfr]
      exact (stepCall_safely hp hm hk hrests hD hfr hi hrest).progress
    | jump t =>
      rw [step_jump hfr]
      exact ⟨hm, hrests.goto hD hi, hk⟩
    | branch cond lhs rhs t e =>
      obtain ⟨l, hl⟩ := value_exists hholds hi.1
      obtain ⟨r, hr⟩ := value_exists hholds hi.2.1
      rw [step_branch hfr hl hr]
      refine ⟨hm, hrests.goto hD ?_, hk⟩
      split
      · exact hi.2.2.1
      · exact hi.2.2.2
    | ret v =>
      simp only [Interp.step, hfr]
      exact stepReturn_safely hi (hholds.unchanged rfl rfl subset_rfl) hm hk
    | _ => exact absurd ⟨rfl, rfl⟩ hsimple

/-- A run of a defined program gives a value, or ends as a program with a meaning can, or is out of
fuel. -/
theorem runConfig_safely (h : Stands p callable c) (fuel : Nat) :
    ∀ e, runConfig p fuel c = .error e → e.Definite ∨ e = .outOfFuel := by
  induction fuel generalizing c with
  | zero =>
    intro e he
    rw [runConfig] at he
    split at he
    · next hfr =>
      obtain ⟨starts, D, hrests, -⟩ := h.frame
      obtain ⟨⟨i, hi, -⟩, -⟩ := hrests.here
      rw [hfr] at hi
      cases hi
    · exact .inr (Except.error.inj he).symm
  | succ fuel ih =>
    intro e he
    have hstep := h.step hp
    rw [runConfig] at he
    split at he
    · next d hd =>
      rw [hd] at hstep
      exact ih hstep e he
    · cases he
    · next e' he' =>
      rw [he'] at hstep
      obtain rfl := Except.error.inj he
      exact .inl hstep

end Steps

/-! ## Runs without checks -/

section Checks

variable {p : Program} {c d : Config} {m m' : Machine} {fr fr' : Frame} {w : Word}

theorem assign_checks {dst : Operand} (h : assign m fr dst w = .ok (m', fr')) : m'.checks = m.checks := by
  cases dst with
  | vreg v =>
    simp only [assign] at h
    split at h <;> cases h
    rfl
  | phys q =>
    cases h
    rfl
  | imm | static => cases h

theorem Action.apply_checks {a : Action} (h : a.apply m fr = .ok (m', fr')) : m'.checks = m.checks := by
  cases a with
  | write dst w => exact assign_checks h
  | divide dst op quot rem =>
    simp only [Action.apply] at h
    refine (assign_checks h).trans ?_
    cases dst <;> rfl
  | slot k w =>
    simp only [Action.apply] at h
    split at h <;> cases h
    rfl
  | memory | push =>
    cases h
    rfl

theorem finishCall_checks {dst : Option Operand} (h : finishCall m fr dst w = .ok (m', fr')) :
    m'.checks = m.checks := by
  cases dst with
  | none =>
    cases h
    rfl
  | some d => exact (assign_checks h).trans rfl

theorem step_checks (h : step p c = .running d) : d.machine.checks = c.machine.checks := by
  obtain ⟨m, fr, k⟩ := c
  obtain ⟨i, rest, -, hgoes⟩ := goes h
  cases hgoes with
  | action _ _ happly => exact Action.apply_checks happly
  | jump | branch | enter => rfl
  | ret hfin => exact (finishCall_checks hfin).trans rfl
  | builtin hb hfin => exact (finishCall_checks hfin).trans (callBuiltin_checks hb)

theorem runConfig_ne_overflow (hc : c.machine.checks = false) (fuel : Nat) :
    runConfig p fuel c ≠ .error .overflow := by
  induction fuel generalizing c with
  | zero =>
    rw [runConfig]
    split <;> simp
  | succ fuel ih =>
    rw [runConfig]
    split
    · next d hd => exact ih ((step_checks hd).trans hc)
    · simp
    · next e he =>
      intro h
      cases h
      obtain ⟨-, hyes⟩ | hvoid | ⟨hne, -⟩ := step_failed he
      · exact Bool.false_ne_true (hc.symm.trans (hyes rfl))
      · exact hvoid
      · exact hne rfl

end Checks

theorem size_statics_start (p : Program) (input : String) (checks : Bool) :
    (Machine.start p input checks).statics.size = p.statics.size :=
  Array.foldl_induction (motive := fun i (x : Array Word × Memory) => x.1.size = i) rfl
    fun _ _ hx => (Array.size_push _).trans (congrArg (· + 1) hx)

theorem run_safely {p : Program} (h : p.Defined) (input : String) (fuel : Nat) (checks : Bool) :
    ∀ e, run p input fuel checks = .error e →
      e.DefiniteIf checks ∨ e = .outOfFuel := by
  obtain ⟨callable, hp, -, id, hentry, hid⟩ := h
  obtain ⟨f, hf, hdef⟩ := hp id hid
  intro e he
  simp only [run, hentry, call, hf] at he
  have hstands : Stands p callable (.start p f [] input checks) :=
    ⟨size_statics_start p input checks, running_enter hdef [], fun cl hcl => absurd hcl (not_mem_nil)⟩
  refine (runConfig_safely hp hstands fuel e he).imp_left fun hdefinite => ⟨hdefinite, ?_⟩
  rintro rfl
  exact Bool.of_not_eq_false fun hno => runConfig_ne_overflow hno fuel he

end MxStar.Interp
