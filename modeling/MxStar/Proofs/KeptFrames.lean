import MxStar.Proofs.Registers

/-!
What an instruction leaves of its frame.

An instruction leaves its frame at the same place of the same function, and changes no register but the
one it writes (`compute_keeps`). What it does depends on its operands alone, so a frame of another
function, with code that begins with the same instruction, does the same (`step_relabel`).
-/
namespace MxStar.Interp

open IR

variable {m m' : Machine} {fr fr' : Frame} {w : Word}

/-! ## Registers that an instruction leaves alone -/

/-- A frame at the same place of the same function, in which at most one register has changed. -/
structure Keeps (dst : Option Operand) (fr fr' : Frame) : Prop where
  func : fr'.func = fr.func
  block : fr'.block = fr.block
  code : fr'.code = fr.code
  size : fr'.regs.size = fr.regs.size
  regs : ∀ v, dst ≠ some (.vreg v) → fr'.reg v = fr.reg v

theorem Keeps.refl (dst : Option Operand) (fr : Frame) : Keeps dst fr fr :=
  ⟨rfl, rfl, rfl, rfl, fun _ _ => rfl⟩

theorem assign_keeps {dst : Operand} (h : assign m fr dst w = .ok (m', fr')) :
    Keeps (some dst) fr fr' := by
  cases dst with
  | vreg v =>
    simp only [assign] at h
    split at h
    · next hv =>
      cases h
      refine ⟨rfl, rfl, rfl, Array.size_setIfInBounds, fun u hu => ?_⟩
      have hne : v ≠ u := fun heq => hu (by rw [heq])
      change ((fr.regs.setIfInBounds v (some w))[u]?).join = fr.reg u
      rw [join_setIfInBounds _ _ _ _ hv, if_neg hne]
      rfl
    · cases h
  | phys q =>
    cases h
    exact .refl _ _
  | imm | static => cases h

theorem finishCall_keeps {dst : Option Operand} (h : finishCall m fr dst w = .ok (m', fr')) :
    Keeps dst fr fr' := by
  cases dst with
  | none =>
    cases h
    exact .refl _ _
  | some d => exact assign_keeps h

/-- The operand that an action writes. -/
def Action.dst? : Action → Option Operand
  | .write dst _ | .divide dst .. => some dst
  | .memory _ | .slot .. | .push _ => none

theorem Action.apply_keeps {a : Action} (h : a.apply m fr = .ok (m', fr')) :
    Keeps a.dst? fr fr' := by
  cases a with
  | write | divide => exact assign_keeps h
  | slot =>
    simp only [Action.apply] at h
    split at h <;> cases h
    exact ⟨rfl, rfl, rfl, rfl, fun _ _ => rfl⟩
  | memory | push =>
    cases h
    exact ⟨rfl, rfl, rfl, rfl, fun _ _ => rfl⟩

theorem exists_action {i : Instr} (hi : IsSimple i) (h : compute m fr i = .ok (m', fr')) :
    ∃ vs a, Alloc.ActsAs i vs a ∧ a.apply m fr = .ok (m', fr') := by
  have hstep : step default ⟨m, { fr with code := i :: fr.code }, []⟩ = .running ⟨m', fr', []⟩ := by
    rw [step_eq_compute rfl hi]
    change Progress.ofExcept (compute m fr i >>= _) = _
    rw [h]
    rfl
  obtain ⟨_, _, hcode, hgoes⟩ := goes hstep
  obtain ⟨rfl, rfl⟩ := List.cons.inj hcode
  cases hgoes with
  | action _ hact happly => exact ⟨_, _, Alloc.actsAs hact, happly⟩
  | jump | branch => cases hi.1
  | builtin => cases hi.2

theorem compute_keeps {i : Instr} (hi : IsSimple i) (h : compute m fr i = .ok (m', fr')) :
    Keeps i.dst? fr fr' := by
  obtain ⟨vs, a, hacts, h⟩ := exists_action hi h
  have hkeeps := Action.apply_keeps h
  cases hacts with
  | write hdst =>
    rw [hdst]
    exact hkeeps
  | divide hi =>
    rw [hi]
    exact hkeeps
  | memory | slot | push => exact { hkeeps with regs := fun v _ => hkeeps.regs v (by simp [Action.dst?]) }

/-! ## Frames of another function -/

section Relabel

variable {f : Func} {code : List Instr}

theorem value_relabel (h : f.name = fr.func.name) (o : Operand) :
    value m { fr with func := f, code := code } o = value m fr o := by
  cases o <;> simp only [value, h]

theorem assign_relabel (dst : Operand) (w : Word) :
    assign m { fr with func := f, code := code } dst w =
      (assign m fr dst w).map fun x => (x.1, { x.2 with func := f, code := code }) := by
  cases dst with
  | vreg v =>
    simp only [assign]
    split <;> rfl
  | phys | imm | static => rfl

variable (fr) in
theorem compute_relabel (h : f.name = fr.func.name) (i : Instr) :
    compute m { fr with func := f, code := code } i =
      (compute m fr i).map fun x => (x.1, { x.2 with func := f, code := code }) := by
  cases i with
  | binary dst op lhs rhs =>
    simp only [compute, value_relabel h]
    cases value m fr lhs with
    | error => rfl
    | ok l =>
      cases value m fr rhs with
      | error => rfl
      | ok r =>
        simp only [Except.ok_bind, divide, assign_relabel]
        split <;> split <;> rfl
  | unary dst op src | move dst src =>
    simp only [compute, value_relabel h, assign_relabel]
    cases value m fr src <;> rfl
  | compare dst cond lhs rhs =>
    simp only [compute, value_relabel h, assign_relabel]
    cases value m fr lhs with
    | error => rfl
    | ok l => cases value m fr rhs <;> rfl
  | load dst a =>
    simp only [compute, assign_relabel]
    have hload : load m { fr with func := f, code := code } a = load m fr a := by
      cases a <;> simp only [load, address, value_relabel h, h]
    rw [hload]
    cases load m fr a <;> rfl
  | store a src =>
    simp only [compute, value_relabel h]
    cases value m fr src with
    | error => rfl
    | ok w =>
      have haddress : address m { fr with func := f, code := code } a = address m fr a := by
        cases a <;> simp only [address, value_relabel h]
      cases a with
      | slot k =>
        simp only [Except.ok_bind, store]
        split <;> rfl
      | base | static | incoming =>
        simp only [Except.ok_bind, store, haddress]
        cases address m fr _ with
        | error => rfl
        | ok t =>
          simp only [Except.ok_bind]
          cases m.memory.writeWord t w <;> rfl
  | push src =>
    simp only [compute, value_relabel h]
    cases value m fr src <;> rfl
  | call | jump | branch | ret => rfl

end Relabel

/-- The functions have other code, block by block, under the same names. -/
structure Relabels (F : Func → Func) (C : List Instr → List Instr) : Prop where
  name : ∀ f, (F f).name = f.name
  code : ∀ f b, (F f).code b = C (f.code b)

def Frame.relabel (F : Func → Func) (C : List Instr → List Instr) (fr : Frame) : Frame :=
  { fr with func := F fr.func, code := C fr.code }

def Config.relabel (F : Func → Func) (C : List Instr → List Instr) (c : Config) : Config :=
  ⟨c.machine, c.frame.relabel F C, c.callers.map fun cl => { cl with frame := cl.frame.relabel F C }⟩

def Progress.map (T : Config → Config) : Progress → Progress
  | .running c => .running (T c)
  | .finished w m => .finished w m
  | .failed e => .failed e

theorem Answers.of_map {q : Program} {R : Config → Config → Prop} {T : Config → Config} {d : Config}
    {x : Progress} (hr : ∀ c, R c (T c)) (h : step q d = x.map T) : Answers q R d x := by
  cases x with
  | running c => exact ⟨T c, .one h, hr c⟩
  | finished w m => exact ⟨d, m, .refl, h, rfl⟩
  | failed e => exact fun _ => ⟨d, .refl, h⟩

section Steps

variable {p q : Program} {F : Func → Func} {C : List Instr → List Instr} {k : List Caller} {i : Instr}
  {rest : List Instr}

/-- A call or a transfer of control fails with the first operand that cannot be read. -/
theorem step_unread {e : RunError} (hcode : fr.code = i :: rest) (hi : ¬IsSimple i)
    (h : i.sources.mapM (value m fr) = .error e) : step p ⟨m, fr, k⟩ = .failed e := by
  rw [← mapM_withCode m fr rest] at h
  cases i with
  | jump t => cases h
  | branch cond lhs rhs t e' =>
    simp only [step, hcode]
    rw [Instr.sources, List.mapM_cons] at h
    rcases Except.bind_eq_error.1 h with hl | ⟨l, hl, h⟩
    · rw [hl]
      rfl
    · rw [List.mapM_cons] at h
      rcases Except.bind_eq_error.1 h with h | ⟨ws, -, h⟩
      · rcases Except.bind_eq_error.1 h with hr | ⟨r, -, h⟩
        · rw [hl, hr]
          rfl
        · cases h
      · cases h
  | ret v =>
    simp only [step, hcode, stepReturn]
    cases v with
    | none => cases h
    | some o =>
      rw [Instr.sources, Option.toList, List.mapM_cons] at h
      rcases Except.bind_eq_error.1 h with ho | ⟨w, -, h⟩
      · simp only [Option.elim, ho]
      · cases h
  | call dst callee args n =>
    simp only [step, hcode, stepCall]
    rw [show args.mapM (value m { fr with code := rest }) = .error e from h]
    rfl
  | _ => exact absurd ⟨rfl, rfl⟩ hi

theorem map_ofExcept (T : Config → Config) (x : Except RunError Config) :
    (Progress.ofExcept x).map T = .ofExcept (x.map T) := by
  cases x <;> rfl

theorem finishCall_relabel (fr : Frame) (dst : Option Operand) (w : Word) :
    finishCall m (fr.relabel F C) dst w =
      (finishCall m fr dst w).map fun x => (x.1, x.2.relabel F C) := by
  cases dst with
  | none => rfl
  | some d =>
    change assign _ { fr with func := F fr.func, code := C fr.code } d w = (assign _ fr d w).map _
    rw [assign_relabel]
    cases hx : assign { m with regs := _ } fr d w with
    | error => rfl
    | ok x =>
      have hkeeps := assign_keeps hx
      simp only [Except.map, Frame.relabel, hkeeps.func, hkeeps.code]

/-- What an instruction leaves of a frame of another function is what it leaves of the frame, with the
function changed. -/
theorem ofExcept_relabel {x x' : Except RunError (Machine × Frame)}
    (hx' : x' = x.map fun y => (y.1, { y.2 with func := F fr.func, code := C rest }))
    (hx : ∀ m' fr', x = .ok (m', fr') → fr'.func = fr.func ∧ fr'.code = rest) :
    Progress.ofExcept (do
      let (m', fr') ← x'
      return ⟨m', fr', (Config.relabel F C ⟨m, fr, k⟩).callers⟩) =
    (Progress.ofExcept (do
      let (m', fr') ← x
      return ⟨m', fr', k⟩)).map (.relabel F C) := by
  rw [hx']
  cases x with
  | error => rfl
  | ok y =>
    obtain ⟨hfunc, hcode⟩ := hx y.1 y.2 rfl
    simp only [← hfunc, ← hcode]
    rfl

/-- An instruction that stays as it is does the same in a frame of another function. -/
theorem step_relabel (h : Relabels F C) (hcode : fr.code = i :: rest)
    (hi : C (i :: rest) = i :: C rest)
    (hcall : ∀ dst id args n, i = .call dst (.func id) args n →
      q.functions[id]? = p.functions[id]?.map F ∧ ∀ f ∈ p.functions[id]?, ∀ ws,
        Frame.enter (F f) ws = (Frame.enter f ws).relabel F C) :
    step q (.relabel F C ⟨m, fr, k⟩) = (step p ⟨m, fr, k⟩).map (.relabel F C) := by
  have hcode' : (fr.relabel F C).code = i :: C rest := by rw [Frame.relabel, hcode, hi]
  have hgoto : ∀ b, (fr.relabel F C).goto b = (fr.goto b).relabel F C := fun b => by
    simp only [Frame.goto, Frame.relabel, h.code]
  by_cases hsimple : IsSimple i
  · rw [Config.relabel, step_eq_compute hcode' hsimple, step_eq_compute hcode hsimple]
    exact ofExcept_relabel (m := m) (compute_relabel { fr with code := rest } (h.name _) i)
      fun _ _ hx => ⟨(compute_keeps hsimple hx).func, (compute_keeps hsimple hx).code⟩
  have hvalue : ∀ o, value m (fr.relabel F C) o = value m fr o := value_relabel (h.name _)
  have hread : i.sources.mapM (value m (fr.relabel F C)) = i.sources.mapM (value m fr) :=
    congrArg i.sources.mapM (funext hvalue)
  cases hvs : i.sources.mapM (value m fr) with
  | error e =>
    rw [Config.relabel, step_unread hcode' hsimple (hread.trans hvs), step_unread hcode hsimple hvs]
    rfl
  | ok vs =>
    have hr' := reads_iff.2 (hread.trans hvs)
    have hr := reads_iff.2 hvs
    cases i with
    | jump t =>
      rw [Config.relabel, step_jump hcode', step_jump hcode, hgoto]
      rfl
    | branch cond lhs rhs t e =>
      obtain ⟨l, r, hl, hrhs, rfl⟩ := reads_two.1 hr
      rw [Config.relabel, step_branch hcode' ((hvalue lhs).trans hl) ((hvalue rhs).trans hrhs),
        step_branch hcode hl hrhs, hgoto]
      rfl
    | ret v =>
      rw [Config.relabel, step_ret hcode' hr', step_ret hcode hr]
      cases k with
      | nil => rfl
      | cons cl k =>
        simp only [List.map_cons, map_ofExcept, finishCall_relabel]
        cases finishCall _ cl.frame cl.dst _ <;> rfl
    | call dst callee args n =>
      cases callee with
      | builtin b =>
        rw [Config.relabel, step_call_builtin hcode' hr', step_call_builtin hcode hr, map_ofExcept]
        change Progress.ofExcept (m.callBuiltin b (vs ++ fr.pushed) >>= _) = _
        cases m.callBuiltin b (vs ++ fr.pushed) with
        | error => rfl
        | ok x =>
          change Progress.ofExcept
            (finishCall x.2 (Frame.relabel F C { fr with code := rest, pushed := [] }) dst x.1 >>= _) = _
          rw [finishCall_relabel]
          change _ = Progress.ofExcept (Except.map _ (finishCall x.2 _ dst x.1 >>= _))
          cases finishCall x.2 { fr with code := rest, pushed := [] } dst x.1 <;> rfl
      | func id =>
        obtain ⟨hq, henter⟩ := hcall dst id args n rfl
        rw [Config.relabel, step_call_func hcode' hr', step_call_func hcode hr, List.length_map, hq]
        split
        · rfl
        · cases hf : p.functions[id]? with
          | none => rfl
          | some f => simp [henter f hf, Progress.map, Config.relabel, Frame.relabel]
    | _ => exact absurd ⟨rfl, rfl⟩ hsimple

end Steps

end MxStar.Interp
