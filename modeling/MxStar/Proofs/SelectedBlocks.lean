import MxStar.Proofs.BlockRuns
import MxStar.Proofs.CleanRoutines
import MxStar.Proofs.Preservation
import MxStar.Proofs.SelectedInstrs

/-!
Blocks on the machine.

The machine goes from line to line (`Goes`); where a line calls, it goes to any state that a relation `call`
allows. If calls can follow the interpreter (`CallsFollow`), then the lines of a block can
(`blockRun_follows`).
-/
namespace MxStar.Asm

open List

open IR (Word PhysReg Operand Func BlockId CmpOp)
open Interp (Machine Frame Config Store value position NextInFrame BlockRun Leaves Exit)

variable {found lines rest : List Line} {s : State} {next : Option BlockId} {b : BlockId}
  {name : String}

/-! ## Runs of the machine -/

/-- What the machine does on a line, where calls do what a relation allows. -/
inductive Goes (env : Env) (call : String → State → State → Prop) (code : List Line) :
    State × List Line → State × List Line → Prop
  | line {s t : State} {lines rest : List Line} {touched : List Word}
    (h : step env code s lines = .goes [] touched t rest) : Goes env call code (s, lines) (t, rest)
  | call {s t : State} {target : String} {comment : Option String} {rest : List Line}
    (h : call target s t) : Goes env call code (s, .instr (.call target) comment :: rest) (t, rest)

/-- The machine gets from one line to another. -/
abbrev Reaches (env : Env) (call : String → State → State → Prop) (code : List Line) :
    State × List Line → State × List Line → Prop :=
  Relation.ReflTransGen (Goes env call code)

section Machine

variable {env : Env} {call : String → State → State → Prop} {code : List Line}

theorem goes_of_step {lines rest : List Line} {calls : List (String × State)} {touched : List Word}
    {t : State} (h : step env code s lines = .goes calls touched t rest) :
    Goes env (fun target s t => t = env.call target s) code (s, lines) (t, rest) := by
  by_cases hcall : ∃ target comment rest, lines = .instr (.call target) comment :: rest
  · obtain ⟨target, comment, rest', rfl⟩ := hcall
    cases h
    exact .call rfl
  · have hnone : calls = [] := by
      unfold step jumpTo at h
      repeat' split at h
      all_goals cases h
      any_goals rfl
      exact absurd ⟨_, _, _, rfl⟩ hcall
    exact .line (hnone ▸ h)

/-- A run that returns reaches a return, with what its environment does on calls. -/
theorem reaches_of_run {fuel : Nat} {lines : List Line} {trace : Trace}
    (h : run env code fuel s lines = some trace) : ∃ comment rest,
      Reaches env (fun target s t => t = env.call target s) code (s, lines)
        (trace.final, .instr .ret comment :: rest) := by
  induction fuel generalizing s lines trace with
  | zero => cases h
  | succ fuel ih =>
    rw [run] at h
    cases hstep : step env code s lines with
    | stuck =>
      rw [hstep] at h
      cases h
    | returns =>
      rw [hstep] at h
      cases h
      unfold step jumpTo at hstep
      repeat' split at hstep
      all_goals cases hstep
      exact ⟨_, _, .refl⟩
    | goes calls touched t rest =>
      rw [hstep] at h
      obtain ⟨trace', hrun, heq⟩ := Option.bind_eq_some_iff.1 h
      obtain ⟨comment, rest', hreach⟩ := ih hrun
      cases heq
      exact ⟨comment, rest', .head (goes_of_step hstep) hreach⟩

theorem isStraight_of_exec {i : Instr} {t : State} (h : exec env i s = some t) :
    i.isStraight = true := by
  cases i with
  | jmp | jcc | call | ret => cases h
  | _ => rfl

theorem goes_exec {i : Instr} {t : State} (h : exec env i s = some t) (comment : Option String)
    (rest : List Line) : Goes env call code (s, .instr i comment :: rest) (t, rest) := by
  have hstep : step env code s (.instr i comment :: rest) = .goes [] (i.touches env s) t rest := by
    rw [step_straight (isStraight_of_exec h), h]
  exact .line hstep

theorem reaches_execs {t : State} (h : execs env lines s = some t) (rest : List Line) :
    Reaches env call code (s, lines ++ rest) (t, rest) := by
  induction lines generalizing s with
  | nil =>
    cases h
    exact .refl
  | cons a lines ih =>
    cases a with
    | label name => exact .head (.line rfl) (ih h)
    | instr i comment =>
      obtain ⟨u, hu, h⟩ := Option.bind_eq_some_iff.1 h
      exact .head (goes_exec hu comment _) (ih h)

theorem goes_jump (h : linesFrom name code = some found) (comment : Option String) :
    Goes env call code (s, .instr (.jmp name) comment :: rest) (s, found) := by
  have hstep : step env code s (.instr (.jmp name) comment :: rest) = .goes [] [] s found := by
    rw [step, jumpTo, h]
  exact .line hstep

theorem goes_jcc {c : CmpOp} {b : Bool} (hc : s.flags.holds c = some b)
    (h : linesFrom name code = some found) (comment : Option String) :
    Goes env call code (s, .instr (.jcc c name) comment :: rest) (s, if b then found else rest) := by
  have hstep : step env code s (.instr (.jcc c name) comment :: rest) =
      .goes [] [] s (if b then found else rest) := by
    rw [step, hc]
    cases b with
    | true => simp only [jumpTo, h, if_true]
    | false => rfl
  exact .line hstep

theorem reaches_choice {q : PhysReg} {a : Arg} {c : CmpOp} {taken other : String}
    {found' : List Line} (h : linesFrom taken code = some found)
    (h' : linesFrom other code = some found') :
    Reaches env call code
      (s, [plain (.cmp q a), plain (.jcc c taken), plain (.jmp other)] ++ rest)
      ({ s with flags := .ofDifference (s.regs q) (a.value env s) },
        if c.eval (s.regs q) (a.value env s) then found else found') := by
  refine .head (goes_exec rfl none _) (.head (goes_jcc (holds_ofDifference _ _ c) h none) ?_)
  split
  · exact .refl
  · exact .single (goes_jump h' none)

theorem exists_linesFrom (h : .label name ∈ code) : ∃ found, linesFrom name code = some found := by
  induction code with
  | nil => cases h
  | cons a code ih =>
    rw [linesFrom]
    split
    · exact ⟨_, rfl⟩
    · next hne =>
      rcases mem_cons.1 h with rfl | h
      · exact absurd rfl hne
      · exact ih h

end Machine

/-! ## Where blocks are -/

theorem selectBlocks_split {syms : Symbols} {f : Func} {before after : List BlockId}
    (h : selectBlocks syms f (before ++ b :: after) = .ok lines) :
    ∃ front code back, selectCode syms f after.head? (f.code b) = .ok code ∧
      lines = front ++ (labelLine f b ++ code ++ back) := by
  induction before generalizing lines with
  | nil =>
    obtain ⟨code, hcode, h⟩ := Except.bind_eq_ok.1 h
    obtain ⟨back, _, h⟩ := Except.bind_eq_ok.1 h
    cases h
    exact ⟨[], code, back, hcode, rfl⟩
  | cons c before ih =>
    obtain ⟨first, _, h⟩ := Except.bind_eq_ok.1 h
    obtain ⟨rest, hrest, h⟩ := Except.bind_eq_ok.1 h
    cases h
    obtain ⟨front, code, back, hcode, rfl⟩ := ih hrest
    refine ⟨labelLine f c ++ first ++ front, code, back, hcode, ?_⟩
    simp only [append_assoc]

theorem labelLine_of_ne {f : Func} (h : b ≠ f.entry) :
    labelLine f b = [.label (blockLabel f b)] := by
  rw [labelLine, if_neg]
  simp [h]

section Routines

variable {syms : Symbols} {f : Func} {x : Routine} (hx : routine syms f = .ok x)

include hx

theorem routine_block {before after : List BlockId} (hlayout : f.layout = before ++ b :: after) :
    ∃ code rest, selectCode syms f after.head? (f.code b) = .ok code ∧
      labelLine f b ++ code ++ rest <:+ x.code := by
  obtain ⟨body, hbody, h⟩ := Except.bind_eq_ok.1 hx
  obtain rfl := Except.ok.inj h
  rw [selectBody, hlayout] at hbody
  obtain ⟨front, code, back, hcode, hlines⟩ := selectBlocks_split hbody
  refine ⟨code, back ++ epilogue f.slots (savedBy body), hcode,
    prologue f.slots (savedBy body) ++ front, ?_⟩
  show _ = prologue f.slots (savedBy body) ++ body ++ epilogue f.slots (savedBy body)
  generalize prologue f.slots (savedBy body) = opening
  generalize epilogue f.slots (savedBy body) = closing
  rw [hlines]
  simp only [append_assoc]

theorem exists_label (hb : b ∈ f.layout) (hne : b ≠ f.entry) :
    ∃ found, linesFrom (blockLabel f b) x.code = some found := by
  obtain ⟨before, after, hlayout⟩ := append_of_mem hb
  obtain ⟨code, rest, -, hsuffix⟩ := routine_block hx hlayout
  refine exists_linesFrom (hsuffix.subset ?_)
  rw [labelLine_of_ne hne]
  exact mem_cons_self

theorem exists_epilogue : ∃ found, linesFrom epilogueLabel x.code = some found := by
  obtain ⟨body, hbody, h⟩ := Except.bind_eq_ok.1 hx
  cases h
  refine exists_linesFrom (mem_append_right _ ?_)
  simp [Routine.ofBody, epilogue]

end Routines

/-! ## Runs through a block -/

/-- What the run through a block relies on: the parts of memory do not touch, and no quotient
overflows. -/
def Secure (area : Area) (c : Config) : Prop :=
  Fits area c.machine c.frame ∧
    ∀ i rest, c.frame.code = i :: rest → QuotientFits c.machine c.frame i

/-- A state of the machine agrees with a configuration. -/
abbrev Stands (env : Env) (syms : Symbols) (area : Area) (c : Config) (s : State) : Prop :=
  Agrees env syms area c.machine c.frame s

/-- Calls in a piece of code can do on the machine what they do in the interpreter. When they return,
the words that were pushed for them are still on the stack. -/
def CallsFollow (p : IR.Program) (env : Env) (area : Area) (call : String → State → State → Prop)
    (code : List IR.Instr) : Prop :=
  ∀ c d s dst callee args n rest target, c.frame.code = .call dst callee args n :: rest →
    c.frame.code <:+ code → (Symbols.ofProgram p).callee callee = .ok target →
    NextInFrame p c d → Fits area c.machine c.frame → Fits area d.machine d.frame →
    Stands env (.ofProgram p) area c s →
    ∃ t, call target s t ∧ Stands env (.ofProgram p) (area.lowered c.frame.pushed.length) d t

/-- Calls that may do anything can follow the interpreter: whatever it does, some state of the machine
agrees with it afterwards. -/
theorem callsFollow_any (p : IR.Program) (env : Env) (area : Area) (code : List IR.Instr) :
    CallsFollow p env area (fun _ _ _ => True) code := by
  intro c d s dst callee args n rest target hcode _ _ hd hfit hfit' h
  have hres := hd.call hcode
  have hmem := hfit'.memory
  have hpushed := hfit.pushed
  have hslots := hfit.slots
  have hincoming := hfit.incoming
  let t : State := {
    regs := fun q => if q = .rsp ∨ q = .rbp then s.regs q
      else (d.machine.regs.get q).getD (s.regs q)
    flags := s.flags
    memory := fun a => (d.machine.memory.bytes[position a]?).getD (s.memory a) }
  -- Above the program's own memory nothing has changed.
  have hread : ∀ a, area.floor ≤ position a → position a + 8 ≤ 2 ^ 64 →
      t.memory.read a = s.memory.read a := by
    intro a ha ha'
    apply Store.read_congr
    intro k hk
    have hpos : position (a + Int64.ofNat k) = position a + k := by
      rw [Interp.position_add, Interp.position_ofNat]
      omega
    have hsize : d.machine.memory.bytes.size ≤ position (a + Int64.ofNat k) := by
      rw [hpos]
      exact (hmem.trans ha).trans (Nat.le_add_right _ _)
    show (d.machine.memory.bytes[position (a + Int64.ofNat k)]?).getD _ = _
    rw [Array.getElem?_eq_none hsize]
    rfl
  refine ⟨t, trivial, ?_, ?_, ?_, ?_, ?_, ?_, ?_, ?_⟩
  · intro q w hq hq' hw
    show (if q = .rsp ∨ q = .rbp then s.regs q else _) = w
    rw [if_neg (by simp [hq, hq']), hw]
    rfl
  · have hstack := h.stack
    rw [hres]
    show position (s.regs .rsp) + 8 * 0 = area.top - 8 * c.frame.pushed.length
    omega
  · exact h.frame
  · intro k w hw
    rw [hres] at hw
    have hk := lt_size_of_slot (show c.frame.slot k = some w from hw)
    have hpos := hfit.position_slot hk
    rw [← h.slots k w hw]
    exact hread (area.slot k) (by omega) (by omega)
  · intro k w hw
    rw [hres] at hw
    have hk : k < c.frame.incoming.length := (List.getElem?_eq_some_iff.1 hw).1
    have hpos := hfit.position_incoming hk
    rw [← h.incoming k w hw]
    exact hread (area.incoming k) (by omega) (by omega)
  · rw [hres]
    intro k w hw
    cases hw
  · intro a _ b hb
    show (d.machine.memory.bytes[position a]?).getD _ = b
    rw [hb]
    rfl
  · intro k name w hname hw
    rw [hd.statics] at hw
    exact h.statics k name w hname hw

structure AtBlock (f : Func) (b : BlockId) (c : Config) : Prop where
  func : c.frame.func = f
  block : c.frame.block = b
  code : c.frame.code = f.code b
  pushed : c.frame.pushed = []

/-- The machine has arrived where a block is left to: at the label of the block that the interpreter
goes to, or at the epilogue with the value that it returns in its register. -/
def Arrives (env : Env) (syms : Symbols) (area : Area) (f : Func) (code : List Line) :
    Exit → State → List Line → Prop
  | .goto d, t, found => ∃ b ∈ f.layout, AtBlock f b d ∧
    linesFrom (blockLabel f b) code = some found ∧ Stands env syms area d t
  | .ret d v, t, found =>
    linesFrom epilogueLabel code = some found ∧ Stands env syms area d t ∧
      ∀ o w, v = some o → value d.machine d.frame o = .ok w → t.regs .rax = w

theorem call_follows {p : IR.Program} {f : Func} {env : Env} {area : Area}
    {call : String → State → State → Prop} {x : List Line} {code block : List IR.Instr}
    {c d : Config} {dst : Option Operand} {callee : IR.Callee} {args : List Operand} {n : Nat}
    (hcode : c.frame.code = .call dst callee args n :: code) (hs : c.frame.code <:+ block)
    (hcalls : CallsFollow p env area call block) (hd : NextInFrame p c d)
    (hfit : Fits area c.machine c.frame) (hfit' : Fits area d.machine d.frame)
    (hn : n = c.frame.pushed.length)
    (hsel : selectInstr (.ofProgram p) f next (.call dst callee args n) = .ok lines)
    (h : Stands env (.ofProgram p) area c s) : ∃ t,
      Reaches env call x (s, lines ++ rest) (t, rest) ∧ Stands env (.ofProgram p) area d t := by
  obtain ⟨target, htarget, hlines⟩ := Except.bind_eq_ok.1 hsel
  obtain ⟨t, hcall, ht⟩ := hcalls c d s _ _ _ _ _ _ hcode hs htarget hd hfit hfit' h
  have hpushed : d.frame.pushed = [] := by rw [hd.call hcode]
  have hroom := hfit.pushed
  cases hlines
  rw [← hn] at ht
  split
  · next hzero =>
    rw [hzero] at ht
    exact ⟨t, .single (.call hcall), ht⟩
  · have hreleased := ht.release hpushed (by omega) hfit'
    let released : State := { t.set .rsp (t.regs .rsp + Int64.ofNat n * 8) with
      flags := AluOp.add.flags (t.regs .rsp) (Int64.ofNat n * 8) }
    exact ⟨released, .head (.call hcall) (.single (goes_exec rfl _ _)), hreleased.congr rfl rfl⟩

section Blocks

variable {p : IR.Program} {f : Func} {env : Env} {area : Area}
  {call : String → State → State → Prop} {b : BlockId} {x : Routine}
  (hf : Alloc.Emittable f) (hx : routine (.ofProgram p) f = .ok x) (hb : b ∈ f.layout)

include hf hb

theorem noPointer_of_suffix {i : IR.Instr} {rest : List IR.Instr} (hs : i :: rest <:+ f.code b) :
    ∀ o ∈ i.operands, NoPointer o := by
  intro o ho q hq
  exact hf.regs b hb i (hs.subset mem_cons_self) q (hq ▸ ho)

include hx

theorem exists_target {i : IR.Instr} {rest : List IR.Instr} (hs : i :: rest <:+ f.code b)
    (hi : i.isTerminator = true) {t : BlockId} (ht : t ∈ i.successors) :
    t ∈ f.layout ∧ ∃ found, linesFrom (blockLabel f t) x.code = some found := by
  obtain ⟨-, htargets, hlayout⟩ := hf.stacked.shaped.successor hb hs hi ht
  refine ⟨hlayout, exists_label hx hlayout ?_⟩
  intro heq
  exact hf.entered b hb (heq ▸ htargets)

/-- A comparison and the two jumps after it, in either order, go where the branch goes. -/
theorem branch_follows {cond : CmpOp} {lhs rhs : Operand} {t e : BlockId} {code : List IR.Instr}
    (hs : .branch cond lhs rhs t e :: code <:+ f.code b)
    (hsel : selectBranch f next cond lhs rhs t e = .ok lines) {m : Machine} {fr : Frame}
    (h : Agrees env (.ofProgram p) area m fr s) {l r : Word} (hl : value m fr lhs = .ok l)
    (hr : value m fr rhs = .ok r) :
    ∃ u found, Reaches env call x.code (s, lines ++ rest) (u, found) ∧
      linesFrom (blockLabel f (if cond.eval l r then t else e)) x.code = some found ∧
      Agrees env (.ofProgram p) area m fr u := by
  obtain ⟨hlhs, hrhs⟩ := IR.forall_operands_branch.1 (noPointer_of_suffix hf hb hs)
  obtain ⟨q, hq, hlines⟩ := Except.bind_eq_ok.1 hsel
  obtain ⟨a, ha, hlines⟩ := Except.bind_eq_ok.1 hlines
  obtain rfl := selectReg_eq_ok hq
  obtain ⟨-, found, hfound⟩ :=
    exists_target hf hx hb hs rfl (IR.mem_successors_branch cond _ _ t e true)
  obtain ⟨-, found', hfound'⟩ :=
    exists_target hf hx hb hs rfl (IR.mem_successors_branch cond _ _ t e false)
  have hu : Agrees env (.ofProgram p) area m fr
      { s with flags := .ofDifference (s.regs q) (a.value env s) } := h.congr rfl rfl
  by_cases hnext : next = some t
  · -- The block that comes next is the one for a condition that holds, so the opposite one jumps.
    rw [if_pos hnext] at hlines
    cases hlines
    refine ⟨_, _, reaches_choice hfound' hfound, ?_, hu⟩
    rw [eval_negate, h.value_reg hlhs hl, h.value_arg hrhs ha hr]
    cases cond.eval l r with
    | true => exact hfound
    | false => exact hfound'
  · rw [if_neg hnext] at hlines
    cases hlines
    refine ⟨_, _, reaches_choice hfound hfound', ?_, hu⟩
    rw [h.value_reg hlhs hl, h.value_arg hrhs ha hr]
    cases cond.eval l r with
    | true => exact hfound
    | false => exact hfound'

theorem leaves_follows {c : Config} {out : Exit} (hleave : Leaves p c out)
    (hfunc : c.frame.func = f) (hs : c.frame.code <:+ f.code b)
    (hbal : Alloc.Balanced c.frame.pushed.length c.frame.code)
    (hsel : selectCode (.ofProgram p) f next c.frame.code = .ok lines)
    (h : Stands env (.ofProgram p) area c s) :
    ∃ u found, Reaches env call x.code (s, lines ++ rest) (u, found) ∧
      Arrives env (.ofProgram p) area f x.code out u found := by
  have hstart : ∀ t, c.frame.pushed.length = 0 →
      AtBlock f t { c with frame := c.frame.goto t } := by
    intro t hpushed
    exact ⟨hfunc, rfl, by rw [← hfunc]; rfl, length_eq_zero_iff.1 hpushed⟩
  cases hleave with
  | jump hcode =>
    rw [hcode] at hs hsel hbal
    obtain ⟨hlayout, found, hfound⟩ := exists_target hf hx hb hs rfl mem_cons_self
    cases hsel
    exact ⟨s, found, .single (goes_jump hfound none), _, hlayout, hstart _ hbal, hfound,
      h.withCode _ _⟩
  | branch hcode hstep =>
    rw [hcode] at hs hsel hbal
    obtain ⟨first, hfirst, hsel⟩ := Except.bind_eq_ok.1 hsel
    cases hsel
    obtain ⟨l, r, hl, hr, rfl⟩ := Interp.step_branch_eq hcode hstep
    obtain ⟨u, found, hreach, hfound, hu⟩ := branch_follows hf hx hb hs hfirst h hl hr
    obtain ⟨hlayout, -⟩ := exists_target hf hx hb hs rfl (IR.mem_successors_branch _ _ _ _ _ _)
    rw [append_nil]
    exact ⟨u, found, hreach, _, hlayout, hstart _ hbal, hfound, hu.withCode _ _⟩
  | ret hcode =>
    rename_i v
    rw [hcode] at hs hsel
    obtain ⟨found, hfound⟩ := exists_epilogue hx
    cases hsel
    refine ⟨s, found, .single (goes_jump hfound none), hfound, h, ?_⟩
    intro o w hv hw
    subst hv
    obtain rfl : o = .phys .rax := hf.inPlace b hb _ (hs.subset mem_cons_self)
    exact h.regs .rax w (by decide) (by decide) (Interp.value_phys.1 hw)

/-- **Blocks follow the interpreter** from any place in them on. -/
theorem blockRun_follows {c e : Config} {out : Exit} (hrun : BlockRun p (Secure area) c e)
    (hleave : Leaves p e out) (hcalls : CallsFollow p env area call (f.code b))
    (hfunc : c.frame.func = f) (hs : c.frame.code <:+ f.code b)
    (hbal : Alloc.Balanced c.frame.pushed.length c.frame.code)
    (hsel : selectCode (.ofProgram p) f next c.frame.code = .ok lines)
    (h : Stands env (.ofProgram p) area c s) :
    ∃ u found, Reaches env call x.code (s, lines ++ rest) (u, found) ∧
      Arrives env (.ofProgram p) area f x.code out u found := by
  induction hrun generalizing s lines with
  | last hsafe hcode hi => exact leaves_follows hf hx hb hleave hfunc hs hbal hsel h
  | next hsafe hcode hi hd hrun ih =>
    rename_i c d e i code
    have hfit' : Fits area d.machine d.frame := by
      cases hrun with
      | last hsafe => exact hsafe.1
      | next hsafe => exact hsafe.1
    have hs' : i :: code <:+ f.code b := hcode ▸ hs
    have hrest : code <:+ f.code b := (suffix_cons i code).trans hs'
    rw [hcode] at hsel hbal
    obtain ⟨first, hfirst, hsel⟩ := Except.bind_eq_ok.1 hsel
    obtain ⟨others, hothers, hsel⟩ := Except.bind_eq_ok.1 hsel
    cases hsel
    rw [append_assoc]
    -- One instruction, then the rest of the block from where it leads.
    suffices hone : ∃ t, Reaches env call x.code (s, first ++ (others ++ rest)) (t, others ++ rest) ∧
        Stands env (.ofProgram p) area d t ∧ d.frame.func = f ∧ d.frame.code = code ∧
        Alloc.Balanced d.frame.pushed.length code by
      obtain ⟨t, hreach, ht, hfunc', rfl, hbal'⟩ := hone
      obtain ⟨u, found, hreach', harrive⟩ := ih hleave hfunc' hrest hbal' hothers ht
      exact ⟨u, found, hreach.trans hreach', harrive⟩
    by_cases hsimple : Interp.IsSimple i
    · obtain ⟨m', fr', hcompute, rfl⟩ := hd.compute hcode hsimple
      obtain ⟨hfunc', hcode', hbal'⟩ := Interp.compute_frame hsimple hcompute hbal
      obtain ⟨t, hexec, ht⟩ := leads_compute (h.withCode c.frame.block code) hsimple hfirst
        (noPointer_of_suffix hf hb hs') (hf.inPlace b hb i (hs'.subset mem_cons_self))
        ((hsafe.2 i code hcode).withCode code) (hsafe.1.withCode code) hfit' hcompute
      exact ⟨t, reaches_execs hexec _, ht, hfunc'.trans hfunc, hcode', hbal'⟩
    · cases i with
      | call dst callee args n =>
        obtain ⟨hn, hbal'⟩ : n = c.frame.pushed.length ∧ Alloc.Balanced 0 code := hbal
        obtain ⟨t, hreach, ht⟩ := call_follows hcode hs hcalls hd hsafe.1 hfit' hn hfirst h
        have hres := hd.call hcode
        refine ⟨t, hreach, ht, ?_, ?_, ?_⟩
        · rw [hres]
          exact hfunc
        · rw [hres]
        · rw [hres]
          exact hbal'
      | jump | branch | ret => cases hi
      | _ => exact absurd ⟨rfl, rfl⟩ hsimple

end Blocks

/-- **Instruction selection simulates the interpreter.** Take a block of an allocated function, and the
lines that are selected for it. From a machine state that agrees with the interpreter at the start of
the block, these lines lead to the label of the block that the interpreter goes to, or to the epilogue
if it returns, in a state that agrees with the interpreter there. Calls are taken as the same step on
both sides, and no division has a quotient that overflows. -/
theorem block_simulates {p q r : IR.Program} (hp : ∀ f ∈ p.functions, f.Shaped)
    (hpush : Alloc.NoPush p) (hno : Alloc.NoPhysRegs p) (hq : Alloc.conventional p = .ok q)
    {palette : List PhysReg} (hpal : ∀ y ∈ palette, y ∈ PhysReg.allocatable) {stats : List Alloc.Stats}
    (hr : Alloc.allocated palette q = .ok (r, stats)) {f : Func} (hf : f ∈ r.functions) {x : Routine}
    (hx : routine (.ofProgram r) f = .ok x) {before after : List BlockId} {b : BlockId}
    (hlayout : f.layout = before ++ b :: after) :
    ∃ lines rest, selectCode (.ofProgram r) f after.head? (f.code b) = .ok lines ∧
      labelLine f b ++ lines ++ rest <:+ x.code ∧
      (b ≠ f.entry →
        linesFrom (blockLabel f b) x.code = some (labelLine f b ++ lines ++ rest)) ∧
      ∀ env area call, CallsFollow r env area call (f.code b) → ∀ c e out s, AtBlock f b c →
        BlockRun r (Secure area) c e → Leaves r e out → Stands env (.ofProgram r) area c s →
        ∃ t found, Reaches env call x.code (s, labelLine f b ++ lines ++ rest) (t, found) ∧
          Arrives env (.ofProgram r) area f x.code out t found := by
  have hem := Alloc.emittable_allocated hp hpush hno hq hpal hr hf
  have hb : b ∈ f.layout := by
    rw [hlayout]
    exact List.mem_append_right _ List.mem_cons_self
  obtain ⟨lines, rest, hlines, hsuffix⟩ := routine_block hx hlayout
  refine ⟨lines, rest, hlines, hsuffix, ?_, ?_⟩
  · intro hne
    rw [labelLine_of_ne hne] at hsuffix ⊢
    exact linesFrom_of_suffix (labelsDistinct_routine hem.stacked.shaped.nodup hx) hsuffix
  · intro env area call hcalls c e out s hat hrun hleave hstands
    have hbal : Alloc.Balanced c.frame.pushed.length c.frame.code := by
      rw [hat.code, hat.pushed]
      exact hem.stacked.balanced b hb
    obtain ⟨t, found, hreach, harrive⟩ := blockRun_follows hem hx hb hrun hleave hcalls hat.func
      (hat.code ▸ List.suffix_refl _) hbal (hat.code.symm ▸ hlines) hstands
    refine ⟨t, found, Relation.ReflTransGen.trans ?_ hreach, harrive⟩
    rw [List.append_assoc, labelLine]
    split
    · exact .refl
    · exact .single (.line rfl)

/-- The function that divides its parameters, with its registers allocated. -/
def dividing : Func where
  name := "quotient"
  label := "quotient"
  params := [0, 1]
  entry := 1
  blocks := #[
    { name := "entry"
      instrs := [
        .move (.phys .rax) (.phys .rdi),
        .binary (.phys .rax) .div (.phys .rax) (.phys .rsi),
        .move (.phys .rax) (.phys .rax),
        .move (.phys .rax) (.phys .rax),
        .ret (some (.phys .rax))]
      preds := [1] },
    { name := "params"
      instrs := [
        .move (.phys .rdi) (.phys .rdi),
        .move (.phys .rsi) (.phys .rsi),
        .jump 0]
      succs := [0] }]
  layout := [1, 0]
  hints := #["a", "b", "q"]

theorem allocated_quotient : (do
    let q ← (Alloc.conventional Alloc.quotient).toOption
    let r ← (Alloc.allocated PhysReg.allocatable q).toOption
    let x ← (routine (.ofProgram r.1) dividing).toOption
    return (r.1, x.code.length)) = some ({ functions := #[dividing] }, 15) := by
  decide +kernel

/-- The interpreter where the parameters have arrived. -/
def atDivision : Config where
  machine := {
    memory := .initial
    regs := (Interp.RegFile.empty.set .rdi (some 17)).set .rsi (some (-5))
    statics := #[]
    input := []
    output := ""
    checks := true }
  frame := {
    func := dividing
    regs := #[]
    slots := #[]
    incoming := []
    pushed := []
    block := 0
    code := dividing.code 0 }
  callers := []

/-- Where things are while the function runs. -/
def divisionArea : Area := ⟨1024, 4096, 4096⟩

/-- The machine where the parameters have arrived. -/
def divisionState : State where
  regs
    | .rsp | .rbp => 4096
    | .rdi => 17
    | .rsi => -5
    | _ => 0
  flags := .undefined
  memory := fun _ => 0

theorem blockRun_atDivision : ∃ e, BlockRun { functions := #[dividing] } (Secure divisionArea) atDivision e ∧
    Leaves { functions := #[dividing] } e (.ret e (some (.phys .rax))) ∧
    value e.machine e.frame (.phys .rax) = .ok (-3) := by
  refine ⟨_, .next ?_ rfl rfl (.back rfl rfl) (.next ?_ rfl rfl (.back rfl rfl) (.next ?_ rfl rfl
    (.back rfl rfl) (.next ?_ rfl rfl (.back rfl rfl) (.last ?_ rfl rfl)))), .ret rfl, rfl⟩
  all_goals
    refine ⟨⟨by decide, by decide, by decide, by decide⟩, fun i rest h => ?_⟩
    cases h
  · trivial
  · intro _ hov
    exact absurd (Except.ok.inj hov.1) (by decide)
  · trivial
  · trivial
  · trivial

theorem stands_divisionState : Stands quietEnv (.ofProgram { functions := #[dividing] }) divisionArea
    atDivision divisionState where
  regs := by
    intro q w _ _ h
    cases q <;> cases h <;> rfl
  stack := rfl
  frame := rfl
  slots := by
    intro k w h
    simp [atDivision, Frame.slot] at h
  incoming := by
    intro k w h
    simp [atDivision] at h
  pushed := by
    intro k w h
    simp [atDivision] at h
  memory := by
    intro a ha b hb
    have hlt : Interp.position a < 8 := (Array.getElem?_eq_some_iff.1 hb).1
    omega
  statics := by
    intro k name w _ h
    simp [atDivision] at h

theorem block_simulates_dividing : ∃ q stats x lines t found,
    Alloc.conventional Alloc.quotient = .ok q ∧
    Alloc.allocated PhysReg.allocatable q = .ok ({ functions := #[dividing] }, stats) ∧
    routine (.ofProgram { functions := #[dividing] }) dividing = .ok x ∧
    linesFrom (blockLabel dividing 0) x.code = some lines ∧
    Reaches quietEnv (fun _ _ _ => True) x.code (divisionState, lines) (t, found) ∧
    linesFrom epilogueLabel x.code = some found ∧ t.regs .rax = -3 := by
  have halloc := allocated_quotient
  simp only [Option.bind_eq_bind, Option.bind_eq_some_iff, Except.toOption_eq_some,
    Option.pure_def, Option.some.injEq, Prod.mk.injEq] at halloc
  obtain ⟨q, hq, ⟨r, stats⟩, hr, x, hx, hprogram, -⟩ := halloc
  obtain rfl : r = { functions := #[dividing] } := hprogram
  obtain ⟨e, hrun, hleave, hvalue⟩ := blockRun_atDivision
  have hpush : Alloc.NoPush Alloc.quotient := fun f hf b hb i hi =>
    (Alloc.noStackUse_quotient f hf b hb i hi).1
  have hlayout : dividing.layout = [1] ++ 0 :: [] := rfl
  obtain ⟨lines, rest, -, -, hstart, hsim⟩ := block_simulates
    (fun f hf => (Alloc.wellFormed_quotient f hf).shaped) hpush Alloc.noPhysRegs_quotient hq
    (fun _ h => h) hr (by simp) hx hlayout
  obtain ⟨t, found, hreach, hfound, -, hrax⟩ := hsim quietEnv divisionArea _ (callsFollow_any _ _ _ _)
    atDivision e _ divisionState ⟨rfl, rfl, rfl, rfl⟩ hrun hleave stands_divisionState
  exact ⟨q, stats, x, _, t, found, hq, hr, hx, hstart (by decide), hreach, hfound, hrax _ _ rfl hvalue⟩

end MxStar.Asm
