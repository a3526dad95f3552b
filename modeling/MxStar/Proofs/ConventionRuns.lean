import MxStar.Proofs.ConventionalFunctions
import MxStar.Proofs.PreparedOperands

/-!
Making the calling convention explicit keeps what a program does.

The programs are related at every instruction of the first one (`ConfigAligned`): the second one has every
value in the same virtual register, and has pushed nothing. Physical registers are not related at all: the
first program has none, and the second one reads what it has just written.
-/
namespace MxStar.Alloc

open IR Interp List

variable {dst l lhs r rhs src : Operand} {pre : List Instr} {a a' : Address}
  {regs : Array (Option Word)} {P : Operand → Prop} {op : BinOp} {w : Word}

/-- The instruction pushes nothing and does not access the frame. -/
@[mk_iff]
structure NoStack (i : Instr) : Prop where
  push : ∀ v, i ≠ .push v
  slot : ∀ k, i.address? ≠ some (.slot k)
  incoming : ∀ k, i.address? ≠ some (.incoming k)

def NoStackUse (p : Program) : Prop := ∀ f ∈ p.functions, f.Every NoStack

/-! ## The relation -/

/-- Two frames are at the same point of a function and of what comes of it. -/
structure Aligned (f g : Func) (fr fr' : Frame) : Prop where
  func : fr.func = f
  func' : fr'.func = g
  layout : fr.block ∈ g.layout
  inner : fr.block ≠ g.entry
  suffix : fr.code <:+ f.code fr.block
  code : Replaced (Conforms f.vregCount g.vregCount) fr.code fr'.code
  size : fr.regs.size = f.vregCount
  size' : fr'.regs.size = g.vregCount
  regs : ∀ v w, fr.reg v = some w → fr'.reg v = some w
  pushed : fr.pushed = []
  pushed' : fr'.pushed = []

def resultMoves (dst : Option Operand) : List Instr :=
  dst.toList.map fun d => .move d (.phys .rax)

/-- Two frames wait for a call at the same point, the second one with the result still to move. -/
def Awaiting (p : Program) (cl cl' : Caller) : Prop :=
  ∃ f g rest, (∃ id : FuncId, p.functions[id]? = some f) ∧ Conventional f g ∧
    (∀ d ∈ cl.dst, NoPhys d) ∧ cl'.dst = none ∧ cl'.frame.code = resultMoves cl.dst ++ rest ∧
    Aligned f g cl.frame { cl'.frame with code := rest }

/-- Two configurations are at the same point, with machines that differ in registers alone. -/
def ConfigAligned (p : Program) (c d : Config) : Prop :=
  ∃ f g, (∃ id : FuncId, p.functions[id]? = some f) ∧ Conventional f g ∧
    Aligned f g c.frame d.frame ∧ d.machine = c.machine.withRegs d.machine.regs ∧
    List.Forall₂ (Awaiting p) c.callers d.callers

/-- What is known of an instruction of the first program. -/
structure Sourced (p : Program) (f : Func) (i : Instr) : Prop where
  noPhys : ∀ o ∈ i.operands, NoPhys o
  below : ∀ o ∈ i.operands, Below f.vregCount o
  noStack : NoStack i
  calls : ∀ dst id args n, i = .call dst (.func id) args n →
    ∃ g, p.functions[id]? = some g ∧ args.length = g.params.length

theorem sourced {p : Program} (hp : p.WellFormed) (hno : NoPhysRegs p) (hst : NoStackUse p)
    {id : FuncId} {f g : Func} (hf : p.functions[id]? = some f) (hfg : Conventional f g)
    {fr fr' : Frame} (h : Aligned f g fr fr') {i : Instr} {rest : List Instr}
    (hcode : fr.code = i :: rest) : Sourced p f i := by
  have hmem : f ∈ p.functions := Array.mem_of_getElem? hf
  have hb := hfg.layout _ h.layout h.inner
  have hi : i ∈ f.code fr.block := h.suffix.subset (hcode ▸ mem_cons_self)
  have hrange := (hp f hmem).instrs _ hb i hi
  refine ⟨hno f hmem _ hb i hi, ?_, hst f hmem _ hb i hi, hrange.calls⟩
  rintro o ho v rfl
  exact hrange.regs v ho

namespace Aligned

variable {f g : Func} {fr fr' : Frame} {m m' : Machine}

theorem value_eq (h : Aligned f g fr fr') (hm : m' = m.withRegs m'.regs) {o : Operand}
    (ho : NoPhys o) (hw : value m fr o = .ok w) : value m' fr' o = .ok w := by
  rw [hm, value_withRegs ho]
  cases o with
  | vreg v =>
    rw [value_vreg] at hw ⊢
    exact h.regs v w hw
  | phys q => exact absurd rfl (ho q)
  | imm x => exact hw
  | static s => exact hw

theorem reads_eq (h : Aligned f g fr fr') (hm : m' = m.withRegs m'.regs) {os : List Operand}
    (hos : ∀ o ∈ os, NoPhys o) {vs : List Word} (hr : Reads m fr os vs) : Reads m' fr' os vs :=
  hr.imp fun o ho _ hw => h.value_eq hm (hos o ho) hw

theorem next (h : Aligned f g fr fr') {i : Instr} {rest rest' : List Instr}
    (hcode : fr.code = i :: rest) (hrest : Replaced (Conforms f.vregCount g.vregCount) rest rest')
    (hregs : Kept f.vregCount fr'.regs regs) :
    Aligned f g { fr with code := rest } (fr'.after regs rest') :=
  { h with
    suffix := (suffix_cons i rest).trans (hcode ▸ h.suffix)
    code := hrest
    size' := hregs.size.trans h.size'
    regs := fun v w hw => (hregs.same v (h.size ▸ reg_lt hw)).trans (h.regs v w hw) }

theorem set (h : Aligned f g fr fr') {v : VReg} (hv : v < fr.regs.size) (hv' : v < fr'.regs.size)
    (w : Word) : Aligned f g { fr with regs := fr.regs.setIfInBounds v (some w) }
      { fr' with regs := fr'.regs.setIfInBounds v (some w) } :=
  { h with
    size := Array.size_setIfInBounds.trans h.size
    size' := Array.size_setIfInBounds.trans h.size'
    regs := fun u x => join_set_mono (t := id) (fun _ => id) hv hv' (h.regs u x) }

end Aligned

/-! ## Instructions that stay within the function -/

/-- The address is in memory, and not part of the frame. -/
structure InMemory (a : Address) : Prop where
  slot : ∀ k, a ≠ .slot k
  incoming : ∀ k, a ≠ .incoming k

theorem PreparesAddress.inMemory {lo hi : Nat} (h : PreparesAddress lo hi a a' pre)
    (ha : InMemory a) : InMemory a' := by
  cases h with
  | near => exact ⟨by simp, by simp⟩
  | far => exact ⟨by simp, by simp⟩
  | fixed => exact ha

theorem actLoad_congr {m m' : Machine} (ha : InMemory a) (ha' : InMemory a')
    (hm : m'.memory = m.memory) {ws ws' : List Word} (hplace : place m' a' ws' = place m a ws)
    (fr fr' : Frame) (dst : Operand) : actLoad m' fr' dst a' ws' = actLoad m fr dst a ws := by
  have hload : ∀ (m : Machine) (fr : Frame) (a : Address) (ws : List Word), InMemory a →
      actLoad m fr dst a ws = place m a ws >>= fun x => m.memory.readWord x >>= fun w =>
        pure (.write dst w) := by
    intro m fr a ws ha
    cases a with
    | slot k => exact absurd rfl (ha.slot k)
    | incoming k => exact absurd rfl (ha.incoming k)
    | _ => rfl
  rw [hload m' fr' a' ws' ha', hload m fr a ws ha, hplace, hm]

theorem actStore_congr {m m' : Machine} (ha : InMemory a) (ha' : InMemory a')
    (hm : m'.memory = m.memory) {ws ws' : List Word} (hplace : place m' a' ws' = place m a ws)
    (hlast : ws'.getLastD 0 = ws.getLastD 0) : actStore m' a' ws' = actStore m a ws := by
  have hstore : ∀ (m : Machine) (a : Address) (ws : List Word), InMemory a →
      actStore m a ws = place m a ws >>= fun x => m.memory.writeWord x (ws.getLastD 0) >>= fun mem =>
        pure (.memory mem) := by
    intro m a ws ha
    cases a with
    | slot k => exact absurd rfl (ha.slot k)
    | _ => rfl
  rw [hstore m' a' ws' ha', hstore m a ws ha, hplace, hm, hlast]

section Simulation

variable {p q : Program} {f g : Func} {fr fr' : Frame} {m m' : Machine} {k k' : List Caller}
  {rest rest' : List Instr} {vs : List Word}

theorem Aligned.assign (h : Aligned f g fr fr') (hfg : Conventional f g) (hdst : NoPhys dst)
    {x : Machine × Frame} (hx : Interp.assign m fr dst w = .ok x) (m' : Machine) :
    x.1 = m ∧ ∃ fr1', Interp.assign m' fr' dst w = .ok (m', fr1') ∧ Aligned f g x.2 fr1' := by
  cases dst with
  | vreg v =>
    simp only [Interp.assign] at hx ⊢
    split at hx
    · next hv =>
      cases hx
      have hv' : v < fr'.regs.size := by
        rw [h.size']
        exact Nat.lt_of_lt_of_le (h.size ▸ hv) hfg.vregs
      rw [if_pos hv']
      exact ⟨rfl, _, rfl, h.set hv hv' w⟩
    · cases hx
  | phys r => exact absurd rfl (hdst r)
  | imm x => cases hx
  | static s => cases hx

/-- Once the second program is ready to act in the same way on the same values, it does. -/
theorem aligned_act (hf : ∃ id : FuncId, p.functions[id]? = some f) (hfg : Conventional f g)
    {i j : Instr} (hsrc : Sourced p f i) (hi : IsSimple i)
    (hdiv : ∀ dst op l r, i = .binary dst op l r → op ≠ .div ∧ op ≠ .mod)
    (hcode : fr.code = i :: rest) (hr : Reads m fr i.sources vs) {fr2 : Frame} {vs2 : List Word}
    (h : Aligned f g { fr with code := rest } { fr2 with code := rest' })
    (hm : m' = m.withRegs m'.regs) (hk : List.Forall₂ (Awaiting p) k k')
    (hcode2 : fr2.code = j :: rest') (hj : IsSimple j) (hr2 : Reads m' fr2 j.sources vs2)
    (hact : act m' fr2 j vs2 = act m fr i vs) :
    Answers q (ConfigAligned p) ⟨m', fr2, k'⟩ (step p ⟨m, fr, k⟩) := by
  refine .simple (P := Eq) hcode hi hr hcode2 hj hr2 (hact ▸ .refl _) ?_
  rintro a _ m1 fr1 ha rfl happly
  cases actsAs ha with
  | write hdst =>
    obtain ⟨rfl, fr1', hassign, halign⟩ := h.assign hfg
      (hsrc.noPhys _ (mem_operands_of_dst hdst)) happly m'
    exact ⟨_, hassign, f, g, hf, hfg, halign, hm, hk⟩
  | divide heq hop => exact absurd hop (not_or.2 (hdiv _ _ _ _ heq))
  | memory =>
    cases happly
    refine ⟨_, rfl, f, g, hf, hfg, h, ?_, hk⟩
    rw [hm]
    rfl
  | slot heq => exact absurd (by rw [heq]; rfl) (hsrc.noStack.slot _)
  | push heq => exact absurd heq (hsrc.noStack.push _)

/-- Two configurations are at the same instruction, with the code that stands for it next in the
second one. -/
structure AtInstr (p : Program) (f g : Func) (i : Instr) (new rest rest' : List Instr)
    (c d : Config) : Prop where
  function : ∃ id : FuncId, p.functions[id]? = some f
  conventional : Conventional f g
  sourced : Sourced p f i
  aligned : Aligned f g c.frame d.frame
  code : c.frame.code = i :: rest
  code' : d.frame.code = new ++ rest'
  rest : Replaced (Conforms f.vregCount g.vregCount) rest rest'
  machine : d.machine = c.machine.withRegs d.machine.regs
  callers : List.Forall₂ (Awaiting p) c.callers d.callers

namespace AtInstr

section Any

variable {i : Instr} {new : List Instr}
  (h : AtInstr p f g i new rest rest' ⟨m, fr, k⟩ ⟨m', fr', k'⟩)
include h

theorem value_eq {o : Operand} (ho : o ∈ i.sources) (hw : value m fr o = .ok w) :
    value m' fr' o = .ok w :=
  h.aligned.value_eq h.machine (h.sourced.noPhys o (mem_operands_of_source ho)) hw

theorem reads_eq {os : List Operand} (hos : os ⊆ i.sources) (hr : Reads m fr os vs) :
    Reads m' fr' os vs :=
  hr.imp fun _ ho _ => h.value_eq (hos ho)

theorem memory_eq : m'.memory = m.memory :=
  (congrArg Machine.memory h.machine :)

theorem place_eq (a : Address) (ws : List Word) : place m' a ws = place m a ws := by
  have hm : m' = m.withRegs m'.regs := h.machine
  rw [hm]
  cases a <;> rfl

theorem inMemory (ha : i.address? = some a) : InMemory a :=
  ⟨fun k hk => h.sourced.noStack.slot k (ha.trans (congrArg some hk)),
    fun k hk => h.sourced.noStack.incoming k (ha.trans (congrArg some hk))⟩

theorem act (hi : IsSimple i) (hdiv : ∀ dst op l r, i = .binary dst op l r → op ≠ .div ∧ op ≠ .mod)
    (hr : Reads m fr i.sources vs) {j : Instr} (hj : IsSimple j)
    (hsteps : Steps q ⟨m', fr', k'⟩ ⟨m', fr'.after regs (j :: rest'), k'⟩)
    (hkept : Kept f.vregCount fr'.regs regs) {vs' : List Word}
    (hr' : Reads m' (fr'.after regs (j :: rest')) j.sources vs')
    (hact : Interp.act m' (fr'.after regs (j :: rest')) j vs' = Interp.act m fr i vs) :
    Answers q (ConfigAligned p) ⟨m', fr', k'⟩ (step p ⟨m, fr, k⟩) :=
  .of_steps hsteps (aligned_act h.function h.conventional h.sourced hi hdiv h.code hr
    (h.aligned.next h.code h.rest hkept) h.machine h.callers rfl hj hr' hact)

/-- Where the first program writes a register, it is enough that the second one comes to write the
same value to the same register, whatever it does to physical registers. -/
theorem written (hi : IsSimple i) (hr : Reads m fr i.sources vs) (hdst : i.dst? = some dst)
    (hact : (Interp.act m fr i vs >>= fun a => a.apply m { fr with code := rest }) =
      assign m { fr with code := rest } dst w)
    (hq : ∀ v, dst = .vreg v → v < f.vregCount → ∃ regs r, Kept f.vregCount fr'.regs regs ∧
      Steps q ⟨m', fr', k'⟩ ⟨m'.withRegs r, fr'.after (regs.setIfInBounds v (some w)) rest', k'⟩) :
    Answers q (ConfigAligned p) ⟨m', fr', k'⟩ (step p ⟨m, fr, k⟩) := by
  rw [step_simple h.code hi hr, ← bind_assoc, hact]
  have hmem := mem_operands_of_dst hdst
  cases dst with
  | vreg v =>
    have hv : v < f.vregCount := h.sourced.below _ hmem v rfl
    have hsize : v < fr.regs.size := h.aligned.size.symm ▸ hv
    obtain ⟨regs, r, hkept, hsteps⟩ := hq v rfl hv
    have hsize' : v < regs.size := by
      rw [hkept.size, h.aligned.size']
      exact Nat.lt_of_lt_of_le hv h.conventional.vregs
    simp only [assign, if_pos hsize, Except.ok_bind]
    refine ⟨_, hsteps, f, g, h.function, h.conventional,
      (h.aligned.next h.code h.rest hkept).set hsize hsize' w, ?_, h.callers⟩
    have hm : m' = m.withRegs m'.regs := h.machine
    rw [hm]
    rfl
  | phys r => exact absurd rfl (h.sourced.noPhys _ hmem r)
  | imm x | static s => exact .failed_of_not_definite not_false

theorem goto (hp : p.WellFormed) (hterm : i.isTerminator = true) {t : BlockId} (ht : t ∈ i.successors)
    (hkept : Kept f.vregCount fr'.regs regs) (code : List Instr) :
    ConfigAligned p ⟨m, fr.goto t, k⟩ ⟨m', (fr'.after regs code).goto t, k'⟩ := by
  obtain ⟨id, hf⟩ := h.function
  have hshaped := (hp f (Array.mem_of_getElem? hf)).shaped
  have hb := h.conventional.layout _ h.aligned.layout h.aligned.inner
  have hcode : fr.code = i :: rest := h.code
  have hsuf : i :: rest <:+ f.code fr.block := hcode ▸ h.aligned.suffix
  obtain ⟨-, htargets, hlayout⟩ := hshaped.successor hb hsuf hterm ht
  -- The blocks have the same successors before and after.
  have ht' : t ∈ g.layout := by
    refine h.conventional.shaped.targets _ h.aligned.layout t ?_
    rw [(endsOnce_conforms (h.conventional.code _ h.aligned.layout h.aligned.inner)
      (hshaped.ends _ hb)).2]
    exact htargets
  have hne : t ≠ g.entry := by
    rintro rfl
    exact h.conventional.fresh hlayout
  have hfunc : fr.func = f := h.aligned.func
  have hfunc' : fr'.func = g := h.aligned.func'
  have hnext := h.aligned.next hcode h.rest hkept
  refine ⟨f, g, h.function, h.conventional, ?_, h.machine, h.callers⟩
  exact { hnext with
    layout := ht'
    inner := hne
    suffix := hfunc ▸ suffix_refl _
    code := by
      simp only [Frame.goto, hfunc, hfunc']
      exact h.conventional.code t ht' hne }

end Any

theorem binary {pre' : List Instr} {mid : Nat}
    (h : AtInstr p f g (.binary dst op lhs rhs) (pre ++ pre' ++ [.binary dst op l r]) rest rest'
      ⟨m, fr, k⟩ ⟨m', fr', k'⟩) (hop : op ≠ .div ∧ op ≠ .mod) (hlo : f.vregCount ≤ mid)
    (hhi : mid ≤ g.vregCount) (hl : Prepares P f.vregCount mid lhs l pre)
    (hr : Prepares P mid g.vregCount rhs r pre') (hreads : Reads m fr [lhs, rhs] vs) :
    Answers q (ConfigAligned p) ⟨m', fr', k'⟩ (step p ⟨m, fr, k⟩) := by
  obtain ⟨x, y, hx, hy, rfl⟩ := reads_two.1 hreads
  obtain ⟨-, hlhs, hrhs⟩ := forall_operands_binary.1 h.sourced.below
  have hx' := h.value_eq (by simp [Instr.sources]) hx
  have hy' := h.value_eq (by simp [Instr.sources]) hy
  have hcode := h.code'
  rw [append_assoc, append_assoc] at hcode
  obtain ⟨regs1, hsteps1, hkept1, hx1, hbelow⟩ := steps_prepare (q := q) (k := k') hl hlhs hlo
    (h.aligned.size' ▸ hhi) hx' hcode
  have hy1 : value m' (fr'.after regs1 (pre' ++ ([.binary dst op l r] ++ rest'))) rhs = .ok y :=
    value_kept hkept1 hrhs hy'
  obtain ⟨regs2, hsteps2, hkept2, hy2, -⟩ := steps_prepare (q := q) (k := k') hr (hrhs.mono hlo) hhi
    (by rw [hkept1.size, h.aligned.size']) hy1 rfl
  exact h.act ⟨rfl, rfl⟩ (by rintro _ _ _ _ ⟨⟩; exact hop) hreads ⟨rfl, rfl⟩
    (hsteps1.trans hsteps2) (hkept1.trans (hkept2.mono hlo))
    (reads_two.2 ⟨x, y, value_kept hkept2 hbelow hx1, hy2, rfl⟩) rfl

theorem unary {s : Operand} {op : UnOp}
    (h : AtInstr p f g (.unary dst op src) (pre ++ [.unary dst op s]) rest rest'
      ⟨m, fr, k⟩ ⟨m', fr', k'⟩) (hs : Prepares P f.vregCount g.vregCount src s pre)
    (hreads : Reads m fr [src] vs) :
    Answers q (ConfigAligned p) ⟨m', fr', k'⟩ (step p ⟨m, fr, k⟩) := by
  obtain ⟨x, hx, rfl⟩ := reads_one.1 hreads
  obtain ⟨-, hsrc⟩ := forall_operands_unary.1 h.sourced.below
  have hcode := h.code'
  rw [append_assoc] at hcode
  obtain ⟨regs, hsteps, hkept, hx', -⟩ := steps_prepare (q := q) (k := k') hs hsrc
    h.conventional.vregs h.aligned.size'.ge
    (h.value_eq (by simp [Instr.sources]) hx) hcode
  exact h.act ⟨rfl, rfl⟩ (by rintro _ _ _ _ ⟨⟩) hreads ⟨rfl, rfl⟩ hsteps hkept
    (reads_one.2 ⟨x, hx', rfl⟩) rfl

theorem compare {cond c : CmpOp}
    (h : AtInstr p f g (.compare dst cond lhs rhs) (pre ++ [.compare dst c l r]) rest rest'
      ⟨m, fr, k⟩ ⟨m', fr', k'⟩)
    (hc : PreparesComparison f.vregCount g.vregCount cond lhs rhs c l r pre)
    (hreads : Reads m fr [lhs, rhs] vs) :
    Answers q (ConfigAligned p) ⟨m', fr', k'⟩ (step p ⟨m, fr, k⟩) := by
  obtain ⟨x, y, hx, hy, rfl⟩ := reads_two.1 hreads
  obtain ⟨-, hlhs, hrhs⟩ := forall_operands_compare.1 h.sourced.below
  have hcode := h.code'
  rw [append_assoc] at hcode
  obtain ⟨regs, x', y', hsteps, hkept, hx', hy', heval⟩ := steps_prepareComparison (q := q) (k := k')
    hc hlhs hrhs h.aligned.size'.ge
    (h.value_eq (by simp [Instr.sources]) hx)
    (h.value_eq (by simp [Instr.sources]) hy) hcode
  refine h.act ⟨rfl, rfl⟩ (by rintro _ _ _ _ ⟨⟩) hreads ⟨rfl, rfl⟩ hsteps hkept
    (reads_two.2 ⟨x', y', hx', hy', rfl⟩) ?_
  simp only [Interp.act, getD_cons_zero, getD_cons_succ, heval]

theorem move (h : AtInstr p f g (.move dst src) [.move dst src] rest rest' ⟨m, fr, k⟩ ⟨m', fr', k'⟩)
    (hreads : Reads m fr [src] vs) :
    Answers q (ConfigAligned p) ⟨m', fr', k'⟩ (step p ⟨m, fr, k⟩) := by
  have hcode : fr'.code = .move dst src :: rest' := h.code'
  have hself : fr'.after fr'.regs (.move dst src :: rest') = fr' := Frame.after_self hcode
  have hsteps : Steps q ⟨m', fr', k'⟩ ⟨m', fr'.after fr'.regs (.move dst src :: rest'), k'⟩ := by
    rw [hself]
  have hreads' : Reads m' (fr'.after fr'.regs (.move dst src :: rest')) [src] vs := by
    rw [hself]
    exact h.reads_eq (List.Subset.refl _) hreads
  exact h.act ⟨rfl, rfl⟩ (by rintro _ _ _ _ ⟨⟩) hreads ⟨rfl, rfl⟩ hsteps (.refl _ _) hreads' rfl

theorem load
    (h : AtInstr p f g (.load dst a) (pre ++ [.load dst a']) rest rest' ⟨m, fr, k⟩ ⟨m', fr', k'⟩)
    (ha : PreparesAddress f.vregCount g.vregCount a a' pre) (hreads : Reads m fr a.operands vs) :
    Answers q (ConfigAligned p) ⟨m', fr', k'⟩ (step p ⟨m, fr, k⟩) := by
  obtain ⟨-, hbelow⟩ := forall_operands_load.1 h.sourced.below
  have hmem : InMemory a := h.inMemory rfl
  have hcode := h.code'
  rw [append_assoc] at hcode
  obtain ⟨regs, ws, hsteps, hkept, hws, hplace⟩ := steps_prepareAddress (q := q) (k := k') ha hbelow
    h.conventional.vregs h.aligned.size'.ge (h.reads_eq (List.Subset.refl _) hreads) hcode
  refine h.act ⟨rfl, rfl⟩ (by rintro _ _ _ _ ⟨⟩) hreads ⟨rfl, rfl⟩ hsteps hkept hws ?_
  exact actLoad_congr hmem (ha.inMemory hmem) h.memory_eq (hplace.trans (h.place_eq a vs)) _ _ dst

theorem store {s : Operand} {pre' : List Instr} {mid : Nat}
    (h : AtInstr p f g (.store a src) (pre ++ pre' ++ [.store a' s]) rest rest'
      ⟨m, fr, k⟩ ⟨m', fr', k'⟩) (hlo : f.vregCount ≤ mid) (hhi : mid ≤ g.vregCount)
    (hs : Prepares P f.vregCount mid src s pre) (ha : PreparesAddress mid g.vregCount a a' pre')
    (hreads : Reads m fr (a.operands ++ [src]) vs) :
    Answers q (ConfigAligned p) ⟨m', fr', k'⟩ (step p ⟨m, fr, k⟩) := by
  obtain ⟨hbelow, hsrc⟩ := forall_operands_store.1 h.sourced.below
  have hmem : InMemory a := h.inMemory rfl
  obtain ⟨ws, w, hws, hw, rfl⟩ := reads_concat.1 hreads
  have hws' := h.reads_eq (subset_append_left ..) hws
  have hcode := h.code'
  rw [append_assoc, append_assoc] at hcode
  obtain ⟨regs1, hsteps1, hkept1, hw1, hbelow1⟩ := steps_prepare (q := q) (k := k') hs hsrc hlo
    (h.aligned.size' ▸ hhi) (h.value_eq (by simp [Instr.sources]) hw) hcode
  have hws1 : Reads m' (fr'.after regs1 (pre' ++ ([.store a' s] ++ rest'))) a.operands ws :=
    hws'.imp fun o ho x hx => value_kept hkept1 (hbelow o ho) hx
  obtain ⟨regs2, ws2, hsteps2, hkept2, hws2, hplace⟩ := steps_prepareAddress (q := q) (k := k') ha
    (fun o ho => (hbelow o ho).mono hlo) hhi (by rw [hkept1.size, h.aligned.size']) hws1 rfl
  refine h.act ⟨rfl, rfl⟩ (by rintro _ _ _ _ ⟨⟩) hreads ⟨rfl, rfl⟩ (hsteps1.trans hsteps2)
    (hkept1.trans (hkept2.mono hlo))
    (reads_concat.2 ⟨ws2, w, hws2, value_kept hkept2 hbelow1 hw1, rfl⟩) ?_
  refine actStore_congr hmem (ha.inMemory hmem) h.memory_eq ?_ (by simp)
  rw [place_append hws2, place_append hws]
  exact hplace.trans (h.place_eq a ws)

theorem shiftBy {c : Word} (hop : op = .shl ∨ op = .shr)
    (h : AtInstr p f g (.binary dst op lhs (.imm c))
      ((if dst ≠ lhs then [.move dst lhs] else []) ++ [.binary dst op dst (.imm (c &&& 63))])
      rest rest' ⟨m, fr, k⟩ ⟨m', fr', k'⟩) (hreads : Reads m fr [lhs, .imm c] vs) :
    Answers q (ConfigAligned p) ⟨m', fr', k'⟩ (step p ⟨m, fr, k⟩) := by
  obtain ⟨x, y, hx, hy, rfl⟩ := reads_two.1 hreads
  cases hy
  obtain ⟨w, hw, hw'⟩ : ∃ w, op.eval x c = some w ∧ op.eval x (c &&& 63) = some w := by
    have hmask : c &&& 63 &&& 63 = c &&& 63 := by rw [Int64.and_assoc, Int64.and_self]
    rcases hop with rfl | rfl <;> simp [BinOp.eval, hmask]
  have hx' := h.value_eq (by simp [Instr.sources]) hx
  have hcode := h.code'
  rw [append_assoc] at hcode
  refine h.written ⟨rfl, rfl⟩ hreads rfl (w := w) ?_ fun v hdst hv => ?_
  · rcases hop with rfl | rfl <;> simp [Interp.act, actBinary, hw, Action.apply]
  · subst hdst
    have hv' : v < fr'.regs.size := h.aligned.size'.symm ▸ Nat.lt_of_lt_of_le hv h.conventional.vregs
    exact ⟨fr'.regs, m'.regs, .refl _ _, steps_shift hop hcode hv' hx' (fun _ => rfl) hw'⟩

theorem shift (hop : op = .shl ∨ op = .shr) (h : AtInstr p f g (.binary dst op lhs rhs)
      (.move (.phys .rcx) rhs :: (if dst ≠ lhs then [.move dst lhs] else []) ++
        [.binary dst op dst (.phys .rcx)]) rest rest' ⟨m, fr, k⟩ ⟨m', fr', k'⟩)
    (hreads : Reads m fr [lhs, rhs] vs) :
    Answers q (ConfigAligned p) ⟨m', fr', k'⟩ (step p ⟨m, fr, k⟩) := by
  obtain ⟨x, y, hx, hy, rfl⟩ := reads_two.1 hreads
  obtain ⟨w, hw⟩ : ∃ w, op.eval x y = some w := by
    rcases hop with rfl | rfl <;> exact ⟨_, rfl⟩
  have hx' := h.value_eq (by simp [Instr.sources]) hx
  have hy' := h.value_eq (by simp [Instr.sources]) hy
  obtain ⟨-, hlhs, -⟩ := forall_operands_binary.1 h.sourced.noPhys
  have hcode := h.code'
  rw [append_assoc] at hcode
  refine h.written ⟨rfl, rfl⟩ hreads rfl (w := w) ?_ fun v hdst hv => ?_
  · rcases hop with rfl | rfl <;> simp [Interp.act, actBinary, hw, Action.apply]
  · subst hdst
    have hv' : v < fr'.regs.size := h.aligned.size'.symm ▸ Nat.lt_of_lt_of_le hv h.conventional.vregs
    -- The count is in its register from the first move on.
    let m1 := m'.withRegs (m'.regs.set .rcx (some y))
    have hcount : ∀ fr, value m1 fr (.phys .rcx) = .ok y :=
      fun _ => value_phys.2 ((RegFile.get_set ..).trans (if_pos rfl))
    have hx1 : value m1 fr' lhs = .ok x := (value_withRegs hlhs _).trans hx'
    refine ⟨fr'.regs, m1.regs, .refl _ _, Steps.cons (step_move_phys hcode hy') ?_⟩
    exact steps_shift hop rfl hv' ((value_withCode ..).trans hx1) hcount hw

theorem divide {divisor : Operand} (hop : op = .div ∨ op = .mod)
    (hrhs : Prepares (fun o => o.isReg = true) f.vregCount g.vregCount rhs divisor pre)
    (h : AtInstr p f g (.binary dst op lhs rhs)
      (pre ++ [.move (.phys .rax) lhs, .binary (.phys (divisionResult op)) op (.phys .rax) divisor,
        .move dst (.phys (divisionResult op))]) rest rest' ⟨m, fr, k⟩ ⟨m', fr', k'⟩)
    (hreads : Reads m fr [lhs, rhs] vs) :
    Answers q (ConfigAligned p) ⟨m', fr', k'⟩ (step p ⟨m, fr, k⟩) := by
  obtain ⟨x, y, hx, hy, rfl⟩ := reads_two.1 hreads
  have hx' := h.value_eq (by simp [Instr.sources]) hx
  have hy' := h.value_eq (by simp [Instr.sources]) hy
  obtain ⟨hdst, hlhs, hno⟩ := forall_operands_binary.1 h.sourced.noPhys
  obtain ⟨-, hlhs', hrhs'⟩ := forall_operands_binary.1 h.sourced.below
  have hcode := h.code'
  rw [append_assoc] at hcode
  obtain ⟨regs, hsteps, hkept, hy1, -⟩ := steps_prepare (q := q) (k := k') hrhs hrhs'
    h.conventional.vregs h.aligned.size'.ge hy' hcode
  have hx1 : ∀ code, value m' (fr'.after regs code) lhs = .ok x :=
    fun _ => value_kept hkept hlhs' hx'
  -- The divisor is still there once the dividend is in its register.
  let m1 := m'.withRegs (m'.regs.set .rax (some x))
  let division : Instr := .binary (.phys (divisionResult op)) op (.phys .rax) divisor
  have hsteps1 : Steps q ⟨m', fr', k'⟩ ⟨m1, fr'.after regs
      (division :: .move dst (.phys (divisionResult op)) :: rest'), k'⟩ :=
    hsteps.tail (step_move_phys rfl (hx1 _))
  have hx2 : ∀ fr, value m1 fr (.phys .rax) = .ok x :=
    fun _ => value_phys.2 ((RegFile.get_set ..).trans (if_pos rfl))
  have hy2 : ∀ code, value m1 (fr'.after regs code) divisor = .ok y := fun code =>
    (value_withRegs (hrhs.noPhys hno) _).trans ((value_withCode m' _ code divisor).symm.trans hy1)
  have hstep2 := step_divide (p := q) (k := k') hop rfl (hx2 _) (hy2
    (division :: .move dst (.phys (divisionResult op)) :: rest'))
  have hact : (Interp.act m fr (.binary dst op lhs rhs) [x, y] >>= fun a =>
      a.apply m { fr with code := rest }) = _ := act_divide hop hdst lhs rhs x y
  cases heval : op.eval x y with
  | none =>
    rw [heval] at hstep2 hact
    rw [step_simple h.code ⟨rfl, rfl⟩ hreads, ← bind_assoc, hact]
    exact fun _ => ⟨_, hsteps1, hstep2⟩
  | some w =>
    rw [heval] at hstep2 hact
    refine h.written ⟨rfl, rfl⟩ hreads rfl hact fun v hv hlt => ?_
    subst hv
    have hsize : v < regs.size := by
      rw [hkept.size, h.aligned.size']
      exact Nat.lt_of_lt_of_le hlt h.conventional.vregs
    exact ⟨regs, _, hkept, (hsteps1.tail hstep2).tail
      (step_move rfl (value_phys.2 ((RegFile.get_set ..).trans (if_pos rfl))) hsize)⟩

/-! ## Transfers of control -/

theorem jump {t : BlockId} (hp : p.WellFormed)
    (h : AtInstr p f g (.jump t) [.jump t] rest rest' ⟨m, fr, k⟩ ⟨m', fr', k'⟩) :
    Answers q (ConfigAligned p) ⟨m', fr', k'⟩ (step p ⟨m, fr, k⟩) := by
  rw [step_jump h.code]
  exact ⟨_, Steps.one (step_jump h.code'), h.goto hp rfl (by simp [Instr.successors]) (.refl _ _)
    fr'.code⟩

theorem branch {cond c : CmpOp} {t e : BlockId} (hp : p.WellFormed)
    (h : AtInstr p f g (.branch cond lhs rhs t e) (pre ++ [.branch c l r t e]) rest rest'
      ⟨m, fr, k⟩ ⟨m', fr', k'⟩)
    (hc : PreparesComparison f.vregCount g.vregCount cond lhs rhs c l r pre)
    (hreads : Reads m fr [lhs, rhs] vs) :
    Answers q (ConfigAligned p) ⟨m', fr', k'⟩ (step p ⟨m, fr, k⟩) := by
  obtain ⟨x, y, hx, hy, rfl⟩ := reads_two.1 hreads
  obtain ⟨hlhs, hrhs⟩ := forall_operands_branch.1 h.sourced.below
  have hcode := h.code'
  rw [append_assoc] at hcode
  obtain ⟨regs, x', y', hsteps, hkept, hx', hy', heval⟩ := steps_prepareComparison (q := q) (k := k')
    hc hlhs hrhs h.aligned.size'.ge
    (h.value_eq (by simp [Instr.sources]) hx)
    (h.value_eq (by simp [Instr.sources]) hy) hcode
  have hstep := step_branch (p := q) (k := k') rfl hx' hy'
  rw [heval] at hstep
  rw [step_branch h.code hx hy]
  exact ⟨_, hsteps.tail hstep, h.goto hp rfl (mem_successors_branch ..) hkept _⟩

end AtInstr

end Simulation

end MxStar.Alloc
