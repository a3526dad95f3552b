import MxStar.Proofs.Conflicts
import MxStar.Proofs.Registers
import MxStar.Proofs.Settled

/-!
Code runs the same in the registers that a colouring gives it.

At every point the registers that are live have the same content on both sides, each under its own name
(`Agree`). An instruction keeps this because the colour that it writes is that of no other live register
(`agree_write`), and a call because what is live across it is preserved (`Waiting`).
-/
namespace MxStar.Alloc

open IR Interp List

variable {c : Coloring} {callers callers' : List Caller} {m m' : Machine} {fr fr' : Frame}
  {q : PhysReg} {f g : Func} {rest : List Instr} {vs : List Word} {id : FuncId}
  {args : List Operand} {o : Operand} {n : Nat} {i : Instr} {regs : RegFile}

/-! ## A coloured function -/

/-- The second function is the first one with every register replaced by its colour. -/
structure Coloured (f g : Func) (c : Coloring) : Prop where
  apart : ∀ b ∈ f.layout, ∀ i post, i :: post <:+ f.code b → ∀ x y,
    Clash i (liveAt ((analyze f).atEnd b) post) x y → x ≠ y →
    (∃ v, x = .virt v) ∨ (∃ v, y = .virt v) → ∀ q, c.ofReg x = some q → c.ofReg y ≠ some q
  total : ∀ b ∈ f.layout, ∀ i ∈ f.code b, ∀ v, .vreg v ∈ i.operands → ∃ q, c.get? v = some q
  palette : ∀ v q, c.get? v = some q → q ∈ PhysReg.allocatable
  code : ∀ b ∈ f.layout, g.code b = (f.code b).map (·.mapOperands (colorOperand c))
  entry : g.entry = f.entry
  slots : g.slots = f.slots

theorem colorOperand_of_reg? {r : Reg} (ho : o.reg? = some r) (hr : c.ofReg r = some q) :
    colorOperand c o = .phys q := by
  cases o with
  | vreg v =>
    cases ho
    simp only [Coloring.ofReg] at hr
    simp [colorOperand, hr]
  | phys p =>
    cases ho
    simp only [Coloring.ofReg, Option.some.injEq] at hr
    simp [colorOperand, hr]
  | imm w => cases ho
  | static s => cases ho

theorem colorOperand_of_not_reg (ho : o.reg? = none) : colorOperand c o = o := by
  cases o with
  | vreg v => cases ho
  | phys p => rfl
  | imm w => rfl
  | static s => rfl

theorem Coloured.exists_color (h : Coloured f g c) {b : BlockId} (hb : b ∈ f.layout)
    (hi : i ∈ f.code b) (ho : o ∈ i.operands) {r : Reg} (hr : o.reg? = some r) :
    ∃ q, c.ofReg r = some q := by
  cases r with
  | virt v => exact h.total b hb i hi v ((Operand.eq_of_reg?.1 v).1 hr ▸ ho)
  | phys q => exact ⟨q, rfl⟩

/-! ## Agreement on live registers -/

/-- The live registers of the first state have the same content in the second, under their colours.
-/
def Agree (c : Coloring) (live : RegSet) (m : Machine) (fr : Frame) (regs : RegFile) : Prop :=
  ∀ r ∈ live, ∀ w, regValue m fr r = some w → ∃ q, c.ofReg r = some q ∧ regs.get q = some w

theorem Agree.value {live : RegSet} (h : Agree c live m fr m'.regs) (hm : m' = m.withRegs m'.regs)
    (ho : ∀ r, o.reg? = some r → r ∈ live) {w : Word} (hw : value m fr o = .ok w) :
    value m' fr' (colorOperand c o) = .ok w := by
  cases hr : o.reg? with
  | some r =>
    obtain ⟨q, hq, hget⟩ := h r (ho r hr) w ((value_eq_of_reg? hr).1 hw)
    rw [colorOperand_of_reg? hr hq]
    exact value_phys.2 hget
  | none =>
    rw [colorOperand_of_not_reg hr]
    cases o with
    | vreg v => cases hr
    | phys p => cases hr
    | imm v => exact hw
    | static s =>
      rw [hm]
      exact hw

theorem Agree.reads {after : RegSet} (h : Agree c (liveBefore i after) m fr m'.regs)
    (hm : m' = m.withRegs m'.regs) (hr : Reads m fr i.sources vs) :
    Reads m' fr' (i.sources.map (colorOperand c)) vs :=
  hr.map fun o ho _ hw => h.value hm
    (fun _ hr => mem_liveBefore.2 (.inr (mem_uses.2 ⟨o, ho, hr⟩))) hw

/-- Writing the same word to a register and to its colour keeps the agreement, if no other live
register has that colour. A register that has the word already may share it. -/
theorem agree_write {before after : RegSet} {m1 : Machine} {fr1 : Frame} {d : Reg} {w : Word}
    (h : Agree c before m fr regs) (hd : c.ofReg d = some q)
    (hwrite : ∀ r, regValue m1 fr1 r = if r = d then some w else regValue m fr r)
    (hbefore : ∀ r ∈ after, r ≠ d → r ∈ before)
    (hapart : ∀ r ∈ after, r ≠ d → c.ofReg r = some q → regValue m fr r = some w) :
    Agree c after m1 fr1 (regs.set q (some w)) := by
  intro r hr v hv
  rw [hwrite] at hv
  split at hv
  · next hrd =>
    subst hrd
    cases hv
    exact ⟨q, hd, by rw [RegFile.get_set, if_pos rfl]⟩
  · next hrd =>
    obtain ⟨p, hp, hget⟩ := h r (hbefore r hr hrd) v hv
    refine ⟨p, hp, ?_⟩
    rw [RegFile.get_set]
    split
    · next hqp =>
      subst hqp
      rw [← hapart r hr hrd hp, hv]
    · exact hget

/-! ## Actions -/

section Apply

variable {n : Nat} {f g : Func} {c : Coloring} {b : BlockId} {i : Instr} {post : List Instr}
  {m m' m1 : Machine} {fr fr' fr1 : Frame} {vs : List Word}

theorem Coloured.ne_color (hc : Coloured f g c) (hb : b ∈ f.layout) (hs : i :: post <:+ f.code b)
    {d r : Reg} (hd : d ∈ defs i) (hr : r ∈ liveAt ((analyze f).atEnd b) post) (hne : r ≠ d)
    (hspared : spared i ≠ some r) (hq : c.ofReg d = some q) : c.ofReg r ≠ some q := by
  cases d with
  | virt v =>
    exact hc.apart b hb i post hs _ _ (.inl ⟨hd, hr, hspared⟩) hne.symm (.inl ⟨v, rfl⟩) q hq
  | phys p =>
    cases r with
    | virt v =>
      exact hc.apart b hb i post hs _ _ (.inl ⟨hd, hr, hspared⟩) hne.symm (.inr ⟨v, rfl⟩) q hq
    | phys p' =>
      intro h
      cases hq
      cases h
      exact hne rfl

/-- The action of an instruction keeps live registers in agreement. -/
theorem apply_agree (fr fr' : Frame) (hc : Coloured f g c) (hf : Settled n f) (hb : b ∈ f.layout)
    (hs : i :: post <:+ f.code b) {a : Action} (hact : act m fr i vs = .ok a)
    (hreads : Reads m fr i.sources vs)
    (hag : Agree c (liveBefore i (liveAt ((analyze f).atEnd b) post)) m fr m'.regs)
    (hm : m' = m.withRegs m'.regs) (hslots : fr'.slots = fr.slots) (hpushed : fr'.pushed = fr.pushed)
    (happly : a.apply m fr = .ok (m1, fr1)) :
    ∃ m1', (a.mapDst (colorOperand c)).apply m' fr' =
        .ok (m1', { fr' with slots := fr1.slots, pushed := fr1.pushed }) ∧
      m1' = m1.withRegs m1'.regs ∧ Agree c (liveAt ((analyze f).atEnd b) post) m1 fr1 m1'.regs ∧
      fr1 = { fr with regs := fr1.regs, slots := fr1.slots, pushed := fr1.pushed } := by
  have hi : i ∈ f.code b := hs.subset mem_cons_self
  have hframe : { fr' with slots := fr.slots, pushed := fr.pushed } = fr' := by
    rw [← hslots, ← hpushed]
  -- Without a write, what is live after the instruction was live before it.
  have hquiet : (∀ r, r ∉ defs i) →
      Agree c (liveAt ((analyze f).atEnd b) post) m fr m'.regs :=
    fun hdefs r hr w hw => hag r (mem_liveBefore.2 (.inl ⟨hr, hdefs r⟩)) w hw
  cases actsAs hact with
  | write hdst hdefs hmove =>
    rename_i dst w
    obtain ⟨d, hd, hwrite, hm1, hfr1⟩ := regValue_assign happly
    obtain ⟨q, hq⟩ := hc.exists_color hb hi (mem_operands_of_dst hdst) hd
    refine ⟨{ m' with regs := m'.regs.set q (some w) }, ?_, ?_, ?_, ?_⟩
    · rw [hfr1]
      simp only [Action.mapDst, Action.apply, colorOperand_of_reg? hd hq, assign, hframe]
    · rw [hm1, hm]
      rfl
    · refine agree_write hag hq hwrite (fun r hr hrd => ?_) (fun r hr hrd hrq => ?_)
      · refine mem_liveBefore.2 (.inl ⟨hr, fun h => hrd ?_⟩)
        rw [hdefs, hd] at h
        exact (Option.some.inj h).symm
      · -- The one live register that may have the colour is the source of a move.
        by_cases hsp : spared i = some r
        · cases i with
          | move d' src =>
            obtain ⟨v, hv, rfl⟩ := reads_one.1 hreads
            rw [hmove _ _ rfl]
            exact (value_eq_of_reg? hsp).1 hv
          | _ => cases hsp
        · exact absurd hrq (hc.ne_color hb hs ((hdefs d).2 hd) hr hrd hsp hq)
    · rw [hfr1]
  | divide hi' hop =>
    rename_i dst op lhs rhs quot rem
    subst hi'
    obtain ⟨q, rfl⟩ := (hf.abides b hb _ hi).divides _ _ _ _ rfl hop
    cases happly
    refine ⟨_, by simp only [Action.mapDst, Action.apply, colorOperand, assign, hframe]; rfl, ?_, ?_,
      rfl⟩
    · rw [hm]
      rfl
    · intro r hr w hw
      cases r with
      | phys p =>
        refine ⟨p, rfl, ?_⟩
        by_cases hp : .phys p ∈ defs (.binary (.phys q) op lhs rhs)
        · rw [mem_defs_divide hop] at hp
          simp only [regValue, RegFile.get_set] at hw ⊢
          grind [Operand.reg?]
        · obtain ⟨p', hp', hget⟩ := hag (.phys p) (mem_liveBefore.2 (.inl ⟨hr, hp⟩)) w (by
            rw [mem_defs_divide hop] at hp
            simp only [regValue, RegFile.get_set] at hw ⊢
            grind [Operand.reg?])
          cases hp'
          rw [mem_defs_divide hop] at hp
          simp only [RegFile.get_set]
          grind [Operand.reg?]
      | virt v =>
        have hv : .virt v ∉ defs (.binary (.phys q) op lhs rhs) := by
          rw [mem_defs_divide hop]
          simp [Operand.reg?]
        obtain ⟨p, hp, hget⟩ := hag (.virt v) (mem_liveBefore.2 (.inl ⟨hr, hv⟩)) w hw
        have hne : ∀ d, .phys d ∈ defs (.binary (.phys q) op lhs rhs) → d ≠ p := by
          rintro d hd rfl
          exact hc.ne_color hb hs hd hr (by simp) (by simp [spared]) rfl hp
        have hq := hne q ((mem_defs_divide hop).2 (.inl rfl))
        have hrax := hne .rax ((mem_defs_divide hop).2 (.inr (.inl rfl)))
        have hrdx := hne .rdx ((mem_defs_divide hop).2 (.inr (.inr rfl)))
        refine ⟨p, hp, ?_⟩
        simp only [RegFile.get_set, if_neg hq, if_neg hrax, if_neg hrdx, hget]
  | memory hdefs =>
    rename_i mem
    cases happly
    refine ⟨{ m' with memory := mem }, ?_, ?_, hquiet hdefs, rfl⟩
    · simp only [Action.mapDst, Action.apply, hframe]
    · rw [hm]
      rfl
  | slot _ hdefs =>
    simp only [Action.apply] at happly
    split at happly
    · next hk =>
      cases happly
      refine ⟨m', ?_, hm, hquiet hdefs, rfl⟩
      simp only [Action.mapDst, Action.apply, hslots, if_pos hk, hpushed]
    · cases happly
  | push _ hdefs =>
    cases happly
    refine ⟨m', ?_, hm, hquiet hdefs, rfl⟩
    simp only [Action.mapDst, Action.apply, hslots, hpushed]

end Apply

/-! ## Calls -/

def afterCall (regs : RegFile) (w : Word) : RegFile :=
  (regs.clear PhysReg.callerSaved).set .rax (some w)

theorem get_afterCall_callerSaved (regs : RegFile) (w : Word) (hq : q ∈ PhysReg.callerSaved) :
    (afterCall regs w).get q = if q = .rax then some w else none := by
  rw [afterCall, RegFile.get_set, RegFile.get_clear, if_pos hq]
  simp only [eq_comm]

theorem get_afterCall_calleeSaved (regs : RegFile) (w : Word) (hq : q ∈ PhysReg.calleeSaved) :
    (afterCall regs w).get q = regs.get q := by
  have hrax : PhysReg.rax ≠ q := by
    rintro rfl
    revert hq
    decide
  have hsaved : q ∉ PhysReg.callerSaved := by
    intro h
    revert q
    decide
  rw [afterCall, RegFile.get_set, RegFile.get_clear, if_neg hrax, if_neg hsaved]

theorem finishCall_none (m : Machine) (fr : Frame) (w : Word) :
    finishCall m fr none w = .ok (m.withRegs (afterCall m.regs w), fr) := rfl

theorem calleeSaved_of_allocatable (hq : q ∈ PhysReg.allocatable)
    (hsaved : q ∉ PhysReg.callerSaved) : q ∈ PhysReg.calleeSaved := by
  cases q <;> revert hq hsaved <;> decide

/-- The live virtual registers of a frame are in colours that calls preserve. -/
def Preserved (c : Coloring) (live : RegSet) (fr : Frame) (regs : RegFile) : Prop :=
  ∀ v, .virt v ∈ live → ∀ w, fr.reg v = some w →
    ∃ q ∈ PhysReg.calleeSaved, c.get? v = some q ∧ regs.get q = some w

theorem preserved_at_call (hc : Coloured f g c) {b : BlockId} (hb : b ∈ f.layout) {callee : Callee}
    {post : List Instr} (hs : .call none callee args n :: post <:+ f.code b)
    (hag : Agree c (liveBefore (.call none callee args n) (liveAt ((analyze f).atEnd b) post)) m fr
      regs) : Preserved c (liveAt ((analyze f).atEnd b) post) fr regs := by
  intro v hv w hw
  have hdefs : Reg.virt v ∉ defs (.call none callee args n) := by
    rw [mem_defs_call]
    simp
  obtain ⟨q, hq, hget⟩ := hag (.virt v) (mem_liveBefore.2 (.inl ⟨hv, hdefs⟩)) w hw
  refine ⟨q, ?_, hq, hget⟩
  have hsaved : q ∉ PhysReg.callerSaved := fun h =>
    hc.ne_color hb hs (mem_defs_call.2 ⟨q, h, rfl⟩) hv (by simp) (by simp [spared]) rfl hq
  exact calleeSaved_of_allocatable (hc.palette v q hq) hsaved

/-- When a call is done, live registers agree again: the preserved ones still do, and of the others
only the result is defined. -/
theorem agree_afterCall {live : RegSet} {regs' : RegFile} (w : Word)
    (hphys : ∀ q, .phys q ∈ live → q ∈ PhysReg.callerSaved) (h : Preserved c live fr regs') :
    Agree c live (m.withRegs (afterCall regs w)) fr (afterCall regs' w) := by
  intro r hr v hv
  cases r with
  | virt u =>
    obtain ⟨q, hq, hcolor, hget⟩ := h u hr v hv
    exact ⟨q, hcolor, by rw [get_afterCall_calleeSaved _ _ hq, hget]⟩
  | phys q =>
    refine ⟨q, rfl, ?_⟩
    have hq := hphys q hr
    simp only [regValue, Machine.withRegs] at hv
    rw [get_afterCall_callerSaved _ _ hq] at hv ⊢
    exact hv

theorem get_setMany_saved (regs rf : RegFile) (hq : q ∈ PhysReg.calleeSaved) :
    (regs.setMany (PhysReg.calleeSaved.map fun r => (r, rf.get r))).get q = rf.get q := by
  refine RegFile.get_setMany_of_mem regs ?_ (mem_map.2 ⟨q, hq, rfl⟩)
  show PhysReg.calleeSaved.Nodup
  decide

theorem mem_zip_params {args : List Word} (hn : min n PhysReg.params.length ≤ args.length)
    (hq : q ∈ PhysReg.params.take n) : ∃ w, (q, some w) ∈ PhysReg.params.zip (args.map some) := by
  obtain ⟨k, hk, rfl⟩ := getElem_of_mem hq
  rw [length_take] at hk
  have hargs : k < args.length := by omega
  refine ⟨args[k], mem_iff_getElem.2 ⟨k, ?_, ?_⟩⟩
  · simp only [length_zip, length_map]
    omega
  · simp

theorem get_passArgs {args : List Word} (hn : min n PhysReg.params.length ≤ args.length)
    (hq : q ∈ PhysReg.params.take n) (m m' : Machine) :
    (m'.passArgs args).regs.get q = (m.passArgs args).regs.get q := by
  obtain ⟨w, hw⟩ := mem_zip_params hn hq
  have hnd : ((PhysReg.params.zip (args.map some)).map (·.1)).Nodup := by
    rw [zip_eq_zip_take_min, map_fst_zip (by simp)]
    exact List.Nodup.sublist (take_sublist _ _) (by decide)
  simp only [Machine.passArgs]
  rw [RegFile.get_setMany_of_mem _ hnd hw, RegFile.get_setMany_of_mem _ hnd hw]

/-! ## The simulation -/

/-- Two frames are at the same point of a function and of the coloured one. -/
structure Placed (f g : Func) (c : Coloring) (fr fr' : Frame) : Prop where
  func : fr.func = f
  func' : fr'.func = g
  layout : fr.block ∈ f.layout
  block : fr'.block = fr.block
  suffix : fr.code <:+ f.code fr.block
  code : fr'.code = fr.code.map (·.mapOperands (colorOperand c))
  slots : fr'.slots = fr.slots
  incoming : fr'.incoming = fr.incoming
  pushed : fr'.pushed = fr.pushed

def liveNow (f : Func) (fr : Frame) : RegSet := liveAt ((analyze f).atEnd fr.block) fr.code

/-- Two frames wait for a call at the same point. -/
def Waiting (p : Program) (cl cl' : Caller) : Prop :=
  ∃ f g c regs, (∃ id : FuncId, p.functions[id]? = some f) ∧ Coloured f g c ∧
    Placed f g c cl.frame cl'.frame ∧ cl.dst = none ∧ cl'.dst = none ∧
    cl'.saved = (PhysReg.calleeSaved.map fun r => (r, RegFile.get regs r)) ∧
    Preserved c (liveNow f cl.frame) cl.frame regs

/-- Two configurations are at the same point and agree on what is live. -/
def Tinted (p : Program) (x y : Config) : Prop :=
  ∃ f g c, (∃ id : FuncId, p.functions[id]? = some f) ∧ Coloured f g c ∧ Placed f g c x.frame y.frame ∧
    Agree c (liveNow f x.frame) x.machine x.frame y.machine.regs ∧
    y.machine = x.machine.withRegs y.machine.regs ∧ List.Forall₂ (Waiting p) x.callers y.callers

section Placed

variable (hpl : Placed f g c fr fr') (hcode : fr.code = i :: rest)

include hpl hcode

theorem Placed.code_eq : fr'.code = i.mapOperands (colorOperand c) ::
    rest.map (·.mapOperands (colorOperand c)) := by
  rw [hpl.code, hcode, map_cons]

theorem Placed.next (pushed : List Word) {regs slots slots' : Array (Option Word)}
    (hslots : slots' = slots) :
    Placed f g c { fr with regs := regs, slots := slots, pushed := pushed, code := rest }
      { fr' with
        slots := slots', pushed := pushed, code := rest.map (·.mapOperands (colorOperand c)) } :=
  { hpl with
    suffix := (suffix_cons i rest).trans (hcode ▸ hpl.suffix)
    code := rfl
    slots := hslots
    pushed := rfl }

end Placed

theorem liveNow_eq (hcode : fr.code = i :: rest) :
    liveNow f fr = liveBefore i (liveAt ((analyze f).atEnd fr.block) rest) := by
  rw [liveNow, hcode, liveAt_cons]

section Simulation

variable {arity : FuncId → Nat} {p q : Program} (hp : SettledProgram arity p)
  (hparams : ∀ (id : FuncId) (f : Func), p.functions[id]? = some f → f.params = [])
  (hq : ∀ (id : FuncId) (f : Func), p.functions[id]? = some f →
    ∃ g c, q.functions[id]? = some g ∧ Coloured f g c)

include hp hparams in
/-- A function starts in agreement: only arguments are live, and both sides have them. -/
theorem tinted_enter (hf : p.functions[id]? = some f) (hc : Coloured f g c) {args : List Word}
    (hargs : min (arity id) PhysReg.params.length ≤ args.length) (hm : m' = m.withRegs m'.regs)
    (hcallers : List.Forall₂ (Waiting p) callers callers') :
    Tinted p ⟨m.passArgs args, .enter f args, callers⟩
      ⟨m'.passArgs args, .enter g args, callers'⟩ := by
  have hset := (hp id f hf).1
  refine ⟨f, g, c, ⟨id, hf⟩, hc, ?_, ?_, ?_, hcallers⟩
  · exact {
      func := rfl
      func' := rfl
      layout := hset.shaped.entry
      block := hc.entry
      suffix := suffix_refl _
      code := by
        change g.code g.entry = (f.code f.entry).map _
        rw [hc.entry, hc.code _ hset.shaped.entry]
      slots := congrArg (Array.replicate · none) hc.slots
      incoming := rfl
      pushed := rfl }
  · intro r hr w hw
    cases r with
    | virt v =>
      simp only [regValue, reg_enter (hparams id f hf)] at hw
      cases hw
    | phys s =>
      have hstart := (mem_atStart_iff hset.flows hset.shaped.entry).2 hr
      refine ⟨s, rfl, ?_⟩
      rw [get_passArgs hargs (phys_atStart hset hstart).2 m m']
      exact hw
  · rw [hm]
    rfl

section Instr

variable (hpl : Placed f g c fr fr') (hag : Agree c (liveNow f fr) m fr m'.regs)
  (hm : m' = m.withRegs m'.regs) (hcallers : List.Forall₂ (Waiting p) callers callers')

include hag hm in
theorem Agree.next (hcode : fr.code = i :: rest) (hr : Reads m fr i.sources vs) :
    Reads m' fr' (i.mapOperands (colorOperand c)).sources vs := by
  rw [liveNow_eq hcode] at hag
  rw [sources_mapOperands]
  exact hag.reads hm hr

include hp hpl hag hm hcallers

theorem tinted_ret {v : Option Operand} (hcode : fr.code = .ret v :: rest)
    (hr : Reads m fr v.toList vs) :
    Answers q (Tinted p) ⟨m', fr', callers'⟩ (step p ⟨m, fr, callers⟩) := by
  refine .ret hcode hr (hpl.code_eq hcode) (hag.next hm hcode hr) rfl (congrArg Machine.output hm :)
    hcallers ?_
  rintro cl cl' callers callers' ⟨f1, g1, c1, regs, ⟨id1, hf1⟩, hc1, hpl1, hdst, hdst', hsaved, hpres⟩
    hcallers
  rw [hdst, hdst', finishCall_none, finishCall_none]
  refine .ok ⟨f1, g1, c1, ⟨id1, hf1⟩, hc1, hpl1, ?_, by rw [hm]; rfl, hcallers⟩
  refine agree_afterCall (vs.getD 0 0)
    (fun _ => phys_live (hp id1 f1 hf1).1.toAbiding hpl1.layout hpl1.suffix) fun u hu w hw => ?_
  obtain ⟨s, hs, hcolor, hget⟩ := hpres u hu w hw
  refine ⟨s, hs, hcolor, ?_⟩
  rw [hsaved]
  exact (get_setMany_saved _ _ hs).trans hget

variable (hf : p.functions[id]? = some f) (hc : Coloured f g c)

include hf hc

theorem tinted_goto (hcode : fr.code = i :: rest) (hterm : i.isTerminator = true)
    {t : BlockId} (ht : t ∈ i.successors) :
    Tinted p ⟨m, fr.goto t, callers⟩ ⟨m', fr'.goto t, callers'⟩ := by
  have hset := (hp id f hf).1
  have hsuf : i :: rest <:+ f.code fr.block := hcode ▸ hpl.suffix
  obtain ⟨rfl, htargets, hlayout⟩ := hset.shaped.successor hpl.layout hsuf hterm ht
  refine ⟨f, g, c, ⟨id, hf⟩, hc, ?_, ?_, hm, hcallers⟩
  · exact { hpl with
      layout := hlayout
      block := rfl
      suffix := by
        change fr.func.code t <:+ f.code t
        exact hpl.func ▸ suffix_refl _
      code := by
        change fr'.func.code t = (fr.func.code t).map _
        rw [hpl.func', hpl.func, hc.code t hlayout] }
  · intro r hr w hw
    refine hag r ?_ w hw
    have hstart : r ∈ (analyze f).atStart t := by
      refine (mem_atStart_iff hset.flows hlayout).2 ?_
      simpa only [liveNow, Frame.goto, hpl.func] using hr
    have hend : r ∈ (analyze f).atEnd fr.block := by
      refine (mem_atEnd_iff hset.flows hpl.layout).2 ⟨t, ?_, hstart⟩
      rw [hset.flows.succs _ hpl.layout]
      exact htargets
    -- A jump writes nothing, so what is live after it is live before it.
    rw [liveNow_eq hcode, liveAt_nil, mem_liveBefore]
    exact .inl ⟨hend, not_mem_defs_of_isTerminator hterm r⟩

theorem tinted_simple (hcode : fr.code = i :: rest) (hi : IsSimple i)
    (hr : Reads m fr i.sources vs) :
    Answers q (Tinted p) ⟨m', fr', callers'⟩ (step p ⟨m, fr, callers⟩) := by
  have hsuf : i :: rest <:+ f.code fr.block := hcode ▸ hpl.suffix
  have hstore : SameStore m fr m' fr' :=
    ⟨by rw [hm]; rfl, by rw [hm]; rfl, hpl.incoming,
      fun k w h => by simpa only [Frame.slot, hpl.slots] using h⟩
  refine .simple hcode hi hr (hpl.code_eq hcode) ((isSimple_mapOperands _ _).2 hi)
    (hag.next hm hcode hr) (act_mapOperands hstore (colorOperand c)) ?_
  rintro a _ m1 fr1 hact rfl happly
  obtain ⟨m1', happly', hm1, hag1, hfr1⟩ := apply_agree { fr with code := rest }
    { fr' with code := rest.map (·.mapOperands (colorOperand c)) }
    hc (hp id f hf).1 hpl.layout hsuf hact hr (liveNow_eq (f := f) hcode ▸ hag) hm hpl.slots
    hpl.pushed happly
  refine ⟨_, happly', f, g, c, ⟨id, hf⟩, hc, ?_, ?_, hm1, hcallers⟩
  · rw [hfr1]
    exact hpl.next hcode _ rfl
  · have hlive : liveNow f fr1 = liveAt ((analyze f).atEnd fr.block) rest := by
      rw [hfr1]
      rfl
    rw [hlive]
    exact hag1

theorem tinted_builtin {b : Builtin} (hcode : fr.code = .call none (.builtin b) args n :: rest)
    (hr : Reads m fr args vs) :
    Answers q (Tinted p) ⟨m', fr', callers'⟩ (step p ⟨m, fr, callers⟩) := by
  have hsuf : _ :: rest <:+ f.code fr.block := hcode ▸ hpl.suffix
  refine .builtin hcode hr (hpl.code_eq hcode) (hag.next hm hcode hr) (T := (·.withRegs m'.regs))
    (by rw [hpl.pushed, hm, callBuiltin_withRegs]; rfl) fun w m1 => ?_
  refine .ok ⟨f, g, c, ⟨id, hf⟩, hc, hpl.next hcode [] hpl.slots, ?_, rfl, hcallers⟩
  exact agree_afterCall w
    (fun _ => phys_live (hp id f hf).1.toAbiding hpl.layout ((suffix_cons _ _).trans hsuf))
    (preserved_at_call hc hpl.layout hsuf (liveNow_eq (f := f) hcode ▸ hag))

include hparams hq in
theorem tinted_call {callee : FuncId} (hcode : fr.code = .call none (.func callee) args n :: rest)
    (hr : Reads m fr args vs) :
    Answers q (Tinted p) ⟨m', fr', callers'⟩ (step p ⟨m, fr, callers⟩) := by
  have hsuf : _ :: rest <:+ f.code fr.block := hcode ▸ hpl.suffix
  refine .call hcode hr (hpl.code_eq hcode) (hag.next hm hcode hr) hcallers.length_eq.symm
    fun f1 hf1 => ?_
  obtain ⟨g1, c1, hg1, hc1⟩ := hq callee f1 hf1
  have hlen : args.length = vs.length := hr.length_eq
  have hargs := (hp id f hf).2 _ hpl.layout none callee args n (hsuf.subset mem_cons_self)
  rw [hpl.pushed]
  refine ⟨g1, hg1, tinted_enter hp hparams hf1 hc1 ?_ hm (.cons ?_ hcallers)⟩
  · rw [length_append]
    omega
  · exact ⟨f, g, c, m'.regs, ⟨id, hf⟩, hc, hpl.next hcode [] hpl.slots, rfl, rfl, rfl,
      preserved_at_call hc hpl.layout hsuf (liveNow_eq (f := f) hcode ▸ hag)⟩

end Instr

include hp hparams hq in
theorem simulates_coloured : Simulates p q (Tinted p) := by
  rintro ⟨m, fr, callers⟩ ⟨m', fr', callers'⟩ ⟨f, g, c, ⟨id, hf⟩, hc, hpl, hag, hm, hcallers⟩
  refine .of_reads fun i rest vs hcode hr => ?_
  have habides : Abides i :=
    suffix_abides (hp id f hf).1.toAbiding hpl.layout (hcode ▸ hpl.suffix)
  by_cases hi : IsSimple i
  · exact tinted_simple hp hpl hag hm hcallers hf hc hcode hi hr
  · have hcode' := hpl.code_eq hcode
    cases i with
    | jump t =>
      rw [step_jump hcode]
      exact ⟨_, Steps.one (step_jump hcode'),
        tinted_goto hp hpl hag hm hcallers hf hc hcode rfl (by simp [Instr.successors])⟩
    | branch cond lhs rhs t e =>
      obtain ⟨l, r, hl, hrr, rfl⟩ := reads_two.1 hr
      have hreads : Reads m' fr' [colorOperand c lhs, colorOperand c rhs] _ := hag.next hm hcode hr
      obtain ⟨l', r', hl', hr', heq⟩ := reads_two.1 hreads
      cases heq
      rw [step_branch hcode hl hrr]
      exact ⟨_, Steps.one (step_branch hcode' hl' hr'),
        tinted_goto hp hpl hag hm hcallers hf hc hcode rfl (mem_successors_branch ..)⟩
    | ret v => exact tinted_ret hp hpl hag hm hcallers hcode hr
    | call dst callee args k =>
      obtain ⟨rfl, -⟩ := habides.calls _ _ _ _ rfl
      cases callee with
      | builtin b => exact tinted_builtin hp hpl hag hm hcallers hf hc hcode hr
      | func callee => exact tinted_call hp hparams hq hpl hag hm hcallers hf hc hcode hr
    | _ => exact absurd ⟨rfl, rfl⟩ hi

end Simulation

end MxStar.Alloc
