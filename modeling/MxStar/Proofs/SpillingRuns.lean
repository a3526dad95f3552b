import MxStar.Proofs.Registers
import MxStar.Proofs.SpilledFunctions

/-!
Code runs the same with some registers spilled.

A frame of the spilled function has the registers that are not spilled in place and the others in their slots
(`Backed`). One step is matched by the code that spilling made of the instruction.
-/
namespace MxStar.Alloc

open IR Interp List

variable {fr fr' : Frame} {rest rest' : List Instr} {callers callers' : List Caller} {slots : Slots}
  {τ : VReg → VReg} {k : SlotId} {m : Machine} {f g : Func} {id : FuncId} {vs : List Word}
  {w : Word} {regs : Array (Option Word)}

/-! ## Loads and stores of slots -/

section Steps

variable {p : Program} {m : Machine} {fr : Frame} {callers : List Caller} {rest : List Instr}

theorem step_load_slot {t : VReg} (hc : fr.code = .load (.vreg t) (.slot k) :: rest)
    (hk : fr.slot k = some w) (ht : t < fr.regs.size) :
    step p ⟨m, fr, callers⟩ = .running
      ⟨m, { fr with code := rest, regs := fr.regs.setIfInBounds t (some w) }, callers⟩ := by
  rw [step_simple hc ⟨rfl, rfl⟩ (reads_nil.2 rfl)]
  simp only [act, actLoad, hk, Except.ok_bind, Action.apply, assign, if_pos ht]
  rfl

theorem step_store_slot {o : Operand} (hc : fr.code = .store (.slot k) o :: rest)
    (ho : value m fr o = .ok w) (hk : k < fr.slots.size) :
    step p ⟨m, fr, callers⟩ = .running
      ⟨m, { fr with code := rest, slots := fr.slots.setIfInBounds k (some w) }, callers⟩ := by
  rw [step_simple hc ⟨rfl, rfl⟩ (reads_one.2 ⟨w, ho, rfl⟩)]
  simp only [act, actStore, Except.ok_bind, Action.apply, if_pos hk]
  rfl

end Steps

theorem reg_set {t : VReg} (ht : t < fr.regs.size) (w : Word) (u : VReg) :
    Frame.reg { fr with regs := fr.regs.setIfInBounds t (some w) } u =
      if t = u then some w else fr.reg u :=
  join_setIfInBounds _ _ _ _ ht

theorem slot_set (hk : k < fr.slots.size) (w : Word) (j : SlotId) :
    Frame.slot { fr with slots := fr.slots.setIfInBounds k (some w) } j =
      if k = j then some w else fr.slot j :=
  join_setIfInBounds _ _ _ _ hk

theorem steps_loads {p : Program} (callers : List Caller) (loads : List VReg)
    (hcode : fr.code = loads.map (fun v => .load (.vreg (τ v)) (slots.address v)) ++ rest)
    (hnd : (loads.map τ).Nodup) (hlt : ∀ v ∈ loads, τ v < fr.regs.size)
    (hslot : ∀ v ∈ loads, ∃ k w, slots.get? v = some k ∧ fr.slot k = some w) :
    ∃ regs, Steps p ⟨m, fr, callers⟩ ⟨m, { fr with regs := regs, code := rest }, callers⟩ ∧
      regs.size = fr.regs.size ∧
      (∀ v ∈ loads, ∀ k, slots.get? v = some k → (regs[τ v]?).join = fr.slot k) ∧
      ∀ u, u ∉ loads.map τ → (regs[u]?).join = fr.reg u := by
  induction loads generalizing fr with
  | nil =>
    refine ⟨fr.regs, ?_, rfl, by simp, fun _ _ => rfl⟩
    rw [map_nil, nil_append] at hcode
    rw [← hcode]
  | cons v loads ih =>
    obtain ⟨hv, hnd⟩ := nodup_cons.1 hnd
    obtain ⟨k, w, hk, hw⟩ := hslot v mem_cons_self
    have ht := hlt v mem_cons_self
    rw [map_cons, cons_append] at hcode
    rw [Slots.address, hk, Option.getD_some] at hcode
    obtain ⟨regs, hsteps, hsize, hloaded, hkept⟩ := @ih
      { fr with
        code := loads.map (fun v => .load (.vreg (τ v)) (slots.address v)) ++ rest
        regs := fr.regs.setIfInBounds (τ v) (some w) } rfl hnd
      (fun u hu => by simpa using hlt u (mem_cons_of_mem _ hu))
      (fun u hu => hslot u (mem_cons_of_mem _ hu))
    refine ⟨regs, Steps.cons (step_load_slot hcode hw ht) hsteps, by simpa using hsize, ?_, ?_⟩
    · intro u hu j hj
      rcases mem_cons.1 hu with rfl | hu
      · rw [hkept _ hv]
        rw [hk] at hj
        cases hj
        rw [hw]
        exact (reg_set ht w _).trans (if_pos rfl)
      · exact hloaded u hu j hj
    · intro u hu
      rw [map_cons, mem_cons, not_or] at hu
      rw [hkept u hu.2]
      exact (reg_set ht w u).trans (if_neg (Ne.symm hu.1))

/-! ## Frames with spilled registers -/

/-- The second frame has what the first one has: registers that are not spilled in place, the others
in their slots, and the slots that were there before. -/
structure Backed (slots : Slots) (f g : Func) (fr fr' : Frame) : Prop where
  regs_size : fr.regs.size = f.vregCount
  regs_size' : fr'.regs.size = g.vregCount
  slots_size : fr.slots.size = f.slots
  slots_size' : fr'.slots.size = g.slots
  kept : ∀ v, slots.get? v = none → ∀ w, fr.reg v = some w → fr'.reg v = some w
  spilled : ∀ v k, slots.get? v = some k → ∀ w, fr.reg v = some w → fr'.slot k = some w
  below : ∀ k, k < f.slots → fr'.slot k = fr.slot k

theorem reg_lt {v : VReg} (h : fr.reg v = some w) : v < fr.regs.size := by
  by_contra hv
  simp [Frame.reg, Array.getElem?_eq_none (Nat.le_of_not_lt hv)] at h

theorem slot_lt (h : fr.slot k = some w) : k < fr.slots.size := by
  by_contra hk
  simp [Frame.slot, Array.getElem?_eq_none (Nat.le_of_not_lt hk)] at h

namespace Backed

variable {slots : Slots} {f g : Func} {fr fr' : Frame} (h : Backed slots f g fr fr')
include h

theorem sameStore (hin : fr'.incoming = fr.incoming) (m : Machine) : SameStore m fr m fr' :=
  ⟨rfl, rfl, hin, fun k w hk => by rw [h.below k (h.slots_size ▸ slot_lt hk)]; exact hk⟩

theorem congr {fr1 fr1' : Frame} (hr : fr1.regs = fr.regs) (hs : fr1.slots = fr.slots)
    (hr' : fr1'.regs = fr'.regs) (hs' : fr1'.slots = fr'.slots) : Backed slots f g fr1 fr1' := by
  obtain ⟨h1, h2, h3, h4, h5, h6, h7⟩ := h
  simp only [Frame.reg, Frame.slot] at h5 h6 h7
  constructor <;> simp only [Frame.reg, Frame.slot, hr, hs, hr', hs'] <;> assumption

theorem setRegs (hsize : regs.size = fr'.regs.size)
    (hkept : ∀ v, v < f.vregCount → (regs[v]?).join = fr'.reg v) :
    Backed slots f g fr { fr' with regs := regs } :=
  { h with
    regs_size' := hsize.trans h.regs_size'
    kept := fun v hv w hw => (hkept v (h.regs_size ▸ reg_lt hw)).trans (h.kept v hv w hw) }

theorem assign (hs : Spilled slots f g) {dst : Operand} (hdst : slots.ofOperand? dst = none)
    {m1 : Machine} {fr1 : Frame} (hx : Interp.assign m fr dst w = .ok (m1, fr1)) :
    ∃ regs', Interp.assign m fr' dst w = .ok (m1, { fr' with regs := regs' }) ∧
      Backed slots f g fr1 { fr' with regs := regs' } ∧ fr1 = { fr with regs := fr1.regs } := by
  cases dst with
  | vreg v =>
    simp only [Interp.assign] at hx ⊢
    split at hx
    · next hlt =>
      cases hx
      have hlt' : v < fr'.regs.size := by
        rw [h.regs_size']
        exact Nat.lt_of_lt_of_le (h.regs_size ▸ hlt) hs.vregs
      rw [if_pos hlt']
      refine ⟨_, rfl, { h with
        regs_size := by simpa using h.regs_size
        regs_size' := by simpa using h.regs_size'
        kept := fun u hu x => join_set_mono (t := id) (fun _ => id) hlt hlt' (h.kept u hu x)
        spilled := fun u k hu x hx => ?_ }, rfl⟩
      rw [reg_set hlt, if_neg (by rintro rfl; cases hu.symm.trans hdst)] at hx
      exact h.spilled u k hu x hx
    · cases hx
  | phys q =>
    cases hx
    exact ⟨fr'.regs, rfl, h, rfl⟩
  | imm x | static x => cases hx

theorem spill (hs : Spilled slots f g) {v : VReg} (hv : slots.get? v = some k) (hlt : v < fr.regs.size)
    (w : Word) : Backed slots f g { fr with regs := fr.regs.setIfInBounds v (some w) }
      { fr' with slots := fr'.slots.setIfInBounds k (some w) } := by
  obtain ⟨hlo, hhi⟩ := Slots.get?_range hv
  rw [hs.base] at hlo hhi
  have hk : k < fr'.slots.size := by rw [h.slots_size', hs.frame]; exact hhi
  exact { h with
    regs_size := by simpa using h.regs_size
    slots_size' := by simpa using h.slots_size'
    kept := by
      intro u hu x hx
      rw [reg_set hlt, if_neg (by rintro rfl; simp [hv] at hu)] at hx
      exact h.kept u hu x hx
    spilled := by
      intro u j hu x hx
      rw [reg_set hlt] at hx
      rw [slot_set hk]
      split at hx
      · next huv =>
        subst huv
        rw [hv] at hu
        cases hu
        rw [if_pos rfl, hx]
      · next huv =>
        rw [if_neg (by rintro rfl; exact huv (Slots.get?_inj hv hu))]
        exact h.spilled u j hu x hx
    below := by
      intro j hj
      rw [slot_set hk, if_neg (Nat.ne_of_gt (Nat.lt_of_lt_of_le hj hlo))]
      exact h.below j hj }

theorem slot (hs : Spilled slots f g) (hk : k < fr.slots.size) (w : Word) :
    k < fr'.slots.size ∧ Backed slots f g { fr with slots := fr.slots.setIfInBounds k (some w) }
      { fr' with slots := fr'.slots.setIfInBounds k (some w) } := by
  have hkf : k < f.slots := h.slots_size ▸ hk
  have hk' : k < fr'.slots.size := by
    rw [h.slots_size', hs.frame]
    exact Nat.lt_add_right _ hkf
  refine ⟨hk', { h with
    slots_size := by simpa using h.slots_size
    slots_size' := by simpa using h.slots_size'
    spilled := ?_
    below := ?_ }⟩
  · intro u j hu x hx
    obtain ⟨hlo, _⟩ := Slots.get?_range hu
    rw [hs.base] at hlo
    rw [slot_set hk', if_neg (Nat.ne_of_lt (Nat.lt_of_lt_of_le hkf hlo))]
    exact h.spilled u j hu x hx
  · intro j hj
    rw [slot_set hk', slot_set hk]
    split
    · rfl
    · exact h.below j hj

theorem value_eq {o : Operand} (ho : slots.ofOperand? o = none) (hw : value m fr o = .ok w) :
    value m fr' o = .ok w := by
  cases o with
  | vreg v =>
    rw [value_vreg] at hw ⊢
    exact h.kept v ho w hw
  | phys p => exact value_phys.2 (value_phys.1 hw)
  | imm x => exact hw
  | static s => exact hw

end Backed

/-! ## One instruction -/

section Instruction

variable {slots : Slots} {f g : Func} {p : Program} {m m1 : Machine} {fr fr' fr1 : Frame}
  {callers : List Caller} {i : Instr} {rest rest' : List Instr} {vs : List Word}

/-- The loads before an instruction bring the spilled registers that it reads to where it reads
them. -/
theorem steps_before (callers : List Caller) (hb : Backed slots f g fr fr') {loads : List VReg}
    (hτ : Renames slots f.vregCount g.vregCount i τ) (hnd : loads.Nodup)
    (hloads : ∀ v, v ∈ loads ↔ .vreg v ∈ i.sources ∧ (slots.get? v).isSome) (hcode : fr'.code =
      loads.map (fun v => .load (.vreg (τ v)) (slots.address v)) ++ rest')
    (hr : Reads m fr i.sources vs) :
    ∃ regs, Steps p ⟨m, fr', callers⟩ ⟨m, { fr' with regs := regs, code := rest' }, callers⟩ ∧
      Backed slots f g fr { fr' with regs := regs, code := rest' } ∧
      Reads m { fr' with regs := regs, code := rest' }
        (i.mapOperands (renameVReg τ)).sources vs := by
  have hop : ∀ v ∈ loads, .vreg v ∈ i.operands ∧ (slots.get? v).isSome := fun v hv =>
    ⟨mem_operands_of_source ((hloads v).1 hv).1, ((hloads v).1 hv).2⟩
  have hfresh : ∀ v ∈ loads, f.vregCount ≤ τ v ∧ τ v < g.vregCount := fun v hv =>
    hτ.fresh v (hop v hv).1 (hop v hv).2
  -- A register that is read is defined, so if it is spilled its slot is.
  have hread : ∀ v, .vreg v ∈ i.sources → ∃ w, fr.reg v = some w := by
    intro v hv
    obtain ⟨w, hw⟩ := hr.exists_value hv
    exact ⟨w, value_vreg.1 hw⟩
  obtain ⟨regs, hsteps, hsize, hloaded, hkept⟩ := steps_loads (p := p) (m := m)
    callers loads hcode
    (List.Nodup.map_on (fun v hv v' hv' h => hτ.inj v v' (hop v hv).1 (hop v hv).2 (hop v' hv').1
      (hop v' hv').2 h) hnd)
    (fun v hv => hb.regs_size' ▸ (hfresh v hv).2)
    (fun v hv => by
      obtain ⟨k, hk⟩ := Option.isSome_iff_exists.1 (hop v hv).2
      obtain ⟨w, hw⟩ := hread v ((hloads v).1 hv).1
      exact ⟨k, w, hk, hb.spilled v k hk w hw⟩)
  have hold : ∀ v, v < f.vregCount → v ∉ loads.map τ := by
    intro v hv hmem
    obtain ⟨u, hu, rfl⟩ := mem_map.1 hmem
    exact absurd (hfresh u hu).1 (Nat.not_le.2 hv)
  have hb' : Backed slots f g fr { fr' with regs := regs, code := rest' } :=
    (hb.setRegs hsize fun v hv => hkept v (hold v hv)).congr rfl rfl rfl rfl
  refine ⟨regs, hsteps, hb', ?_⟩
  rw [sources_mapOperands]
  refine hr.map fun o ho w hw => ?_
  cases hs : slots.ofOperand? o with
  | some k =>
    obtain ⟨v, rfl, hv⟩ := ofOperand?_eq_some hs
    rw [renameVReg, value_vreg]
    have hmem : v ∈ loads := (hloads v).2 ⟨ho, by simp [hv]⟩
    exact (hloaded v hmem k hv).trans (hb.spilled v k hv w (value_vreg.1 hw))
  | none =>
    rw [renameVReg_of_keep (by rintro v rfl; exact hτ.keep v hs)]
    exact hb'.value_eq hs hw

theorem spillStore_eq_nil (h : ∀ v, i.dst? = some (.vreg v) → slots.get? v = none) :
    spillStore slots τ i = [] := by
  unfold spillStore
  split
  · next d hd => simp [h d hd]
  · rfl

theorem spillStore_of_spilled {d : VReg} (hd : i.dst? = some (.vreg d))
    (hk : slots.get? d = some k) : spillStore slots τ i = [.store (.slot k) (.vreg (τ d))] := by
  simp [spillStore, hd, hk, Slots.address]

/-- The action of an instruction on new registers, and the store after it, do what the instruction
did. -/
theorem steps_after (callers : List Caller) (hs : Spilled slots f g) (hb : Backed slots f g fr fr')
    (hi : Routed i) (hτ : Renames slots f.vregCount g.vregCount i τ) {a : Action}
    (hact : act m fr i vs = .ok a) (happly : a.apply m fr = .ok (m1, fr1))
    (hpushed : fr'.pushed = fr.pushed) (rest' : List Instr) :
    ∃ fr1', (a.mapDst (renameVReg τ)).apply m { fr' with code := spillStore slots τ i ++ rest' } =
        .ok (m1, fr1') ∧
      ∃ regs' slots', Steps p ⟨m1, fr1', callers⟩ ⟨m1, { fr' with
        regs := regs', slots := slots', pushed := fr1.pushed, code := rest' }, callers⟩ ∧
      Backed slots f g fr1 { fr' with regs := regs', slots := slots' } ∧
      fr1 = { fr with regs := fr1.regs, slots := fr1.slots, pushed := fr1.pushed } := by
  have hnone : (∀ r, r ∉ defs i) → spillStore slots τ i = [] := fun hdefs =>
    spillStore_eq_nil fun v hv => absurd (mem_defs_of_dst hv rfl) (hdefs (.virt v))
  -- Where nothing is stored afterwards, the frame is as the action leaves it.
  have hdone : ∀ regs' slots', Steps p ⟨m1, { fr' with regs := regs', slots := slots', code := rest' },
      callers⟩ ⟨m1, { fr' with regs := regs', slots := slots', pushed := fr.pushed, code := rest' },
      callers⟩ := fun _ _ => hpushed ▸ .refl
  cases actsAs hact with
  | write hdst hdefs hmove =>
    rename_i dst w
    cases hsp : slots.ofOperand? dst with
    | none =>
      have hb0 : Backed slots f g fr { fr' with code := rest' } := hb.congr rfl rfl rfl rfl
      obtain ⟨regs', hassign, hb', hfr1⟩ := hb0.assign hs hsp happly
      rw [spillStore_eq_nil (by rintro u hu; cases hdst.symm.trans hu; exact hsp), Action.mapDst,
        renameVReg_of_keep (by rintro v rfl; exact hτ.keep v hsp)]
      rw [hfr1] at hb' ⊢
      exact ⟨_, hassign, _, _, hdone .., hb'.congr rfl rfl rfl rfl, rfl⟩
    | some k =>
      obtain ⟨v, rfl, hv⟩ := ofOperand?_eq_some hsp
      simp only [Action.apply, assign] at happly
      split at happly
      swap
      · cases happly
      next hlt =>
      cases happly
      obtain ⟨hlo, hhi⟩ := hτ.fresh v (mem_operands_of_dst hdst) (by simp [hv])
      have hlt' : τ v < fr'.regs.size := by rw [hb.regs_size']; exact hhi
      have hk : k < fr'.slots.size := by
        rw [hb.slots_size', hs.frame]
        exact hs.base ▸ (Slots.get?_range hv).2
      rw [spillStore_of_spilled hdst hv]
      refine ⟨_, by
        simp only [Action.mapDst, Action.apply, renameVReg, assign, hlt', if_pos]
        rfl, fr'.regs.setIfInBounds (τ v) (some w), fr'.slots.setIfInBounds k (some w), ?_, ?_, rfl⟩
      · refine Steps.one ?_
        rw [← hpushed]
        exact step_store_slot rfl (value_vreg.2 ((reg_set hlt' w _).trans (if_pos rfl))) hk
      · have hb1 : Backed slots f g fr
            { fr' with regs := fr'.regs.setIfInBounds (τ v) (some w) } :=
          hb.setRegs (by simp) fun u hu => (reg_set hlt' w u).trans
            (if_neg (Nat.ne_of_gt (Nat.lt_of_lt_of_le hu hlo)))
        exact hb1.spill hs hv hlt w
  | divide heq hop =>
    subst heq
    obtain ⟨q, rfl⟩ := hi.divides _ _ _ _ rfl hop
    cases happly
    exact ⟨_, rfl, _, _, hdone .., hb, rfl⟩
  | memory hdefs =>
    cases happly
    rw [hnone hdefs]
    exact ⟨_, rfl, _, _, hdone .., hb, rfl⟩
  | slot _ hdefs =>
    rename_i k w _
    simp only [Action.apply] at happly
    split at happly
    · next hk =>
      cases happly
      obtain ⟨hk', hb'⟩ := hb.slot hs hk w
      rw [hnone hdefs]
      exact ⟨_, by simp only [Action.mapDst, Action.apply, hk', if_pos]; rfl, _, _, hdone .., hb', rfl⟩
    · cases happly
  | push _ hdefs =>
    cases happly
    rw [hnone hdefs]
    refine ⟨_, rfl, fr'.regs, fr'.slots, ?_, hb.congr rfl rfl rfl rfl, rfl⟩
    rw [← hpushed]
    exact .refl

end Instruction

/-! ## The simulation -/

/-- Two frames are at the same point of a function and of the spilled one. -/
structure InStep (slots : Slots) (f g : Func) (fr fr' : Frame) : Prop where
  func : fr.func = f
  func' : fr'.func = g
  layout : fr.block ∈ f.layout
  suffix : fr.code <:+ f.code fr.block
  code : Replaced (SpillsTo slots f.vregCount g.vregCount) fr.code fr'.code
  incoming : fr'.incoming = fr.incoming
  pushed : fr'.pushed = fr.pushed
  backed : Backed slots f g fr fr'

/-- A function of the program and a spilled form of it, with a frame of each at the same point. -/
def FrameInStep (p : Program) (fr fr' : Frame) : Prop :=
  ∃ slots f g, (∃ id : FuncId, p.functions[id]? = some f) ∧ Spilled slots f g ∧
    InStep slots f g fr fr'

def CallerInStep (p : Program) (cl cl' : Caller) : Prop :=
  FrameInStep p cl.frame cl'.frame ∧ cl.dst = none ∧ cl'.dst = none ∧ cl'.saved = cl.saved

/-- Two configurations are at the same point, with the same machine. -/
def ConfigInStep (p : Program) (c d : Config) : Prop :=
  d.machine = c.machine ∧ FrameInStep p c.frame d.frame ∧
    List.Forall₂ (CallerInStep p) c.callers d.callers

section Simulation

variable {p q : Program} (hp : RoutedProgram p)
  (hparams : ∀ (id : FuncId) (f : Func), p.functions[id]? = some f → f.params = [])
  (hq : ∀ (id : FuncId) (f : Func), p.functions[id]? = some f →
    ∃ g slots, q.functions[id]? = some g ∧ Spilled slots f g)

include hp hparams in
theorem frameInStep_enter (hf : p.functions[id]? = some f) (hs : Spilled slots f g)
    (args : List Word) : FrameInStep p (.enter f args) (.enter g args) := by
  have hshaped := (hp id f hf).1
  have hnil := hparams id f hf
  refine ⟨slots, f, g, ⟨id, hf⟩, hs, {
    func := rfl
    func' := rfl
    layout := hshaped.entry
    suffix := suffix_refl _
    code := by
      change Replaced _ (f.code f.entry) (g.code g.entry)
      rw [hs.entry]
      exact hs.code _ hshaped.entry
    incoming := rfl
    pushed := rfl
    backed := ?_ }⟩
  exact {
    regs_size := by rw [regs_enter hnil, Array.size_replicate]
    regs_size' := (size_foldl_set _ _ _).trans Array.size_replicate
    slots_size := Array.size_replicate
    slots_size' := Array.size_replicate
    -- No register of the frame is defined yet.
    kept := fun v _ w hw => by
      rw [reg_enter hnil] at hw
      cases hw
    spilled := fun v k _ w hw => by
      rw [reg_enter hnil] at hw
      cases hw
    below := fun k _ => by rw [slot_enter, slot_enter] }

theorem InStep.next (hin : InStep slots f g fr fr') {pushed pushed' : List Word}
    (hpushed : pushed' = pushed) {i : Instr} (hcode : fr.code = i :: rest)
    (hrest : Replaced (SpillsTo slots f.vregCount g.vregCount) rest rest')
    {regs' slotsOf slotsOf' : Array (Option Word)}
    (hb : Backed slots f g { fr with regs := regs, slots := slotsOf }
      { fr' with regs := regs', slots := slotsOf' }) :
    InStep slots f g { fr with regs := regs, slots := slotsOf, pushed := pushed, code := rest }
      { fr' with regs := regs', slots := slotsOf', pushed := pushed', code := rest' } :=
  { hin with
    suffix := (suffix_cons i rest).trans (hcode ▸ hin.suffix)
    code := hrest
    pushed := hpushed
    backed := hb.congr rfl rfl rfl rfl }

section Instr

variable (hf : p.functions[id]? = some f) (hs : Spilled slots f g) (hin : InStep slots f g fr fr')
  (hcallers : List.Forall₂ (CallerInStep p) callers callers') {i : Instr} {new : List Instr}

include hp hf hs hin in
theorem frameInStep_goto (hcode : fr.code = i :: rest)
    (hterm : i.isTerminator = true) {t : BlockId} (ht : t ∈ i.successors) {code : List Instr}
    (hb : Backed slots f g fr { fr' with regs := regs, code := code }) :
    FrameInStep p (fr.goto t) (Frame.goto { fr' with regs := regs, code := code } t) := by
  have hlayout : t ∈ f.layout :=
    ((hp id f hf).1.successor hin.layout (hcode ▸ hin.suffix) hterm ht).2.2
  exact ⟨slots, f, g, ⟨id, hf⟩, hs, { hin with
    layout := hlayout
    suffix := by
      change fr.func.code t <:+ f.code t
      exact hin.func ▸ suffix_refl _
    code := by
      change Replaced _ (fr.func.code t) (fr'.func.code t)
      rw [hin.func, hin.func']
      exact hs.code t hlayout
    backed := hb.congr rfl rfl rfl rfl }⟩

include hcallers in
theorem inStep_ret {v : Option Operand} (hcode : fr.code = .ret v :: rest)
    (hcode' : fr'.code = .ret v :: rest') (hr : Reads m fr v.toList vs)
    (hr' : Reads m fr' v.toList vs) :
    Answers q (ConfigInStep p) ⟨m, fr', callers'⟩ (step p ⟨m, fr, callers⟩) := by
  refine .ret hcode hr hcode' hr' rfl rfl hcallers ?_
  rintro cl cl' callers callers' ⟨hframe, hdst, hdst', hsaved⟩ hcallers
  rw [hdst, hdst', hsaved]
  exact .ok ⟨rfl, hframe, hcallers⟩

include hp hf hs hin hcallers

theorem inStep_simple (hcode : fr.code = i :: rest) (hcode' : fr'.code = new ++ rest')
    (hnew : SpillsTo slots f.vregCount g.vregCount i new)
    (hrest : Replaced (SpillsTo slots f.vregCount g.vregCount) rest rest') (hi : IsSimple i)
    (hr : Reads m fr i.sources vs) :
    Answers q (ConfigInStep p) ⟨m, fr', callers'⟩ (step p ⟨m, fr, callers⟩) := by
  cases hnew with
  | store heq hd hsrc hstorable =>
    rename_i d k src
    subst heq
    obtain ⟨w, hw, rfl⟩ := reads_one.1 hr
    rw [step_simple hcode hi hr]
    simp only [act, getD_cons_zero, Except.ok_bind, Action.apply, assign]
    split
    · next hlt =>
      have hk : k < fr'.slots.size := by
        rw [hin.backed.slots_size', hs.frame]
        exact hs.base ▸ (Slots.get?_range hd).2
      exact ⟨_, Steps.one (step_store_slot hcode' (hin.backed.value_eq hsrc hw) hk), rfl,
        ⟨slots, f, g, ⟨id, hf⟩, hs, hin.next hin.pushed hcode hrest (hin.backed.spill hs hd hlt w)⟩,
        hcallers⟩
    · exact .failed_of_not_definite not_false
  | load heq hdst hv =>
    rename_i dst v k
    subst heq
    obtain ⟨w, hw, rfl⟩ := reads_one.1 hr
    have hk := hin.backed.spilled v k hv w (value_vreg.1 hw)
    refine .simple (P := Eq) hcode hi hr hcode' ⟨rfl, rfl⟩ (reads_nil.2 rfl) ?_ ?_
    · simp only [act, actLoad, hk]
      exact .ok rfl
    · rintro _ _ m1 fr1 ⟨⟩ rfl happly
      have hb : Backed slots f g { fr with code := rest } { fr' with code := rest' } :=
        hin.backed.congr rfl rfl rfl rfl
      obtain ⟨regs', hassign, hb', hfr1⟩ := hb.assign hs hdst happly
      refine ⟨_, hassign, rfl, ⟨slots, f, g, ⟨id, hf⟩, hs, ?_⟩, hcallers⟩
      rw [hfr1] at hb' ⊢
      exact hin.next hin.pushed hcode hrest (hb'.congr rfl rfl rfl rfl)
  | general hτ hnd hloads =>
    rename_i τ loads
    have hrouted : Routed i :=
      (hp id f hf).2 _ hin.layout i (hin.suffix.subset (hcode ▸ mem_cons_self))
    rw [append_assoc, cons_append] at hcode'
    obtain ⟨regs, hsteps, hb, hr'⟩ := steps_before (p := q) callers' hin.backed hτ hnd
      hloads hcode' hr
    refine .of_steps hsteps (.later ?_)
    refine .simple hcode hi hr rfl ((isSimple_mapOperands _ _).2 hi) hr'
      (act_mapOperands (hb.sameStore hin.incoming m) (renameVReg τ)) ?_
    rintro a _ m1 fr1 hact rfl happly
    have hback : Backed slots f g { fr with code := rest } _ := hb.congr rfl rfl rfl rfl
    obtain ⟨fr1', happly', regs', slots', hsteps', hb', hfr1⟩ :=
      steps_after (p := q) callers' hs hback hrouted hτ hact happly hin.pushed rest'
    refine ⟨_, happly', _, hsteps', rfl, ⟨slots, f, g, ⟨id, hf⟩, hs, ?_⟩, hcallers⟩
    rw [hfr1]
    exact hin.next rfl hcode hrest (hb'.congr rfl rfl rfl rfl)

theorem inStep_branch {cond : CmpOp} {lhs rhs : Operand} {t e : BlockId}
    (hcode : fr.code = .branch cond lhs rhs t e :: rest) (hcode' : fr'.code = new ++ rest')
    (hnew : SpillsTo slots f.vregCount g.vregCount (.branch cond lhs rhs t e) new)
    (hr : Reads m fr [lhs, rhs] vs) :
    Answers q (ConfigInStep p) ⟨m, fr', callers'⟩ (step p ⟨m, fr, callers⟩) := by
  obtain ⟨l, r, hl, hrr, rfl⟩ := reads_two.1 hr
  rw [step_branch hcode hl hrr]
  cases hnew with
  | store heq => cases heq
  | load heq => cases heq
  | general hτ hnd hloads =>
    rename_i τ loads
    rw [append_assoc, cons_append] at hcode'
    obtain ⟨regs, hsteps, hb, hr'⟩ := steps_before (p := q) callers' hin.backed hτ hnd
      hloads hcode' hr
    obtain ⟨l', r', hl', hrr', heq⟩ := reads_two.1 hr'
    cases heq
    exact ⟨_, hsteps.tail (step_branch rfl hl' hrr'), rfl,
      frameInStep_goto hp hf hs hin hcode rfl (mem_successors_branch ..) hb, hcallers⟩

include hparams hq in
theorem inStep_call {callee : Callee} {args : List Operand} {n : Nat}
    (hcode : fr.code = .call none callee args n :: rest)
    (hcode' : fr'.code = .call none callee args n :: rest')
    (hrest : Replaced (SpillsTo slots f.vregCount g.vregCount) rest rest')
    (hr : Reads m fr args vs) (hr' : Reads m fr' args vs) :
    Answers q (ConfigInStep p) ⟨m, fr', callers'⟩ (step p ⟨m, fr, callers⟩) := by
  have hframe : FrameInStep p { fr with code := rest, pushed := [] }
      { fr' with code := rest', pushed := [] } :=
    ⟨slots, f, g, ⟨id, hf⟩, hs, hin.next rfl hcode hrest hin.backed⟩
  cases callee with
  | builtin b =>
    refine .builtin (T := fun m => m) hcode hr hcode' hr' ?_ fun w m1 => .ok ⟨rfl, hframe, hcallers⟩
    rw [hin.pushed]
    cases m.callBuiltin b (vs ++ fr.pushed) <;> rfl
  | func callee =>
    refine .call hcode hr hcode' hr' hcallers.length_eq.symm fun f1 hf1 => ?_
    obtain ⟨g1, slots1, hg1, hs1⟩ := hq callee f1 hf1
    rw [hin.pushed]
    exact ⟨g1, hg1, rfl, frameInStep_enter hp hparams hf1 hs1 _,
      .cons ⟨hframe, rfl, rfl, rfl⟩ hcallers⟩

end Instr

include hp hparams hq in
theorem simulates_spilled : Simulates p q (ConfigInStep p) := by
  rintro ⟨m, fr, callers⟩ ⟨m', fr', callers'⟩ ⟨rfl, ⟨slots, f, g, ⟨id, hf⟩, hs, hin⟩, hcallers⟩
  refine .of_reads fun i rest vs hcode hr => ?_
  have hsuf : i :: rest <:+ f.code fr.block := hcode ▸ hin.suffix
  have hrouted : Routed i := (hp id f hf).2 _ hin.layout i (hsuf.subset mem_cons_self)
  have hreplaced := hin.code
  rw [hcode] at hreplaced
  obtain ⟨new, rest', hnew, hrest, hcode'⟩ : ∃ new rest',
      SpillsTo slots f.vregCount g.vregCount i new ∧
      Replaced (SpillsTo slots f.vregCount g.vregCount) rest rest' ∧ fr'.code = new ++ rest' := by
    generalize fr'.code = code' at hreplaced
    cases hreplaced with
    | cons h hrest => exact ⟨_, _, h, hrest, rfl⟩
  by_cases hi : IsSimple i
  · exact inStep_simple hp hf hs hin hcallers hcode hcode' hnew hrest hi hr
  -- Calls, returns and jumps have no virtual registers and stay as they are.
  have hsame : (∀ v, .vreg v ∉ i.operands) →
      fr'.code = i :: rest' ∧ Reads m' fr' i.sources vs := by
    intro hno
    rw [hnew.eq_singleton fun v hv => absurd hv (hno v)] at hcode'
    refine ⟨hcode', hr.imp fun o ho w hw => hin.backed.value_eq ?_ hw⟩
    cases o with
    | vreg v => exact absurd (mem_operands_of_source ho) (hno v)
    | _ => rfl
  cases i with
  | jump t =>
    obtain ⟨hcode', _⟩ := hsame (by simp [Instr.operands, Instr.dst?, Instr.sources])
    rw [step_jump hcode]
    exact ⟨_, Steps.one (step_jump hcode'), rfl,
      frameInStep_goto hp hf hs hin hcode rfl (by simp [Instr.successors])
        (show Backed slots f g fr { fr' with regs := fr'.regs, code := fr'.code } from hin.backed),
      hcallers⟩
  | branch cond lhs rhs t e => exact inStep_branch hp hf hs hin hcallers hcode hcode' hnew hr
  | ret v =>
    obtain ⟨hcode', hr'⟩ := hsame (hrouted.no_vreg (.inr ⟨v, rfl⟩))
    exact inStep_ret hcallers hcode hcode' hr hr'
  | call dst callee args n =>
    obtain ⟨hcode', hr'⟩ := hsame (hrouted.no_vreg (.inl rfl))
    obtain ⟨rfl, -⟩ := hrouted.calls _ _ _ _ rfl
    exact inStep_call hp hparams hq hf hs hin hcallers hcode hcode' hrest hr hr'
  | _ => exact absurd ⟨rfl, rfl⟩ hi

end Simulation

end MxStar.Alloc
