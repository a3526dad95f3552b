import MxStar.Proofs.Preservation
import MxStar.Proofs.SpillRounds

/-!
Spilling registers of one function in a program where the calling convention is explicit.

The registers may be any, also those that hold parameters. Without the parameters the program does the same
(`simulates_bare`), and the spilled program follows that one (`simulates_spilled`). The slots of the spilled
registers lie behind those that the function had (`KeepsSlots`).
-/
namespace MxStar.Alloc

open IR Interp

variable {p : Program} {f g : Func} {slots : Slots} {id : FuncId}

/-! ## Programs without parameters -/

theorem Spilled.bare (h : Spilled slots f g) : Spilled slots (bare f) g :=
  ⟨h.label, h.base, h.frame, h.entry, h.layout, h.vregs, h.size, h.block, h.code⟩

theorem exists_of_functions_bare
    (hf : (withFunctions p (p.functions.toList.map bare)).functions[id]? = some f) :
    ∃ f0, p.functions[id]? = some f0 ∧ f = bare f0 := by
  rw [functions_withFunctions, List.getElem?_map, Array.getElem?_toList,
    Option.map_eq_some_iff] at hf
  obtain ⟨f0, hf0, rfl⟩ := hf
  exact ⟨f0, hf0, rfl⟩

theorem RoutedProgram.bare (hp : RoutedProgram p) :
    RoutedProgram (withFunctions p (p.functions.toList.map bare)) := by
  intro id f hf
  obtain ⟨f0, hf0, rfl⟩ := exists_of_functions_bare hf
  obtain ⟨hshaped, hrouted⟩ := hp id f0 hf0
  exact ⟨⟨hshaped.nodup, hshaped.entry, hshaped.blocks, hshaped.ends, hshaped.targets⟩, hrouted⟩

/-! ## Slots of a running program -/

def KeepsSlots (fr fr' : Frame) : Prop := ∀ k, k < fr.slots.size → fr'.slot k = fr.slot k

/-- The machine is the same, and the slots of all frames have the same contents. -/
structure ConfigKeepsSlots (c d : Config) : Prop where
  machine : d.machine = c.machine
  frame : KeepsSlots c.frame d.frame
  callers : List.Forall₂ (fun cl cl' => KeepsSlots cl.frame cl'.frame) c.callers d.callers

theorem FrameInStep.keepsSlots {fr fr' : Frame} (h : FrameInStep p fr fr') : KeepsSlots fr fr' := by
  obtain ⟨slots, f, g, -, -, hin⟩ := h
  intro k hk
  exact hin.backed.below k (hin.backed.slots_size ▸ hk)

theorem Bared.slots_eq {fr fr' : Frame} (h : Bared fr fr') : fr'.slots = fr.slots := by
  cases h <;> rfl

/-- A program that follows the one without parameters keeps the slots that there were with them. -/
theorem ConfigInStep.keepsSlots {c e d : Config} (hbared : ConfigBared c e)
    (hin : ConfigInStep p e d) : ConfigKeepsSlots c d := by
  obtain ⟨hm, hframe, hcallers⟩ := hbared
  obtain ⟨hm', hframe', hcallers'⟩ := hin
  refine ⟨hm'.trans hm, ?_, ?_⟩
  · have hkept := hframe'.keepsSlots
    simp only [KeepsSlots, Frame.slot, hframe.slots_eq] at hkept ⊢
    exact hkept
  · rw [hcallers, List.forall₂_map_left_iff] at hcallers'
    exact hcallers'.imp fun cl cl' h => h.1.keepsSlots

/-! ## Programs with spilled functions -/

section Programs

variable {p : Program} {gs : List Func}
  (hopens : ∀ (id : FuncId) (f : Func), p.functions[id]? = some f → Opens f)
  (hrouted : RoutedProgram p)
  (hspilled : ∀ (id : FuncId) (f : Func), p.functions[id]? = some f →
    ∃ g slots, (withFunctions p gs).functions[id]? = some g ∧ Spilled slots f g)

include hrouted hspilled

/-- The program with spilled functions follows the one without parameters, from the start of every
call. -/
theorem simulatesCall_spilled_bare (id : FuncId) (args : List Word) :
    SimulatesCall (withFunctions p (p.functions.toList.map bare)) (withFunctions p gs)
      (ConfigInStep (withFunctions p (p.functions.toList.map bare))) id args := by
  have hparams : ∀ (id : FuncId) (f : Func),
      (withFunctions p (p.functions.toList.map bare)).functions[id]? = some f → f.params = [] := by
    intro id f hf
    obtain ⟨f0, -, rfl⟩ := exists_of_functions_bare hf
    rfl
  refine ⟨simulates_spilled hrouted.bare hparams fun id f hf => ?_, fun f hf input => ?_⟩
  · obtain ⟨f0, hf0, rfl⟩ := exists_of_functions_bare hf
    obtain ⟨g, slots, hg, hs⟩ := hspilled id f0 hf0
    exact ⟨g, slots, hg, hs.bare⟩
  · obtain ⟨f0, hf0, rfl⟩ := exists_of_functions_bare hf
    obtain ⟨g, slots, hg, hs⟩ := hspilled id f0 hf0
    exact ⟨g, hg, rfl, frameInStep_enter hrouted.bare hparams hf hs.bare args, .nil⟩

include hopens

/-- **Spilling keeps the outcome** of every call. -/
theorem keepsEnds_spilled_of_opens : KeepsEnds p (withFunctions p gs) := by
  intro id args input o ho hends
  have hbare := (simulatesCall_bare hopens id args).callEnds ho hends
  exact (simulatesCall_spilled_bare hrouted hspilled id args).callEnds ho hbare

/-- **Spilling keeps the slots**: wherever a call gets, it gets with the functions spilled, and there the
slots that were there before have the same contents. -/
theorem callReaches_spilled_of_opens {args : List Word} {input : String} {c : Config}
    (h : CallReaches p id args input c) :
    ∃ d, CallReaches (withFunctions p gs) id args input d ∧ ConfigKeepsSlots c d := by
  obtain ⟨e, he, hce⟩ := (simulatesCall_bare hopens id args).callReaches h
  obtain ⟨d, hd, hed⟩ := (simulatesCall_spilled_bare hrouted hspilled id args).callReaches he
  exact ⟨d, hd, hed.keepsSlots hce⟩

end Programs

/-! ## Spilling one function -/

theorem spilled_set (hf : p.functions[id]? = some f) (hs : Spilled slots f g) (k : FuncId)
    (f' : Func) (hf' : p.functions[k]? = some f') :
    ∃ g' slots, (withFunctions p (p.functions.toList.set id g)).functions[k]? = some g' ∧
      Spilled slots f' g' := by
  rw [← Array.getElem?_toList] at hf hf'
  by_cases hk : id = k
  · subst hk
    obtain rfl : f = f' := Option.some.inj (hf.symm.trans hf')
    have hlt : id < p.functions.toList.length := (List.getElem?_eq_some_iff.1 hf).1
    exact ⟨g, slots, functions_withFunctions.2 (List.getElem?_set_self hlt), hs⟩
  · obtain ⟨-, slots', hs'⟩ := SpilledForm.refl f'
    refine ⟨f', slots', functions_withFunctions.2 ?_, hs'⟩
    rw [List.getElem?_set_ne hk, hf']

/-- The slots of spilled registers are new, and no two registers have the same. -/
theorem Spilled.slot_fresh (h : Spilled slots f g) {v : VReg} (hv : v ∈ slots.spilled) :
    ∃ k, slots.get? v = some k ∧ f.slots ≤ k ∧ k < g.slots ∧ ∀ u, slots.get? u = some k → u = v := by
  obtain ⟨k, hk⟩ := Option.isSome_iff_exists.1 (Slots.isSome_get?_iff.2 hv)
  obtain ⟨hlo, hhi⟩ := Slots.get?_range hk
  rw [h.base] at hlo hhi
  exact ⟨k, hk, hlo, h.frame ▸ hhi, fun u hu => Slots.get?_inj hu hk⟩

/-- **Spilling any registers of a function keeps the meaning of the program**, once the calling convention
is explicit. The registers do not occur any more. Every definite end of a call is one with the registers
spilled. The slot of each register is new and its own, and wherever a call gets, the slots that were there
before have the same contents. -/
theorem spilling_keeps_meaning {p q : Program} (hp : ∀ f ∈ p.functions, f.Shaped)
    (hq : conventional p = .ok q) {id : FuncId} {f g : Func} (hf : q.functions[id]? = some f)
    {spills unspillable : SortedSet VReg} (hspills : ∀ v ∈ spills, v < f.vregCount)
    (hg : (spillRegs f spills unspillable).1 = g) :
    (∀ b ∈ g.layout, ∀ v ∈ spills, ¬Occurs v (g.code b)) ∧
      KeepsEnds q (withFunctions q (q.functions.toList.set id g)) ∧
      Spilled ⟨f.slots, spills⟩ f g ∧
      (∀ v ∈ spills, ∃ k, (Slots.mk f.slots spills).get? v = some k ∧ f.slots ≤ k ∧ k < g.slots ∧
        ∀ u, (Slots.mk f.slots spills).get? u = some k → u = v) ∧
      ∀ callee args input c, CallReaches q callee args input c →
        ∃ d, CallReaches (withFunctions q (q.functions.toList.set id g)) callee args input d ∧
          ConfigKeepsSlots c d := by
  subst hg
  obtain ⟨gs, hgs, hrel⟩ := exists_conventionalProgram hp
  rw [hq, Except.ok.injEq] at hgs
  have hrouted : RoutedProgram q := hgs ▸ routedProgram_conventional hrel
  have hopens : ∀ (id : FuncId) (f : Func), q.functions[id]? = some f → Opens f := by
    intro id f hf
    rw [hgs] at hf
    obtain ⟨f0, -, hconv⟩ := forall₂_getElem? hrel.flip (functions_withFunctions.1 hf)
    exact opens_conventional hconv
  have hs := spilled_spillRegs (hrouted id f hf).1 spills unspillable
  have hset := spilled_set hf hs
  refine ⟨fun b hb v hv hocc => ?_, keepsEnds_spilled_of_opens hopens hrouted hset, hs,
    fun v hv => hs.slot_fresh hv,
    fun callee args input c => callReaches_spilled_of_opens hopens hrouted hset⟩
  rw [hs.layout] at hb
  obtain ⟨-, hkept⟩ | ⟨hlo, -⟩ := occurs_spillRegs hb hocc
  · exact hkept hv
  · exact absurd (hspills v hv) (Nat.not_lt.2 hlo)

theorem call_conventional_quotient : (do
    let q ← (conventional quotient).toOption
    let f ← q.functions[0]?
    return (f.vregCount, (call q 0 [17, 5] "" 20).toOption)) = some (3, some ⟨3, ""⟩) := by
  decide +kernel

theorem spilling_keeps_quotient : ∃ q f, conventional quotient = .ok q ∧ q.functions[0]? = some f ∧
    CallEnds (withFunctions q (q.functions.toList.set 0
      (spillRegs f (SortedSet.ofList [0, 2]) ∅).1)) 0 [17, 5] "" (.ok ⟨3, ""⟩) := by
  have hcall := call_conventional_quotient
  simp only [Option.bind_eq_bind, Option.bind_eq_some_iff, Except.toOption_eq_some,
    Option.pure_def, Option.some.injEq, Prod.mk.injEq] at hcall
  obtain ⟨q, hq, f, hf, hcount, hcall⟩ := hcall
  have hspills : ∀ v ∈ SortedSet.ofList [0, 2], v < f.vregCount := by
    rw [hcount]
    decide
  obtain ⟨-, hkeeps, -⟩ := spilling_keeps_meaning
    (fun f hf => (wellFormed_quotient f hf).shaped) hq hf hspills rfl
  exact ⟨q, f, hq, hf, hkeeps 0 [17, 5] "" _ trivial ⟨20, hcall⟩⟩

end MxStar.Alloc
