import MxStar.Alloc.Convention
import MxStar.Proofs.AllocationRuns
import MxStar.Proofs.KeptFrames

/-!
Parameters and the block that binds them.

Once the calling convention is explicit, the entry block of a function moves the arguments from where they
arrive to the parameters (`Opens`). The function then does the same whether its parameters are set on entry
or not (`Bared`).
-/
namespace MxStar.Alloc

open IR Interp

variable {m : Machine} {fr : Frame} {callers : List Caller}

def bindings (params : List (VReg × Nat)) : List Instr := params.map fun (v, i) => bindParam v i

def Opens (f : Func) : Prop :=
  ∃ start, f.code f.entry = bindings f.params.zipIdx ++ [.jump start]

theorem functions_bare {p : Program} {id : FuncId} {f : Func} (hf : p.functions[id]? = some f) :
    (withFunctions p (p.functions.toList.map bare)).functions[id]? = some (bare f) := by
  rw [functions_withFunctions, List.getElem?_map, Array.getElem?_toList, hf]
  rfl

/-! ## Frames of functions without parameters -/

def bareFrame (fr : Frame) : Frame := { fr with func := bare fr.func }

def bareCaller (cl : Caller) : Caller := { cl with frame := bareFrame cl.frame }

theorem relabels_bare : Relabels bare id := ⟨fun _ => rfl, fun _ _ => rfl⟩

/-! ## The simulation -/

/-- A frame of a function and one of the function without parameters are at the same point. -/
inductive Bared : Frame → Frame → Prop
  /-- Some parameters are still to be bound. -/
  | opening {fr : Frame} {regs : Array (Option Word)} (pending : List (VReg × Nat))
      {start : BlockId} (code : fr.code = bindings pending ++ [.jump start])
      (size : regs.size = fr.regs.size)
      (bound : ∀ v, v ∉ pending.map (·.1) → regs[v]? = fr.regs[v]?) :
      Bared fr { bareFrame fr with regs := regs }
  | settled (fr : Frame) : Bared fr (bareFrame fr)

def ConfigBared (c d : Config) : Prop :=
  d.machine = c.machine ∧ Bared c.frame d.frame ∧ d.callers = c.callers.map bareCaller

theorem foldl_set_of_not_mem (params : List (VReg × Nat)) (args : List Word)
    (regs : Array (Option Word)) {v : VReg} (hv : v ∉ params.map (·.1)) :
    (params.foldl (fun regs (v, i) => regs.setIfInBounds v (some (args.getD i 0))) regs)[v]? =
      regs[v]? := by
  induction params generalizing regs with
  | nil => rfl
  | cons x params ih =>
    obtain ⟨hne, hv⟩ : v ≠ x.1 ∧ v ∉ params.map (·.1) := by simpa using hv
    rw [List.foldl_cons, ih _ hv, Array.getElem?_setIfInBounds_ne (Ne.symm hne)]

theorem bared_enter {f : Func} (hf : Opens f) (args : List Word) :
    Bared (.enter f args) (.enter (bare f) args) := by
  obtain ⟨start, hcode⟩ := hf
  exact .opening f.params.zipIdx hcode (size_foldl_set _ _ _).symm
    fun v hv => (foldl_set_of_not_mem _ _ _ hv).symm

theorem sources_bindParam (v : VReg) (i : Nat) :
    IsSimple (bindParam v i) ∧ ∀ u, .vreg u ∉ (bindParam v i).sources := by
  unfold bindParam
  split
  · exact ⟨⟨rfl, rfl⟩, by simp [Instr.sources]⟩
  · exact ⟨⟨rfl, rfl⟩, by simp [Instr.sources, Address.operands]⟩

theorem act_bindParam {v : VReg} {i : Nat} {vs : List Word} {a : Action}
    (h : act m fr (bindParam v i) vs = .ok a) : ∃ w, a = .write (.vreg v) w := by
  unfold bindParam at h
  split at h
  · cases h
    exact ⟨_, rfl⟩
  · simp only [act, actLoad] at h
    split at h <;> cases h
    exact ⟨_, rfl⟩

section Simulation

variable {p : Program}
  (hp : ∀ (id : FuncId) (f : Func), p.functions[id]? = some f → Opens f)

theorem bared_binding {regs : Array (Option Word)} {v : VReg} {i : Nat}
    {pending : List (VReg × Nat)} {start : BlockId}
    (hcode : fr.code = bindings ((v, i) :: pending) ++ [.jump start])
    (hsize : regs.size = fr.regs.size)
    (hbound : ∀ u, u ∉ ((v, i) :: pending).map (·.1) → regs[u]? = fr.regs[u]?) {q : Program} :
    Answers q ConfigBared ⟨m, { bareFrame fr with regs := regs }, callers.map bareCaller⟩
      (step p ⟨m, fr, callers⟩) := by
  obtain ⟨hsimple, hsources⟩ := sources_bindParam v i
  have hcode1 : fr.code = bindParam v i :: (bindings pending ++ [.jump start]) := hcode
  refine .of_reads fun j rest vs hc hr => ?_
  obtain ⟨rfl, rfl⟩ := List.cons.inj (hc.symm.trans hcode1)
  have hr0 : Reads m { bareFrame fr with regs := regs } (bindParam v i).sources vs := by
    refine hr.imp fun o ho w hw => ?_
    cases o with
    | vreg u => exact absurd ho (hsources u)
    | _ => exact hw
  refine .simple (P := Eq) hc hsimple hr hcode1 hsimple hr0 (.refl _) ?_
  rintro a _ m1 fr1 hact rfl happly
  obtain ⟨w, rfl⟩ := act_bindParam hact
  simp only [Action.apply, assign, hsize] at happly ⊢
  split at happly
  · next hlt =>
    cases happly
    rw [if_pos hlt]
    refine ⟨_, rfl, rfl, .opening pending rfl (by simp [hsize]) fun u hu => ?_, rfl⟩
    rw [Array.getElem?_setIfInBounds, Array.getElem?_setIfInBounds, hsize]
    by_cases huv : v = u
    · simp [huv]
    · rw [if_neg huv, if_neg huv]
      exact hbound u (by simpa [Ne.symm huv] using hu)
  · cases happly

include hp in
theorem bared_settled :
    Answers (withFunctions p (p.functions.toList.map bare)) ConfigBared
      ⟨m, bareFrame fr, callers.map bareCaller⟩ (step p ⟨m, fr, callers⟩) := by
  refine .of_reads fun i rest vs hcode hr => ?_
  by_cases hcall : ∃ dst id args n, i = .call dst (.func id) args n
  · obtain ⟨dst, callee, args, n, rfl⟩ := hcall
    have hr0 : Reads m (bareFrame fr) args vs := hr.imp fun o _ _ hw => by cases o <;> exact hw
    exact .call hcode hr hcode hr0 (List.length_map _) fun f hf =>
      ⟨bare f, functions_bare hf, rfl, bared_enter (hp callee f hf) _, rfl⟩
  · exact .of_map (T := .relabel bare id) (fun c => ⟨rfl, .settled _, rfl⟩)
      (step_relabel relabels_bare hcode rfl fun dst id args n h => absurd ⟨dst, id, args, n, h⟩ hcall)

include hp in
theorem simulates_bare :
    Simulates p (withFunctions p (p.functions.toList.map bare)) ConfigBared := by
  rintro ⟨m, fr, callers⟩ ⟨m', fr0, callers0⟩ ⟨hm, hframe, hcallers⟩
  cases hm
  cases hcallers
  cases hframe with
  | settled => exact bared_settled hp
  | opening pending hcode hsize hbound =>
    rename_i regs start
    cases pending with
    | cons x pending => exact bared_binding hcode hsize hbound
    | nil =>
      -- With no parameter left to bind, the registers are the same.
      obtain rfl : regs = fr.regs := Array.ext_getElem? fun v => hbound v (by simp)
      exact bared_settled hp

include hp in
/-- A program whose functions open by binding their parameters does the same without them. -/
theorem simulatesCall_bare (id : FuncId) (args : List Word) :
    SimulatesCall p (withFunctions p (p.functions.toList.map bare)) ConfigBared id args where
  simulates := simulates_bare hp
  start := fun f hf _ => ⟨bare f, functions_bare hf, rfl, bared_enter (hp id f hf) args, rfl⟩

end Simulation

end MxStar.Alloc
