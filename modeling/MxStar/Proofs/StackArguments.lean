import MxStar.Proofs.IntactPrograms
import MxStar.Proofs.Preservation

/-!
Arguments on the stack.

Making the convention explicit gets the values of the arguments past the sixth on the stack
(`ConfigAligned.steps_pushed`). Register allocation leaves calls alone, so that the allocated program gets to
the same call with the same words pushed for it (`exists_atCall_allocated`).
-/
namespace MxStar.Alloc

open IR Interp List

variable {p q : Program} {callee : Callee} {ws : List Word} {c d : Config}

/-- A configuration is at a call, with words on the stack for it. -/
def AtCall (callee : Callee) (ws : List Word) (c : Config) : Prop :=
  (∃ dst args n rest, c.frame.code = .call dst callee args n :: rest) ∧ c.frame.pushed = ws

theorem AtCall.bared (h : AtCall callee ws c) (hcd : ConfigBared c d) : AtCall callee ws d := by
  have hsame : d.frame.code = c.frame.code ∧ d.frame.pushed = c.frame.pushed := by
    obtain ⟨-, hframe, -⟩ := hcd
    generalize d.frame = fr at hframe
    cases hframe <;> exact ⟨rfl, rfl⟩
  rwa [AtCall, hsame.1, hsame.2]

/-- Calls have no virtual registers, so spilling leaves them as they are. -/
theorem AtCall.inStep (h : AtCall callee ws c) (hp : RoutedProgram p) (hcd : ConfigInStep p c d) :
    AtCall callee ws d := by
  obtain ⟨-, ⟨slots, f, g, ⟨id, hf⟩, hs, hin⟩, -⟩ := hcd
  obtain ⟨⟨dst, args, n, rest, hcode⟩, hpushed⟩ := h
  have hsuf : .call dst callee args n :: rest <:+ f.code c.frame.block := hcode ▸ hin.suffix
  have hrouted := (hp id f hf).2 _ hin.layout _ (hsuf.subset mem_cons_self)
  have hreplaced := hin.code
  rw [hcode] at hreplaced
  generalize hd : d.frame.code = code' at hreplaced
  cases hreplaced with
  | cons hnew hrest =>
    rw [hnew.eq_singleton fun v hv => absurd hv (hrouted.no_vreg (.inl rfl) v)] at hd
    exact ⟨⟨dst, args, n, _, hd⟩, hin.pushed.trans hpushed⟩

theorem AtCall.tinted (h : AtCall callee ws c) (hcd : Tinted p c d) : AtCall callee ws d := by
  obtain ⟨f, g, col, -, -, hpl, -⟩ := hcd
  obtain ⟨⟨dst, args, n, rest, hcode⟩, hpushed⟩ := h
  exact ⟨⟨_, _, _, _, hpl.code_eq hcode⟩, hpl.pushed.trans hpushed⟩

section Calls

variable (hp : p.WellFormed) (hno : NoPhysRegs p) (hst : NoStackUse p) (hq : conventional p = .ok q)
  {id : FuncId} {f : Func} (hf : p.functions[id]? = some f) {args : List Word}
  (hargs : args.length = f.params.length) {input : String} {dst : Option Operand}
  {operands : List Operand} {n : Nat} {rest : List Instr} {vs : List Word}

include hp hno hq hf hargs

include hst in
theorem exists_atCall_conventional (h : CallReaches p id args input c)
    (hcode : c.frame.code = .call dst callee operands n :: rest)
    (hreads : Reads c.machine c.frame operands vs) :
    ∃ d pad, CallReaches q id args input d ∧ (∀ x ∈ pad, x = 0) ∧
      AtCall callee (vs.drop PhysReg.params.length ++ pad) d := by
  obtain ⟨gs, hgs, hrel⟩ := exists_conventionalProgram fun f hf => (hp f hf).shaped
  obtain rfl : withFunctions p gs = q := Except.ok.inj (hgs.symm.trans hq)
  obtain ⟨f', hf', hsteps⟩ := h
  obtain rfl := Option.some.inj (hf'.symm.trans hf)
  obtain ⟨g, d0, hg, hopen, hstart⟩ := exists_aligned_start hp hrel hf hargs input
  obtain ⟨d, hd, hcd⟩ := (simulates_conventional hp hno hst
    (exists_conventional_function hrel)).steps hstart hsteps
  obtain ⟨d', pad, dst', args', n', rest', hpass, hpad, hcode', hpushed⟩ :=
    hcd.steps_pushed (q := withFunctions p gs) hp hno hst hcode hreads
  exact ⟨d', pad, ⟨g, hg, (hopen.trans hd).trans hpass⟩, hpad, ⟨dst', args', n', rest', hcode'⟩, hpushed⟩

/-- **Register allocation keeps what is pushed for a call.** -/
theorem exists_atCall_allocated {r : Program} {palette : List PhysReg}
    (hpal : ∀ x ∈ palette, x ∈ PhysReg.allocatable) {stats : List Stats}
    (hr : allocated palette q = .ok (r, stats)) (h : CallReaches q id args input c)
    (hat : AtCall callee ws c) : ∃ d, CallReaches r id args input d ∧ AtCall callee ws d := by
  obtain ⟨hset, hopens⟩ := settled_of_conventional hp hno hq
  have harity : min (arity p id) PhysReg.params.length ≤ args.length := by
    rw [arity_eq hf, hargs]
    exact Nat.min_le_left ..
  refine allocated_induct
    (P := fun r => ∃ d, CallReaches r id args input d ∧ AtCall callee ws d) hpal hset hr ?_ ?_ ?_
  · obtain ⟨d, hd, hcd⟩ := (simulatesCall_bare hopens id args).callReaches h
    exact ⟨d, hd, hat.bared hcd⟩
  · rintro fs gs hbare hspilled ⟨c, hc, hat⟩
    obtain ⟨d, hd, hcd⟩ := (simulatesCall_spilled hbare hspilled id args).callReaches hc
    exact ⟨d, hd, hat.inStep hbare.1.routed hcd⟩
  · rintro fs gs hbare hcoloured ⟨c, hc, hat⟩
    obtain ⟨d, hd, hcd⟩ := (simulatesCall_coloured hbare hcoloured harity).callReaches hc
    exact ⟨d, hd, hat.tinted hcd⟩

end Calls

/-- Every call of a function passes as many arguments as the function has parameters. -/
def CallsMatch (p : Program) : Prop :=
  ∀ f ∈ p.functions, f.Every fun i => ∀ dst id args n, i = .call dst (.func id) args n →
    ∀ g, p.functions[id]? = some g → args.length = g.params.length

theorem within_address {i : Instr} {K : Known} {a : Address} (hi : i.Within K)
    (ha : i.address? = some a) : a.Within K := by
  cases i with
  | load =>
    cases ha
    exact hi.2
  | store =>
    cases ha
    exact hi.1
  | _ => cases ha

section Complete

variable (h : p.Complete)

include h

theorem noStackUse_of_complete : NoStackUse p := by
  intro f hf b hb i hi
  have hwithin := (h f hf).within b i hi
  exact ⟨noPush_of_complete h f hf b hb i hi, fun k hk => within_address hwithin hk,
    fun k hk => within_address hwithin hk⟩

theorem wellFormed_of_complete (hcalls : CallsMatch p) : p.WellFormed := by
  intro f hf
  have hintact := h f hf
  have hshaped := shaped_of_complete h f hf
  refine ⟨hshaped.nodup, hshaped.entry, hshaped.blocks, hshaped.ends, hintact.params, ?_⟩
  intro b hb i hi
  have hwithin := hintact.within b i hi
  refine ⟨fun t ht => (hintact.layout t).2 (within_successors hwithin ht).1, fun v hv => ?_,
    fun k hk => (within_address hwithin hk).elim, Pass.within_statics hwithin, ?_⟩
  · exact (Pass.within_operands hwithin _ hv).elim (·.1) id
  · rintro dst id args n rfl
    have hid : id < p.functions.size := hwithin.2.1
    have hg : p.functions[id]? = some p.functions[id] := Array.getElem?_eq_getElem hid
    exact ⟨_, hg, hcalls f hf b hb _ hi dst id args n rfl _ hg⟩

end Complete

end MxStar.Alloc
