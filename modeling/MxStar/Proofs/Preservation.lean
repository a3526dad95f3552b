import MxStar.Proofs.ConventionCalls

/-!
The back end keeps what a program does.

A call that ends in a value, or in an error that a program with a meaning can end in, ends in the
same way once the calling convention is explicit (`callEnds_conventional`), and again once registers
are allocated (`callEnds_allocated_of_conventional`).
-/
namespace MxStar.Alloc

open IR Interp List

theorem exists_conventional_function {p : Program} {gs : List Func}
    (hrel : List.Forall₂ Conventional p.functions.toList gs) (id : FuncId) (f : Func)
    (hf : p.functions[id]? = some f) :
    ∃ g, (withFunctions p gs).functions[id]? = some g ∧ Conventional f g := by
  obtain ⟨g, hg, hfg⟩ := forall₂_getElem? hrel (Array.getElem?_toList.trans hf)
  exact ⟨g, functions_withFunctions.2 hg, hfg⟩

/-- A call starts with taking the arguments over, and is then where it is without the convention. -/
theorem exists_aligned_start {p : Program} (hp : p.WellFormed) {gs : List Func}
    (hrel : List.Forall₂ Conventional p.functions.toList gs) {id : FuncId} {f : Func}
    (hf : p.functions[id]? = some f) {args : List Word} (hargs : args.length = f.params.length)
    (input : String) : ∃ g d, (withFunctions p gs).functions[id]? = some g ∧
      Steps (withFunctions p gs) (.start (withFunctions p gs) g args input) d ∧
      ConfigAligned p (.start p f args input) d := by
  obtain ⟨g, hg, hfg⟩ := exists_conventional_function hrel id f hf
  obtain ⟨fr, hopen, hal⟩ := steps_opening (q := withFunctions p gs) (k := [])
    (m := Machine.start (withFunctions p gs) input) (hp f (Array.mem_of_getElem? hf)) hfg hargs.ge
    (fun _ => rfl)
  exact ⟨g, _, hg, hopen, f, g, ⟨id, hf⟩, hfg, hal, rfl, .nil⟩

/-- **Making the convention explicit keeps the outcome** of every call in a well-formed program that
uses neither physical registers nor the stack, whatever the number of arguments. -/
theorem callEnds_conventional {p : Program} (hp : p.WellFormed) (hno : NoPhysRegs p)
    (hst : NoStackUse p) {id : FuncId} {f : Func} (hf : p.functions[id]? = some f)
    {args : List Word} (hargs : args.length = f.params.length) {input : String}
    {o : Except RunError Outcome} (ho : ∀ e, o = .error e → ¬e.Void)
    (h : CallEnds p id args input o) :
    ∃ q, conventional p = .ok q ∧ CallEnds q id args input o := by
  obtain ⟨gs, hgs, hrel⟩ := exists_conventionalProgram fun f hf => (hp f hf).shaped
  refine ⟨_, hgs, ?_⟩
  have hq := exists_conventional_function hrel
  obtain ⟨g, d, hg, hopen, haligned⟩ := exists_aligned_start hp hrel hf hargs input
  rw [callEnds_iff hf] at h
  rw [callEnds_iff hg]
  exact .of_steps hopen ((simulates_conventional hp hno hst hq).ends haligned
    (definite_of_aligned hp hno hst hq haligned h ho) h)

/-- Once the convention is explicit, functions open by binding their parameters. -/
theorem settled_of_conventional {p q : Program} (hp : p.WellFormed) (hno : NoPhysRegs p)
    (hq : conventional p = .ok q) : SettledProgram (arity p) q ∧
      ∀ (id : FuncId) (g : Func), q.functions[id]? = some g → Opens g := by
  obtain ⟨gs, hgs, hrel⟩ := exists_conventionalProgram fun f hf => (hp f hf).shaped
  obtain rfl : withFunctions p gs = q := Except.ok.inj (hgs.symm.trans hq)
  refine ⟨settledProgram_conventional hp hno hrel, fun id g hg => ?_⟩
  obtain ⟨f, _, hfg⟩ := forall₂_getElem? hrel.flip (functions_withFunctions.1 hg)
  exact opens_conventional hfg

/-- **Register allocation keeps the outcome.** The program `q` comes of making the calling
convention explicit in a well-formed program without physical registers. Whatever the palette, if
allocation succeeds then every call with arguments for all parameters ends as it did before. -/
theorem callEnds_allocated_of_conventional {p q r : Program} (hp : p.WellFormed)
    (hno : NoPhysRegs p) (hq : conventional p = .ok q) {palette : List PhysReg}
    (hpal : ∀ x ∈ palette, x ∈ PhysReg.allocatable) {stats : List Stats}
    (hr : allocated palette q = .ok (r, stats)) {id : FuncId} {f : Func}
    (hf : q.functions[id]? = some f) {args : List Word} (hargs : args.length = f.params.length)
    {input : String} {o : Except RunError Outcome} (ho : Definite o)
    (h : CallEnds q id args input o) : CallEnds r id args input o := by
  obtain ⟨hset, hopens⟩ := settled_of_conventional hp hno hq
  obtain ⟨gs, hgs, hrel⟩ := exists_conventionalProgram fun f hf => (hp f hf).shaped
  obtain rfl : withFunctions p gs = q := Except.ok.inj (hgs.symm.trans hq)
  have harity : min (arity p id) PhysReg.params.length ≤ args.length := by
    obtain ⟨f0, hf0, hfg⟩ := forall₂_getElem? hrel.flip (functions_withFunctions.1 hf)
    rw [Array.getElem?_toList] at hf0
    rw [arity_eq hf0, hargs, hfg.params]
    exact Nat.min_le_left ..
  exact callEnds_allocated hpal hset hr harity ho ((simulatesCall_bare hopens id args).callEnds ho h)

/-- A program with one function, which divides its parameters. -/
def quotient : Program where
  functions := #[{
    name := "quotient"
    label := "quotient"
    params := [0, 1]
    blocks := #[{
      name := "entry"
      instrs := [.binary (.vreg 2) .div (.vreg 0) (.vreg 1), .ret (some (.vreg 2))] }]
    layout := [0]
    hints := #["a", "b", "q"] }]

theorem mem_quotient {f : Func} (hf : f ∈ quotient.functions) {b : BlockId} (hb : b ∈ f.layout) {i : Instr}
    (hi : i ∈ f.code b) : i = .binary (.vreg 2) .div (.vreg 0) (.vreg 1) ∨ i = .ret (some (.vreg 2)) := by
  simp only [quotient, mem_toArray, mem_singleton] at hf
  subst hf
  rw [mem_singleton.1 hb] at hi
  simpa only [Func.code, Func.block, getElem?_toArray, getElem?_cons_zero,
    Option.getD_some, mem_cons, not_mem_nil, or_false] using hi

theorem wellFormed_quotient : quotient.WellFormed := by
  intro f hf
  have hinstrs := fun b (hb : b ∈ f.layout) i (hi : i ∈ f.code b) => mem_quotient hf hb hi
  simp only [quotient, mem_toArray, mem_singleton] at hf
  subst hf
  refine ⟨by decide, by decide, by decide, ?_, by decide, ?_⟩
  · intro b hb
    rw [mem_singleton.1 hb]
    exact ⟨⟨_, rfl, rfl⟩, by decide⟩
  · intro b hb i hi
    rcases hinstrs b hb i hi with rfl | rfl <;>
      exact ⟨by decide +revert, by simp [Instr.operands, Instr.dst?, Instr.sources, Func.vregCount],
        by simp [Instr.address?], by decide +revert, by simp⟩

theorem noPhysRegs_quotient : NoPhysRegs quotient := by
  intro f hf b hb i hi
  rcases mem_quotient hf hb hi with rfl | rfl <;>
    simp [Instr.operands, Instr.dst?, Instr.sources, NoPhys]

theorem noStackUse_quotient : NoStackUse quotient := by
  intro f hf b hb i hi
  rcases mem_quotient hf hb hi with rfl | rfl <;>
    exact ⟨by simp, by simp [Instr.address?], by simp [Instr.address?]⟩

theorem callEnds_conventional_quotient : ∃ q, conventional quotient = .ok q ∧
    CallEnds q 0 [17, 0] "" (.error .divisionByZero) :=
  callEnds_conventional wellFormed_quotient noPhysRegs_quotient noStackUse_quotient rfl rfl
    (by rintro e ⟨⟩; exact id) ⟨1, by decide +kernel⟩

theorem call_quotient : (do
    let q ← (conventional quotient).toOption
    let r ← (allocated PhysReg.allocatable q).toOption
    let f ← q.functions[0]?
    return (f.params.length, r.1.functions.size, (call q 0 [17, 5] "" 20).toOption)) =
      some (2, 1, some ⟨3, ""⟩) := by
  decide +kernel

theorem callEnds_allocated_quotient : ∃ q r stats, conventional quotient = .ok q ∧
    allocated PhysReg.allocatable q = .ok (r, stats) ∧ CallEnds r 0 [17, 5] "" (.ok ⟨3, ""⟩) := by
  have hcall := call_quotient
  simp only [Option.bind_eq_bind, Option.bind_eq_some_iff, Except.toOption_eq_some,
    Option.pure_def, Option.some.injEq, Prod.mk.injEq] at hcall
  obtain ⟨q, hq, ⟨r, stats⟩, hr, f, hf, hlen, -, hcall⟩ := hcall
  have hargs : ([17, 5] : List Word).length = f.params.length := hlen.symm
  exact ⟨q, r, stats, hq, hr, callEnds_allocated_of_conventional wellFormed_quotient
    noPhysRegs_quotient hq (fun _ h => h) hr hf hargs trivial ⟨20, hcall⟩⟩

end MxStar.Alloc
