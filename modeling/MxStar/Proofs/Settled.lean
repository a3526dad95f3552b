import MxStar.Proofs.FlowGraph
import MxStar.Proofs.LiveSets

/-!
Code in which the calling convention is explicit.

`Abides` says what the convention wants of an instruction, `Settled` what it wants of a function: nothing
physical is live at the start of a block, except arguments at the start of the entry (`phys_atStart`).
-/
namespace MxStar.Alloc

open IR

variable {b : BlockId} {post : List Instr} {i : Instr} {o : Operand}

/-- A register, or a constant that fits 32 bits. -/
def Encodable : Operand → Prop
  | .vreg _ | .phys _ => True
  | .imm w => fitsImm32 w = true
  | .static _ => False

/-- An instruction divides into a physical register, and passes and returns values in physical
registers. -/
structure Routed (i : Instr) : Prop where
  divides : ∀ dst op l r, i = .binary dst op l r → op = .div ∨ op = .mod → ∃ q, dst = .phys q
  calls : ∀ dst callee args n, i = .call dst callee args n →
    dst = none ∧ ∀ a ∈ args, ∃ q, a = .phys q
  returns : ∀ v, i = .ret (some v) → ∃ q, v = .phys q

/-- An instruction keeps to the calling convention: its values go through physical registers where the
convention wants it, and it uses only registers that calls may destroy. -/
structure Abides (i : Instr) : Prop extends Routed i where
  phys : ∀ q, .phys q ∈ i.operands → q ∈ PhysReg.callerSaved

/-- A function with a flow graph in which every instruction keeps to the convention. -/
structure Abiding (f : Func) : Prop where
  shaped : f.Shaped
  flows : f.Flows
  regs : ∀ b ∈ f.layout, ∀ i ∈ f.code b, ∀ v, .vreg v ∈ i.operands → v < f.vregCount
  abides : ∀ b ∈ f.layout, ∀ i ∈ f.code b, Abides i

/-- The convention is explicit in a function that takes `n` arguments. -/
structure Settled (n : Nat) (f : Func) : Prop extends Abiding f where
  entered : ∀ b ∈ f.layout, f.entry ∉ (f.block b).targets
  quiet : ∀ b ∈ f.layout, b ≠ f.entry → ∀ q, .phys q ∉ liveAt ∅ (f.code b)
  opening : ∀ q, .phys q ∈ liveAt ∅ (f.code f.entry) → q ∈ PhysReg.params.take n

/-- The convention is explicit in every function, and a call passes in registers as many arguments
as the function called takes there. -/
def SettledProgram (arity : FuncId → Nat) (p : Program) : Prop :=
  ∀ id f, p.functions[id]? = some f → Settled (arity id) f ∧
    ∀ b ∈ f.layout, ∀ dst callee args n, .call dst (.func callee) args n ∈ f.code b →
      min (arity callee) PhysReg.params.length ≤ args.length

/-- The functions of the program have a good shape, and their values go through physical registers where
the convention wants it. -/
def RoutedProgram (p : Program) : Prop :=
  ∀ (id : FuncId) (f : Func), p.functions[id]? = some f → f.Shaped ∧ f.Every Routed

theorem SettledProgram.routed {arity : FuncId → Nat} {p : Program} (hp : SettledProgram arity p) :
    RoutedProgram p := fun id f hf =>
  ⟨(hp id f hf).1.shaped, fun b hb i hi => ((hp id f hf).1.abides b hb i hi).toRouted⟩

/-! ## Live registers -/

theorem mem_uses {r : Reg} : r ∈ uses i ↔ ∃ o ∈ i.sources, o.reg? = some r := by
  simp [uses]

theorem mem_operands_of_source (h : o ∈ i.sources) : o ∈ i.operands :=
  List.mem_append_right _ h

theorem mem_operands_of_dst (h : i.dst? = some o) : o ∈ i.operands :=
  List.mem_append_left _ (by simp [h])

theorem Operand.eq_of_reg? :
    (∀ v, o.reg? = some (.virt v) ↔ o = .vreg v) ∧ ∀ q, o.reg? = some (.phys q) ↔ o = .phys q := by
  cases o <;> simp [Operand.reg?]

/-- A register that is live somewhere is read somewhere. -/
theorem exists_source_of_live {f : Func} (hb : b ∈ f.layout) (hpost : post <:+ f.code b) {r : Reg}
    (hr : r ∈ liveAt ((analyze f).atEnd b) post) :
    ∃ b ∈ f.layout, ∃ i ∈ f.code b, ∃ o ∈ i.sources, o.reg? = some r := by
  rcases exists_uses_of_mem_liveAt hr with hr | ⟨i, hi, hr⟩
  · obtain ⟨i, hi, hr⟩ := List.mem_flatMap.1 (mem_readList_of_live f b r (.inr hr))
    obtain ⟨c, hc, hi⟩ := List.mem_flatMap.1 hi
    exact ⟨c, hc, i, hi, mem_uses.1 hr⟩
  · exact ⟨b, hb, i, hpost.subset hi, mem_uses.1 hr⟩

section

variable {n : Nat} {f : Func} (hf : Settled n f)

include hf

/-- Physical registers are live at the start of the entry alone, and only if they carry arguments.
-/
theorem phys_atStart {q : PhysReg} (h : .phys q ∈ (analyze f).atStart b) :
    b = f.entry ∧ q ∈ PhysReg.params.take n := by
  have hsolves : Solves f fun b r => (∃ v, r = .virt v) ∨
      ∃ q, r = .phys q ∧ b = f.entry ∧ q ∈ PhysReg.params.take n := by
    intro b hb r hr
    cases r with
    | virt v => exact .inl ⟨v, rfl⟩
    | phys q =>
      refine .inr ⟨q, rfl, ?_⟩
      have hlive : .phys q ∈ liveAt ∅ (f.code b) := by
        rcases hr with hr | ⟨⟨t, ht, hstart⟩, _⟩
        · exact (mem_summarize_iff _ _ _).1 (.inl hr)
        · -- What is live at the start of a successor is virtual, since none of them is the entry.
          obtain ⟨v, hv⟩ | ⟨q, _, rfl, _⟩ := hstart
          · cases hv
          · rw [hf.flows.succs b hb] at ht
            exact absurd ht (hf.entered b hb)
      by_cases hbe : b = f.entry
      · subst hbe
        exact ⟨rfl, hf.opening q hlive⟩
      · exact absurd hlive (hf.quiet b hb hbe q)
  obtain ⟨v, hv⟩ | ⟨q', hq, hbe, hq'⟩ := analyze_least hf.flows hsolves b _ h
  · cases hv
  · cases hq
    exact ⟨hbe, hq'⟩

end

section

variable {f : Func} (hf : Abiding f)

include hf

theorem phys_live (hb : b ∈ f.layout) (hpost : post <:+ f.code b) {q : PhysReg}
    (h : .phys q ∈ liveAt ((analyze f).atEnd b) post) : q ∈ PhysReg.callerSaved := by
  obtain ⟨c, hc, i, hi, o, ho, hr⟩ := exists_source_of_live hb hpost h
  rw [Operand.eq_of_reg?.2] at hr
  exact (hf.abides c hc i hi).phys q (hr ▸ mem_operands_of_source ho)

theorem suffix_abides (hb : b ∈ f.layout) (hs : i :: post <:+ f.code b) : Abides i :=
  hf.abides b hb i (hs.subset List.mem_cons_self)

end

end MxStar.Alloc
