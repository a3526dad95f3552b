import MxStar.Proofs.DeclaredNames
import MxStar.Proofs.EnoughRegisters
import MxStar.Proofs.SelectableCode

/-!
Compilations succeed.

Where no name of a function, class or method has a dot in it, every function is built, so that the calling
convention can be made explicit. Then there are enough registers (`Alloc.exists_allocate`), and instructions
can be selected for all that allocation leaves (`Alloc.exists_assigned`).
-/
namespace MxStar

open IR List

namespace Alloc

def Assigned (statics functions : Nat) (f : Func) : Prop :=
  f.Every fun i => Selectable statics functions i ∧ ∀ o ∈ i.operands, Allotted o

/-- A function in which the convention is explicit can be allocated. -/
theorem Conventional.exists_allocate {f g : Func} (h : Conventional f g) {statics functions : Nat}
    (hf : f.Intact statics (· < functions)) (hshaped : f.Shaped)
    (hpush : f.Every fun i => ∀ v, i ≠ .push v)
    (hno : f.Every fun i => ∀ o ∈ i.operands, NoPhys o) :
    ∃ r, allocate PhysReg.allocatable g = .ok r ∧ Assigned statics functions r.1 := by
  have hregs : f.Every fun i => ∀ v, .vreg v ∈ i.operands → v < f.vregCount := by
    intro b _ i hi v hv
    exact (Pass.within_operands (hf.within b i hi) _ hv).elim And.left id
  obtain ⟨r, stats, hr⟩ := Alloc.exists_allocate (h.abiding hf.params hregs hno)
  have hsel := selectable_allocate h.shaped (h.selectable hf) hr
  have hops := allotted_allocate (h.prepared hshaped hpush hno) hr
  exact ⟨(r, stats), hr, fun b hb i hi => ⟨hsel b hb i hi, hops b hb i hi⟩⟩

/-- **The back end does not fail on complete programs.** There are enough registers, and all that is
left can be selected. -/
theorem exists_assigned {p : Program} (h : p.Complete) :
    ∃ q r stats, conventional p = .ok q ∧ allocated PhysReg.allocatable q = .ok (r, stats) ∧
      r.statics = p.statics ∧ r.functions.size = p.functions.size ∧
      ∀ f ∈ r.functions, Assigned p.statics.size p.functions.size f := by
  obtain ⟨gs, hgs, hrel⟩ := exists_conventionalProgram (shaped_of_complete h)
  have heach : ∀ g ∈ gs, ∃ r, allocate PhysReg.allocatable g = .ok r ∧
      Assigned p.statics.size p.functions.size r.1 := by
    intro g hg
    obtain ⟨k, hk⟩ := getElem?_of_mem hg
    obtain ⟨f, hf, hfg⟩ := forall₂_getElem? hrel.flip hk
    have hmem : f ∈ p.functions := Array.mem_toList_iff.1 (mem_of_getElem? hf)
    exact hfg.exists_allocate (h f hmem) (shaped_of_complete h f hmem) (noPush_of_complete h f hmem)
      (noPhysRegs_of_complete h f hmem)
  obtain ⟨rs, hrs, hassigned⟩ := exists_mapM_eq_ok heach
  refine ⟨_, { p with functions := (rs.map (·.1)).toArray }, rs.map (·.2), hgs, ?_, rfl, ?_, ?_⟩
  · rw [allocated, withFunctions, toList_toArray, hrs]
    rfl
  · rw [size_toArray, length_map, ← hassigned.length_eq, ← hrel.length_eq,
      Array.length_toList]
  · intro f hf
    obtain ⟨r, hr, rfl⟩ := mem_map.1 (mem_toArray.1 hf)
    obtain ⟨k, hk⟩ := getElem?_of_mem hr
    obtain ⟨g, -, hg⟩ := forall₂_getElem? hassigned.flip hk
    exact hg

end Alloc

/-- There is a listing of every program whose functions can be selected. -/
theorem exists_emitListing {p : Program}
    (h : ∀ f ∈ p.functions, Alloc.Assigned p.statics.size p.functions.size f) :
    ∃ l, emitListing p = .ok l := by
  have hroutines : ∀ f ∈ p.functions.toList, ∃ y, Asm.routine (.ofProgram p) f = .ok y ∧ True := by
    intro f hf
    have hcode : ∀ b ∈ f.layout, Asm.SelectableCode (.ofProgram p) (f.code b) := by
      intro b hb i hi
      rw [Asm.Symbols.ofProgram, Array.size_map, Array.size_map]
      exact h f (Array.mem_toList_iff.1 hf) b hb i hi
    obtain ⟨y, hy⟩ := Asm.exists_routine hcode
    exact ⟨y, hy, trivial⟩
  obtain ⟨ys, hys, -⟩ := exists_mapM_eq_ok hroutines
  exact ⟨_, Except.bind_eq_ok.2 ⟨_, Except.bind_eq_ok.2 ⟨ys, hys, rfl⟩, rfl⟩⟩

/-- **Nothing fails after lowering.** If a program in which no name of a function, class or method has
a dot in it has a scope and can be lowered, then it is compiled, with inlining and without. Every
function of the program that selection starts from has its operands in registers of the palette, as
constants or as statics. -/
theorem compile_of_lowered {tree : Tree.Program} {scope : Scope} {unit : Program}
    (hnames : namesConsistOf (· ≠ '.') tree = true) (hscope : Scope.ofProgram tree = .ok scope)
    (hunit : Lowering.lowerProgram scope tree = .ok unit) (options : Options) :
    ∃ p l, Compiles options tree (optimize options unit) p l ∧
      compile options tree = .ok l.render ∧
      ∀ f ∈ p.functions, f.Every fun i => ∀ o ∈ i.operands, Alloc.Allotted o := by
  have hir : compileToIR scope options tree = .ok (optimize options unit) :=
    Except.bind_eq_ok.2 ⟨unit, hunit, rfl⟩
  have hbuilt : (optimize options unit).Built :=
    built_optimize options (Lowering.lowerProgram_functions hscope hunit hnames).2
  have hcomplete := Alloc.complete_of_built (intact_compileToIR hscope hir) hbuilt
  obtain ⟨q, p, stats, hq, hp, hstatics, hsize, hassigned⟩ := Alloc.exists_assigned hcomplete
  rw [← hstatics, ← hsize] at hassigned
  obtain ⟨l, hl⟩ := exists_emitListing hassigned
  have hcompiles : Compiles options tree (optimize options unit) p l :=
    ⟨⟨scope, hscope, hir⟩, Except.bind_eq_ok.2 ⟨q, hq, Except.bind_eq_ok.2 ⟨(p, stats), hp,
      Except.bind_eq_ok.2 ⟨l, hl, rfl⟩⟩⟩⟩
  refine ⟨p, l, hcompiles, compile_eq_ok_iff.2 ⟨_, p, l, hcompiles, rfl⟩, ?_⟩
  intro f hf b hb i hi
  exact (hassigned f hf b hb i hi).2

theorem compile_of_sample : ∃ scope unit, Scope.ofProgram .sample = .ok scope ∧
    Lowering.lowerProgram scope .sample = .ok unit ∧ namesConsistOf (· ≠ '.') .sample = true ∧
    ∀ options, ∃ p l, Compiles options .sample (optimize options unit) p l ∧
      compile options .sample = .ok l.render ∧
      ∀ f ∈ p.functions, f.Every fun i => ∀ o ∈ i.operands, Alloc.Allotted o := by
  have hsample : (do
      let unit ← Lowering.lowerProgram (← Scope.ofProgram .sample) .sample
      return decide (unit.functions.size ≠ 0)) = .ok true := by
    decide +kernel
  obtain ⟨scope, hscope, h⟩ := Except.bind_eq_ok.1 hsample
  obtain ⟨unit, hunit, -⟩ := Except.bind_eq_ok.1 h
  have hnames : namesConsistOf (· ≠ '.') .sample = true := by decide +kernel
  exact ⟨scope, unit, hscope, hunit, hnames, compile_of_lowered hnames hscope hunit⟩

end MxStar
