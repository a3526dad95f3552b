import MxStar.Proofs.CleanRoutines
import MxStar.Proofs.IntactPrograms

/-!
Compilations that succeed.

`Compiles options tree ir p l` names what a compilation goes through: the register code `ir` that is
handed to the back end, the program `p` after register allocation, and the listing `l` whose text is
the result (`compile_eq_ok_iff`). What is proved of compiled programs starts from here.
-/
namespace MxStar

open IR

variable {f : Func}

/-- The stages of a compilation that succeeds. -/
structure Compiles (options : Options) (tree : Tree.Program) (ir p : Program) (l : Asm.Listing) :
    Prop where
  lowered : ∃ scope, Scope.ofProgram tree = .ok scope ∧ compileToIR scope options tree = .ok ir
  assembled : assemble PhysReg.allocatable ir = .ok (p, l)

/-- **What a compilation goes through.** -/
theorem compile_eq_ok_iff {options : Options} {tree : Tree.Program} {text : String} :
    compile options tree = .ok text ↔ ∃ ir p l, Compiles options tree ir p l ∧ l.render = text := by
  constructor
  · intro h
    obtain ⟨scope, hscope, h⟩ := Except.bind_eq_ok.1 h
    obtain ⟨ir, hir, h⟩ := Except.bind_eq_ok.1 h
    obtain ⟨⟨p, l⟩, hl, h⟩ := Except.bind_eq_ok.1 h
    exact ⟨ir, p, l, ⟨⟨scope, hscope, hir⟩, hl⟩, Except.ok.inj h⟩
  · rintro ⟨ir, p, l, ⟨⟨scope, hscope, hir⟩, hl⟩, rfl⟩
    exact Except.bind_eq_ok.2 ⟨scope, hscope, Except.bind_eq_ok.2 ⟨ir, hir,
      Except.bind_eq_ok.2 ⟨(p, l), hl, rfl⟩⟩⟩

namespace Compiles

variable {options : Options} {tree : Tree.Program} {ir p : Program} {l : Asm.Listing}
  (h : Compiles options tree ir p l)
include h

theorem backEnd : ∃ q stats l0, Alloc.conventional ir = .ok q ∧
      Alloc.allocated PhysReg.allocatable q = .ok (p, stats) ∧ Asm.listing p = .ok l0 ∧
      Asm.clean l0 = l := by
  obtain ⟨q, hq, h⟩ := Except.bind_eq_ok.1 h.assembled
  obtain ⟨⟨p', stats⟩, hp, h⟩ := Except.bind_eq_ok.1 h
  obtain ⟨l', hl, h⟩ := Except.bind_eq_ok.1 h
  obtain ⟨l0, hl0, hclean⟩ := Except.bind_eq_ok.1 hl
  cases h
  exact ⟨q, stats, l0, hq, hp, hl0, Except.ok.inj hclean⟩

theorem complete : ir.Complete := by
  obtain ⟨scope, hscope, hir⟩ := h.lowered
  obtain ⟨q, stats, l0, hq, -⟩ := h.backEnd
  exact Alloc.complete_of_conventional (intact_compileToIR hscope hir) hq

/-- The functions after allocation come of those that were handed to the back end, one by one. -/
theorem forall₂_allocated : List.Forall₂ (fun f0 f => ∃ g stats, Alloc.Conventional f0 g ∧
      Alloc.allocate PhysReg.allocatable g = .ok (f, stats))
      ir.functions.toList p.functions.toList := by
  obtain ⟨q, stats, l0, hq, hp, -⟩ := h.backEnd
  exact Alloc.forall₂_allocated (Alloc.shaped_of_complete h.complete) hq hp

theorem exists_source (hf : f ∈ p.functions) : ∃ f0 g stats, f0 ∈ ir.functions ∧ Alloc.Conventional f0 g ∧
      Alloc.allocate PhysReg.allocatable g = .ok (f, stats) := by
  obtain ⟨q, stats, l0, hq, hp, -⟩ := h.backEnd
  exact Alloc.exists_source (Alloc.shaped_of_complete h.complete) hq hp hf

theorem statics : p.statics = ir.statics := by
  obtain ⟨q, stats, l0, hq, hp, -⟩ := h.backEnd
  obtain ⟨fs, -, hq⟩ := Except.bind_eq_ok.1 hq
  obtain ⟨gs, -, hp⟩ := Except.bind_eq_ok.1 hp
  cases hq
  cases hp
  rfl

theorem emittable (hf : f ∈ p.functions) : Alloc.Emittable f := by
  obtain ⟨q, stats, l0, hq, hp, -⟩ := h.backEnd
  exact Alloc.emittable_allocated (Alloc.shaped_of_complete h.complete)
    (Alloc.noPush_of_complete h.complete) (Alloc.noPhysRegs_of_complete h.complete) hq
    (fun _ hx => hx) hp hf

/-- The routines of the listing are those of the functions after allocation, cleaned up. -/
theorem forall₂_routines :
    List.Forall₂ (fun f x => ∃ y, Asm.routine (.ofProgram p) f = .ok y ∧ Asm.cleanRoutine y = x)
      p.functions.toList l.routines := by
  obtain ⟨q, stats, l0, -, -, hl0, rfl⟩ := h.backEnd
  obtain ⟨ys, hys, hl0⟩ := Except.bind_eq_ok.1 hl0
  cases hl0
  exact List.forall₂_map_right_iff.2 ((mapM_eq_ok_iff.1 hys).imp fun f y hy => ⟨y, hy, rfl⟩)

theorem exists_routine {x : Asm.Routine} (hx : x ∈ l.routines) :
    ∃ f ∈ p.functions, ∃ y, Asm.routine (.ofProgram p) f = .ok y ∧ Asm.cleanRoutine y = x := by
  obtain ⟨k, hk⟩ := List.getElem?_of_mem hx
  obtain ⟨f, hf, hy⟩ := Alloc.forall₂_getElem? h.forall₂_routines.flip hk
  exact ⟨f, Array.mem_toList_iff.1 (List.mem_of_getElem? hf), hy⟩

theorem exists_mem_routines (hf : f ∈ p.functions) :
    ∃ y, Asm.routine (.ofProgram p) f = .ok y ∧ Asm.cleanRoutine y ∈ l.routines := by
  obtain ⟨k, hk⟩ := List.getElem?_of_mem (Array.mem_toList_iff.2 hf)
  obtain ⟨x, hx, y, hy, rfl⟩ := Alloc.forall₂_getElem? h.forall₂_routines hk
  exact ⟨y, hy, List.mem_of_getElem? hx⟩

theorem externs : l.externs = (Asm.calledBuiltins p).map (·.symbol) := by
  obtain ⟨q, stats, l0, -, -, hl0, rfl⟩ := h.backEnd
  obtain ⟨ys, -, hl0⟩ := Except.bind_eq_ok.1 hl0
  cases hl0
  rfl

theorem data : l.data = p.statics.toList.map fun s => ⟨s.label, s.init⟩ := by
  obtain ⟨q, stats, l0, -, -, hl0, rfl⟩ := h.backEnd
  obtain ⟨ys, -, hl0⟩ := Except.bind_eq_ok.1 hl0
  cases hl0
  rfl

theorem orderly (hf : f ∈ p.functions) {y : Asm.Routine} (hy : Asm.routine (.ofProgram p) f = .ok y) :
    Asm.Orderly y :=
  Asm.orderly_routine hy (Asm.labelsDistinct_routine (h.emittable hf).stacked.shaped.nodup hy)

end Compiles

end MxStar
