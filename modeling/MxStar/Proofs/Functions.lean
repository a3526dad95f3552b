import Mathlib.Data.List.Nodup
import MxStar.Alloc.Expansion
import MxStar.IR.Program

/-!
Functions: their blocks, and what rewriting the layout does to them.

`Func.WellFormed` is what the stages after lowering are promised. `Replaced R` relates code to the code that
comes of replacing its instructions one by one, as `R` says. An expansion does that to every block of the
layout (`expandBlocks_spec`), with new registers from a range of their own (`Expands`).
-/
namespace MxStar.IR

open List

variable {b : BlockId}

/-! ## Blocks -/

namespace Func

theorem block_modifyBlock (f : Func) (b c : BlockId) (g : Block → Block) :
    (f.modifyBlock b g).block c = if b = c ∧ c < f.blocks.size then g (f.block c) else f.block c := by
  simp only [block, modifyBlock, Array.getElem?_modify]
  by_cases hc : c < f.blocks.size
  · by_cases hb : b = c
    · simp [hb, hc]
    · simp [hb]
  · by_cases hb : b = c
    · simp [hb, hc]
    · simp [hb]

theorem block_setCode (f : Func) (b c : BlockId) (code : List Instr) (hb : b < f.blocks.size) :
    (f.setCode b code).block c =
      if b = c then { f.block c with instrs := code } else f.block c := by
  rw [setCode, block_modifyBlock]
  by_cases h : b = c
  · subst h
    simp [hb]
  · simp [h]

theorem code_setCode (f : Func) (b c : BlockId) (code : List Instr) (hb : b < f.blocks.size) :
    (f.setCode b code).code c = if b = c then code else f.code c := by
  rw [Func.code, block_setCode f b c code hb]
  split <;> rfl

@[simp] theorem size_modifyBlock (f : Func) (b : BlockId) (g : Block → Block) :
    (f.modifyBlock b g).blocks.size = f.blocks.size := by
  simp [modifyBlock]

@[simp] theorem size_setCode (f : Func) (b : BlockId) (code : List Instr) :
    (f.setCode b code).blocks.size = f.blocks.size := by
  simp [setCode]

theorem code_eq_nil (f : Func) (h : f.blocks.size ≤ b) : f.code b = [] := by
  simp [code, block, Array.getElem?_eq_none h]

theorem mem_code {f : Func} {i : Instr} (h : i ∈ f.code b) :
    ∃ block ∈ f.blocks, i ∈ block.instrs := by
  rw [code, block] at h
  cases hb : f.blocks[b]? with
  | none =>
    rw [hb] at h
    cases h
  | some block =>
    rw [hb] at h
    exact ⟨block, Array.mem_of_getElem? hb, h⟩

theorem code_addBlock (f : Func) (name : String) (c : BlockId) :
    (f.addBlock name).code c = f.code c := by
  simp only [code, block, addBlock, Array.getElem?_push]
  split
  · next h => simp [h]
  · rfl

end Func

/-! ## Operands -/

section Operands

variable {Q : Operand → Prop} {dst lhs rhs src : Operand}

theorem forall_operands_binary {op : BinOp} :
    (∀ o ∈ (Instr.binary dst op lhs rhs).operands, Q o) ↔ Q dst ∧ Q lhs ∧ Q rhs := by
  change (∀ o ∈ [dst, lhs, rhs], Q o) ↔ _
  simp

theorem forall_operands_unary {op : UnOp} :
    (∀ o ∈ (Instr.unary dst op src).operands, Q o) ↔ Q dst ∧ Q src := by
  change (∀ o ∈ [dst, src], Q o) ↔ _
  simp

theorem forall_operands_compare {cond : CmpOp} :
    (∀ o ∈ (Instr.compare dst cond lhs rhs).operands, Q o) ↔ Q dst ∧ Q lhs ∧ Q rhs := by
  change (∀ o ∈ [dst, lhs, rhs], Q o) ↔ _
  simp

theorem forall_operands_move :
    (∀ o ∈ (Instr.move dst src).operands, Q o) ↔ Q dst ∧ Q src := by
  change (∀ o ∈ [dst, src], Q o) ↔ _
  simp

theorem forall_operands_load {a : Address} :
    (∀ o ∈ (Instr.load dst a).operands, Q o) ↔ Q dst ∧ ∀ o ∈ a.operands, Q o := by
  change (∀ o ∈ dst :: a.operands, Q o) ↔ _
  simp

theorem forall_operands_store {a : Address} :
    (∀ o ∈ (Instr.store a src).operands, Q o) ↔ (∀ o ∈ a.operands, Q o) ∧ Q src := by
  change (∀ o ∈ a.operands ++ [src], Q o) ↔ _
  simp [or_imp, forall_and]

theorem forall_operands_call {d : Option Operand} {callee : Callee} {args : List Operand}
    {n : Nat} : (∀ o ∈ (Instr.call d callee args n).operands, Q o) ↔
      (∀ o ∈ d, Q o) ∧ ∀ o ∈ args, Q o := by
  change (∀ o ∈ d.toList ++ args, Q o) ↔ _
  simp [or_imp, forall_and]

theorem forall_operands_push : (∀ o ∈ (Instr.push src).operands, Q o) ↔ Q src := by
  change (∀ o ∈ [src], Q o) ↔ _
  simp

theorem forall_operands_branch {cond : CmpOp} {t e : BlockId} :
    (∀ o ∈ (Instr.branch cond lhs rhs t e).operands, Q o) ↔ Q lhs ∧ Q rhs := by
  change (∀ o ∈ [lhs, rhs], Q o) ↔ _
  simp

theorem forall_operands_jump {t : BlockId} : ∀ o ∈ (Instr.jump t).operands, Q o := by
  change ∀ o ∈ [], Q o
  simp

theorem forall_operands_ret {v : Option Operand} :
    (∀ o ∈ (Instr.ret v).operands, Q o) ↔ ∀ o ∈ v, Q o := by
  change (∀ o ∈ v.toList, Q o) ↔ _
  simp

end Operands

/-! ## Well-formed functions -/

def EndsOnce (code : List Instr) : Prop :=
  (∃ i ∈ code.getLast?, i.isTerminator = true) ∧ ∀ i ∈ code.dropLast, i.isTerminator = false

theorem EndsOnce.split {code : List Instr} (h : EndsOnce code) :
    ∃ init last, code = init ++ [last] ∧ last.isTerminator = true ∧
      ∀ i ∈ init, i.isTerminator = false := by
  obtain ⟨⟨last, hlast, hterm⟩, hinit⟩ := h
  refine ⟨code.dropLast, last, ?_, hterm, hinit⟩
  exact (dropLast_append_getLast? last hlast).symm

def Instr.address? : Instr → Option Address
  | .load _ a | .store a _ => some a
  | _ => none

/-- The numbers in an instruction of a function are in range, and a call of a function passes as
many arguments as that function has parameters. -/
structure Instr.InRange (p : Program) (f : Func) (i : Instr) : Prop where
  targets : ∀ t ∈ i.successors, t ∈ f.layout
  regs : ∀ v, .vreg v ∈ i.operands → v < f.vregCount
  slots : ∀ k, i.address? = some (.slot k) → k < f.slots
  statics : ∀ s ∈ i.statics, s < p.statics.size
  calls : ∀ dst id args n, i = .call dst (.func id) args n →
    ∃ g, p.functions[id]? = some g ∧ args.length = g.params.length

/-- What the stages after lowering are promised of a function of a program. -/
structure Func.WellFormed (p : Program) (f : Func) : Prop where
  nodup : f.layout.Nodup
  entry : f.entry ∈ f.layout
  blocks : ∀ b ∈ f.layout, b < f.blocks.size
  ends : ∀ b ∈ f.layout, EndsOnce (f.code b)
  params : ∀ v ∈ f.params, v < f.vregCount
  instrs : ∀ b ∈ f.layout, ∀ i ∈ f.code b, i.InRange p f

def Program.WellFormed (p : Program) : Prop := ∀ f ∈ p.functions, f.WellFormed p

/-- The edges of the blocks of a layout are those of their code, and stay in the layout. -/
structure Func.Flows (f : Func) : Prop where
  nodup : f.layout.Nodup
  blocks : ∀ b ∈ f.layout, b < f.blocks.size
  succs : ∀ b ∈ f.layout, (f.block b).succs = (f.block b).targets
  closed : ∀ b ∈ f.layout, ∀ t ∈ (f.block b).succs, t ∈ f.layout
  preds : ∀ b ∈ f.layout, ∀ t ∈ (f.block b).succs, b ∈ (f.block t).preds
  preds_mem : ∀ t, ∀ b ∈ (f.block t).preds, b ∈ f.layout

def Func.Every (P : Instr → Prop) (f : Func) : Prop := ∀ b ∈ f.layout, ∀ i ∈ f.code b, P i

/-! ## Rewriting the layout -/

namespace Func

/-- Rewriting the code of blocks one after another. -/
def rewrite (h : List Instr → List Instr) (l : List BlockId) (f : Func) : Func :=
  l.foldl (fun f b => f.setCode b (h (f.code b))) f

theorem rewrite_spec (h : List Instr → List Instr) :
    ∀ (l : List BlockId) (f : Func), l.Nodup → (∀ b ∈ l, b < f.blocks.size) →
    rewrite h l f = { f with blocks := (rewrite h l f).blocks } ∧
    (rewrite h l f).blocks.size = f.blocks.size ∧
    ∀ b, (rewrite h l f).block b =
      if b ∈ l then { f.block b with instrs := h (f.code b) } else f.block b
  | [], f, _, _ => ⟨rfl, rfl, fun b => by simp [rewrite]⟩
  | c :: l, f, hnd, hin => by
    have hc : c < f.blocks.size := hin c mem_cons_self
    obtain ⟨hcl, hnd'⟩ := nodup_cons.1 hnd
    obtain ⟨heq, hsize, hblock⟩ := rewrite_spec h l (f.setCode c (h (f.code c))) hnd'
      (fun b hb => by simpa using hin b (mem_cons_of_mem _ hb))
    refine ⟨heq, hsize.trans (size_setCode ..), fun b => ?_⟩
    have hb := hblock b
    rw [code_setCode f c b _ hc, block_setCode f c b _ hc] at hb
    change (rewrite h l (f.setCode c (h (f.code c)))).block b = _
    rw [hb]
    by_cases hbc : c = b
    · subst hbc
      simp [hcl]
    · have : b ∈ c :: l ↔ b ∈ l := by simp [Ne.symm hbc]
      simp only [this, if_neg hbc]

theorem code_rewrite {h : List Instr → List Instr} {l : List BlockId} {f : Func} (hnd : l.Nodup)
    (hin : ∀ b ∈ l, b < f.blocks.size) (hb : b ∈ l) : (rewrite h l f).code b = h (f.code b) := by
  rw [code, (rewrite_spec h l f hnd hin).2.2 b, if_pos hb]

end Func

/-! ## Replacing instructions -/

/-- The second code comes of replacing every instruction of the first one as the relation says. -/
inductive Replaced (R : Instr → List Instr → Prop) : List Instr → List Instr → Prop
  | nil : Replaced R [] []
  | cons {i : Instr} {new rest rest' : List Instr} (h : R i new) (hrest : Replaced R rest rest') :
      Replaced R (i :: rest) (new ++ rest')

namespace Replaced

variable {R S : Instr → List Instr → Prop} {code code' : List Instr}

theorem mono (hRS : ∀ i new, R i new → S i new) (h : Replaced R code code') :
    Replaced S code code' := by
  induction h with
  | nil => exact .nil
  | cons h _ ih => exact .cons (hRS _ _ h) ih

theorem exists_of_mem (h : Replaced R code code') {j : Instr} (hj : j ∈ code') :
    ∃ i ∈ code, ∃ new, R i new ∧ j ∈ new := by
  induction h with
  | nil => simp at hj
  | cons h _ ih =>
    rcases mem_append.1 hj with hj | hj
    · exact ⟨_, mem_cons_self, _, h, hj⟩
    · obtain ⟨i, hi, new, hnew, hj⟩ := ih hj
      exact ⟨i, mem_cons_of_mem _ hi, new, hnew, hj⟩

theorem append_inv {a b c : List Instr}
    (h : Replaced R (a ++ b) c) : ∃ a' b', c = a' ++ b' ∧ Replaced R a a' ∧ Replaced R b b' := by
  induction a generalizing c with
  | nil => exact ⟨[], c, rfl, .nil, h⟩
  | cons i a ih =>
    cases h with
    | @cons _ new _ rest' h hrest =>
      obtain ⟨a', b', rfl, ha, hb⟩ := ih hrest
      exact ⟨new ++ a', b', (append_assoc ..).symm, .cons h ha, hb⟩

/-- Where transfers of control are replaced by code that ends with one to the same blocks, and other
instructions by code without one, a block still ends once and goes to the same blocks. -/
theorem endsOnce (h : Replaced R code code')
    (hterm : ∀ i ∈ code, ∀ new, R i new → i.isTerminator = true →
      EndsOnce new ∧ ∀ j ∈ new.getLast?, j.successors = i.successors)
    (hother : ∀ i ∈ code, ∀ new, R i new → i.isTerminator = false →
      ∀ j ∈ new, j.isTerminator = false)
    (hends : EndsOnce code) :
    EndsOnce code' ∧ code'.getLast?.map Instr.successors = code.getLast?.map Instr.successors := by
  induction h with
  | nil => exact ⟨hends, rfl⟩
  | cons h hrest ih =>
    rename_i i new rest rest'
    cases hi : i.isTerminator with
    | true =>
      obtain rfl : rest = [] := by
        cases rest with
        | nil => rfl
        | cons j rest => simp [hends.2 i (by simp)] at hi
      cases hrest
      obtain ⟨hnew, hsucc⟩ := hterm i mem_cons_self new h hi
      rw [append_nil]
      refine ⟨hnew, ?_⟩
      obtain ⟨⟨j, hj, _⟩, _⟩ := hnew
      rw [hj, Option.map_some, hsucc j hj]
      rfl
    | false =>
      obtain ⟨j, rest1, rfl⟩ : ∃ j rest1, rest = j :: rest1 := by
        cases rest with
        | nil =>
          obtain ⟨⟨j, hj, hj'⟩, _⟩ := hends
          simp at hj
          simp [hj, hj'] at hi
        | cons j rest1 => exact ⟨j, rest1, rfl⟩
      have hends' : EndsOnce (j :: rest1) :=
        ⟨by simpa using hends.1, fun k hk => hends.2 k (by simp [hk])⟩
      obtain ⟨hrest', hsucc⟩ := ih (fun k hk => hterm k (mem_cons_of_mem _ hk))
        (fun k hk => hother k (mem_cons_of_mem _ hk)) hends'
      obtain ⟨⟨k, hk, hk'⟩, hinit⟩ := hrest'
      have hne : rest' ≠ [] := by
        rintro rfl
        simp at hk
      refine ⟨⟨⟨k, ?_, hk'⟩, ?_⟩, ?_⟩
      · rw [getLast?_append_of_ne_nil _ hne]
        exact hk
      · intro l hl
        rw [dropLast_append_of_ne_nil hne, mem_append] at hl
        rcases hl with hl | hl
        · exact hother i mem_cons_self new h hi l hl
        · exact hinit l hl
      · rw [getLast?_append_of_ne_nil _ hne, hsucc]
        rfl

end Replaced

end MxStar.IR

namespace MxStar.Alloc

open IR List

/-! ## Expansions -/

def expansion (expand : Instr → Expand Unit) (i : Instr) (hints : Array String) : Expansion :=
  ((expand i).run { hints := hints }).2

def Grows (expand : Instr → Expand Unit) : Prop :=
  ∀ i hints, hints.size ≤ (expansion expand i hints).hints.size

/-- The instructions that an expansion gives for an instruction, with new registers taken from `lo`
on and below `hi`. -/
def Expands (expand : Instr → Expand Unit) (lo hi : Nat) (i : Instr) (new : List Instr) : Prop :=
  ∃ hints, lo ≤ hints.size ∧ (expansion expand i hints).hints.size ≤ hi ∧
    new = (expansion expand i hints).code

theorem Expands.mono {expand : Instr → Expand Unit} {lo hi lo' hi' : Nat} (hlo : lo' ≤ lo)
    (hhi : hi ≤ hi') {i : Instr} {new : List Instr} (h : Expands expand lo hi i new) :
    Expands expand lo' hi' i new := by
  obtain ⟨hints, h1, h2, h3⟩ := h
  exact ⟨hints, Nat.le_trans hlo h1, Nat.le_trans h2 hhi, h3⟩

section

variable {expand : Instr → Expand Unit} (hg : Grows expand)

include hg

theorem expandCode_grows (code : List Instr) (hints : Array String) :
    hints.size ≤ (expandCode expand code hints).2.size := by
  induction code generalizing hints with
  | nil => exact Nat.le_refl _
  | cons i rest ih => exact Nat.le_trans (hg i hints) (ih _)

theorem expandCode_replaced (code : List Instr) (hints : Array String) :
    Replaced (Expands expand hints.size (expandCode expand code hints).2.size) code
      (expandCode expand code hints).1 := by
  induction code generalizing hints with
  | nil => exact .nil
  | cons i rest ih =>
    refine .cons ⟨hints, Nat.le_refl _, expandCode_grows hg rest _, rfl⟩ ?_
    exact (ih _).mono fun _ _ => Expands.mono (hg i hints) (Nat.le_refl _)

/-- Expanding blocks one after another expands each of them once, and changes nothing else. -/
theorem expandBlocks_spec : ∀ (l : List BlockId) (f : Func), l.Nodup →
    (∀ b ∈ l, b < f.blocks.size) →
    let g := l.foldl (expandBlock expand) f
    g = { f with blocks := g.blocks, hints := g.hints } ∧
    g.blocks.size = f.blocks.size ∧ f.vregCount ≤ g.vregCount ∧
    (∀ b ∈ l, Replaced (Expands expand f.vregCount g.vregCount) (f.code b) (g.code b)) ∧
    (∀ b ∉ l, g.code b = f.code b) ∧
    ∀ b, g.block b = { f.block b with instrs := g.code b }
  | [], f, _, _ => ⟨rfl, rfl, Nat.le_refl _, fun b hb => by simp at hb, fun _ _ => rfl, fun _ => rfl⟩
  | c :: l, f, hnd, hin => by
    have hc : c < f.blocks.size := hin c mem_cons_self
    obtain ⟨hcl, hnd'⟩ := nodup_cons.1 hnd
    intro g
    let f' := expandBlock expand f c
    have hcode : ∀ b, f'.code b =
        if c = b then (expandCode expand (f.code c) f.hints).1 else f.code b :=
      fun b => Func.code_setCode f c b _ hc
    have hblock : ∀ b, f'.block b = { f.block b with instrs := f'.code b } := by
      intro b
      have h := Func.block_setCode f c b (expandCode expand (f.code c) f.hints).1 hc
      by_cases hb : c = b
      · subst hb
        simp only [if_pos] at h
        rw [hcode c, if_pos rfl, ← h]
        rfl
      · rw [if_neg hb] at h
        rw [hcode b, if_neg hb]
        exact h
    have hgrow : f.vregCount ≤ f'.vregCount := expandCode_grows hg (f.code c) f.hints
    have hsize' : f'.blocks.size = f.blocks.size := Func.size_setCode f c _
    obtain ⟨heq, hsize, hvreg, hexp, hsame, hrest⟩ := expandBlocks_spec l f' hnd'
      (fun b hb => hsize' ▸ hin b (mem_cons_of_mem _ hb))
    refine ⟨heq, hsize.trans hsize', Nat.le_trans hgrow hvreg, ?_, ?_, ?_⟩
    · intro b hb
      rcases mem_cons.1 hb with rfl | hb
      · have h1 : g.code b = f'.code b := hsame b hcl
        rw [h1, hcode b, if_pos rfl]
        exact (expandCode_replaced hg (f.code b) f.hints).mono
          fun _ _ => Expands.mono (Nat.le_refl _) hvreg
      · have hne : c ≠ b := fun h => hcl (h ▸ hb)
        have h1 := hexp b hb
        rw [hcode b, if_neg hne] at h1
        exact h1.mono fun _ _ => Expands.mono hgrow (Nat.le_refl _)
    · intro b hb
      have hne : c ≠ b := fun h => hb (h ▸ mem_cons_self)
      have h1 : g.code b = f'.code b := hsame b fun h => hb (mem_cons_of_mem _ h)
      rw [h1, hcode b, if_neg hne]
    · intro b
      have h1 : g.block b = { f'.block b with instrs := g.code b } := hrest b
      rw [h1, hblock b]

end

end MxStar.Alloc
