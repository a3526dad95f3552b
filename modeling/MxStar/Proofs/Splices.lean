import Mathlib.Data.List.Basic
import Mathlib.Logic.Relation
import MxStar.Pass.Inline
import MxStar.Proofs.Functions

/-!
What inlining one call does to a function.

A `Site` is a call of a function within another. `Spliced` says what becomes of the caller when the call is
replaced by a copy of the function: the block with the call ends by entering the copy, and a last block, the
join, has what came after the call. Inlining in a whole program is a chain of splices
(`inlines_inlineCalls`).
-/
namespace MxStar.Pass

open IR List

variable {b : BlockId}

/-! ## The blocks of a copy -/

namespace Copy

variable (c : Copy)

theorem mem_order (hb : b < c.callee.blocks.size) : b ∈ c.order := by
  by_cases h : b ∈ c.callee.layout
  · exact mem_append_left _ h
  · exact mem_append_right _ (by simp [hb, h])

theorem target_lt (hb : b ∈ c.order) : c.target b < c.join := by
  have hpos := length_pos_of_mem hb
  have hlt : c.order.length - 1 - c.order.reverse.idxOf b < c.order.length := by omega
  exact Nat.add_lt_add_left hlt c.blockBase

theorem le_target (b : BlockId) : c.blockBase ≤ c.target b := Nat.le_add_right _ _

theorem target_inj {b' : BlockId} (hb : b ∈ c.order) (hb' : b' ∈ c.order)
    (h : c.target b = c.target b') : b = b' := by
  have hlt := idxOf_lt_length_of_mem (mem_reverse.2 hb)
  have hlt' := idxOf_lt_length_of_mem (mem_reverse.2 hb')
  rw [length_reverse] at hlt hlt'
  have hplace := Nat.add_left_cancel h
  refine (idxOf_inj (mem_reverse.2 hb)).1 ?_
  omega

end Copy

/-! ## Adding and filling blocks -/

theorem foldl_addBlock (l : List BlockId) (name : BlockId → String) (f : Func) :
    let g := l.foldl (fun f b => f.addBlock (name b)) f
    g = { f with blocks := g.blocks, layout := g.layout } ∧
    g.blocks.size = f.blocks.size + l.length ∧ (∀ b, g.code b = f.code b) ∧
    g.layout = f.layout ++ List.range' f.blocks.size l.length := by
  induction l generalizing f with
  | nil => exact ⟨rfl, rfl, fun _ => rfl, (append_nil _).symm⟩
  | cons c l ih =>
    obtain ⟨heq, hsize, hcode, hlayout⟩ := ih (f.addBlock (name c))
    have hadd : (f.addBlock (name c)).blocks.size = f.blocks.size + 1 := Array.size_push _
    rw [hadd] at hsize hlayout
    refine ⟨heq, ?_, fun b => (hcode b).trans (f.code_addBlock _ b), ?_⟩
    · rw [foldl_cons, hsize, length_cons]
      omega
    · rw [foldl_cons, hlayout, length_cons, range'_succ]
      exact append_assoc f.layout [f.blocks.size] _

/-- Filling blocks one after another, where blocks that are filled more than once get the same code
each time. -/
theorem foldl_setCode (l : List BlockId) (t : BlockId → BlockId) (h : BlockId → List Instr) (f : Func)
    (ht : ∀ b ∈ l, t b < f.blocks.size) (hinj : ∀ b ∈ l, ∀ c ∈ l, t b = t c → b = c) :
    let g := l.foldl (fun f b => f.setCode (t b) (h b)) f
    g = { f with blocks := g.blocks } ∧ g.blocks.size = f.blocks.size ∧
    (∀ b ∈ l, g.code (t b) = h b) ∧ ∀ b, (∀ c ∈ l, t c ≠ b) → g.code b = f.code b := by
  induction l generalizing f with
  | nil => exact ⟨rfl, rfl, fun b hb => absurd hb not_mem_nil, fun _ _ => rfl⟩
  | cons c l ih =>
    obtain ⟨hc, ht⟩ := forall_mem_cons.1 ht
    have hcode := fun b => f.code_setCode (t c) b (h c) hc
    obtain ⟨heq, hsize, hfill, hrest⟩ := ih (f.setCode (t c) (h c))
      (fun b hb => by rw [Func.size_setCode]; exact ht b hb)
      (fun b hb b' hb' => hinj b (mem_cons_of_mem _ hb) b' (mem_cons_of_mem _ hb'))
    refine ⟨heq, hsize.trans (Func.size_setCode ..), ?_, ?_⟩
    · intro b hb
      by_cases hbl : b ∈ l
      · exact hfill b hbl
      · -- The first block is not filled again.
        obtain rfl : b = c := (mem_cons.1 hb).resolve_right hbl
        have hne : ∀ c' ∈ l, t c' ≠ t b := by
          intro c' hc' heq'
          have hbc := hinj c' (mem_cons_of_mem _ hc') b mem_cons_self heq'
          exact hbl (hbc ▸ hc')
        exact (hrest (t b) hne).trans ((hcode (t b)).trans (if_pos rfl))
    · intro b hb
      obtain ⟨hbc, hb⟩ := forall_mem_cons.1 hb
      exact (hrest b hb).trans ((hcode b).trans (if_neg hbc))

/-! ## Sites -/

structure Site where
  caller : Func
  callee : Func
  block : BlockId
  before : List Instr
  after : List Instr
  dst : Option Operand
  id : FuncId
  args : List Operand
  stackArgs : Nat
  code : caller.code block = before ++ .call dst (.func id) args stackArgs :: after

namespace Site

variable (s : Site)

def copy : Copy := ⟨s.callee, s.caller.vregCount, s.caller.blocks.size⟩

theorem block_lt : s.block < s.caller.blocks.size := by
  by_contra h
  have hcode := s.code
  rw [s.caller.code_eq_nil (Nat.le_of_not_lt h)] at hcode
  simp at hcode

end Site

/-- The function that a caller becomes when a call in it is replaced by a copy. -/
structure Spliced (s : Site) (g : Func) : Prop where
  label : g.label = s.caller.label
  params : g.params = s.caller.params
  entry : g.entry = s.caller.entry
  vregs : g.vregCount = s.caller.vregCount + s.callee.vregCount
  size : g.blocks.size = s.copy.join + 1
  layout : g.layout = insertAfter s.block
    (List.range' s.caller.blocks.size (s.copy.order.length + 1)) s.caller.layout
  head : g.code s.block = s.before ++ s.copy.enter s.args
  other : ∀ b, b < s.caller.blocks.size → b ≠ s.block → g.code b = s.caller.code b
  copied : ∀ b ∈ s.copy.order, g.code (s.copy.target b) = (s.callee.code b).flatMap (s.copy.instr s.dst)
  joined : g.code s.copy.join = s.after
  /-- A block that repeats another in the order of the copy stays empty. -/
  empty : ∀ b, s.caller.blocks.size ≤ b → b ≠ s.copy.join → (∀ c ∈ s.copy.order, s.copy.target c ≠ b) →
    g.code b = []

theorem addCopy_spec (s : Site) :
    let g := addCopy s.caller s.copy s.dst
    g.label = s.caller.label ∧ g.params = s.caller.params ∧ g.entry = s.caller.entry ∧
    g.vregCount = s.caller.vregCount + s.callee.vregCount ∧ g.blocks.size = s.copy.join + 1 ∧
    g.layout = s.caller.layout ++ List.range' s.caller.blocks.size (s.copy.order.length + 1) ∧
    (∀ b ∈ s.copy.order, g.code (s.copy.target b) = (s.callee.code b).flatMap (s.copy.instr s.dst)) ∧
    ∀ b, (∀ c ∈ s.copy.order, s.copy.target c ≠ b) → g.code b = s.caller.code b := by
  intro g
  let f0 : Func := { s.caller with hints := s.caller.hints ++ s.callee.hints }
  let f1 := s.copy.order.foldl
    (fun f b => f.addBlock (s.callee.name ++ "_" ++ (s.callee.block b).name)) f0
  let f2 := f1.addBlock "inline_join"
  obtain ⟨heq1, hsize1, hcode1, hlayout1⟩ := foldl_addBlock s.copy.order
    (fun b => s.callee.name ++ "_" ++ (s.callee.block b).name) f0
  have hsize2 : f2.blocks.size = s.copy.join + 1 := by
    have hpush : f2.blocks.size = f1.blocks.size + 1 := Array.size_push _
    rw [hpush]
    exact congrArg (· + 1) hsize1
  obtain ⟨heq3, hsize3, hfill, hrest⟩ := foldl_setCode s.copy.order s.copy.target
    (fun b => (s.callee.code b).flatMap (s.copy.instr s.dst)) f2
    (fun b hb => by rw [hsize2]; exact Nat.lt_succ_of_lt (s.copy.target_lt hb))
    (fun b hb c hc => s.copy.target_inj hb hc)
  have hfields : g.label = f0.label ∧ g.params = f0.params ∧ g.entry = f0.entry ∧
      g.hints = f0.hints := by
    have h1 : f1.label = f0.label ∧ f1.params = f0.params ∧ f1.entry = f0.entry ∧
        f1.hints = f0.hints := by
      rw [show f1 = _ from heq1]
      exact ⟨rfl, rfl, rfl, rfl⟩
    rw [show g = _ from heq3]
    exact h1
  have hlayout : g.layout = f1.layout ++ [f1.blocks.size] := by
    rw [show g = _ from heq3]
    rfl
  obtain ⟨hlabel, hparams, hentry, hhints⟩ := hfields
  refine ⟨hlabel, hparams, hentry, ?_, hsize3.trans hsize2, ?_, hfill, ?_⟩
  · rw [Func.vregCount, hhints]
    exact Array.size_append
  · rw [hlayout, show f1.layout = _ from hlayout1, show f1.blocks.size = _ from hsize1,
      range'_concat, append_assoc, Nat.one_mul]
  · intro b hb
    exact (hrest b hb).trans ((f1.code_addBlock _ b).trans (hcode1 b))

/-- **Splicing** a call gives the caller with the call replaced by a copy. -/
theorem splice_spliced (s : Site) :
    ∃ g, splice s.caller s.block s.before.length s.callee = some (g, s.copy.join) ∧ Spliced s g := by
  obtain ⟨hlabel, hparams, hentry, hvregs, hsize, hlayout, hfill, hrest⟩ := addCopy_spec s
  have hcall : (s.caller.code s.block)[s.before.length]? =
      some (.call s.dst (.func s.id) s.args s.stackArgs) := by
    rw [s.code, getElem?_append_right (Nat.le_refl _), Nat.sub_self]
    rfl
  have htake : (s.caller.code s.block).take s.before.length = s.before := by
    rw [s.code, take_left']
    rfl
  have hdrop : (s.caller.code s.block).drop (s.before.length + 1) = s.after := by
    rw [s.code, drop_append, drop_eq_nil_of_le (Nat.le_succ _)]
    simp
  let f1 := addCopy s.caller s.copy s.dst
  let f2 := f1.setCode s.copy.join s.after
  let f3 := f2.setCode s.block (s.before ++ s.copy.enter s.args)
  have hjoin : s.copy.join < f1.blocks.size := by
    rw [show f1.blocks.size = _ from hsize]
    exact Nat.lt_succ_self _
  have hblock : s.block < s.copy.join := Nat.lt_of_lt_of_le s.block_lt (Nat.le_add_right _ _)
  have hcode : ∀ b, f3.code b = if s.block = b then s.before ++ s.copy.enter s.args
      else if s.copy.join = b then s.after else f1.code b := by
    intro b
    rw [Func.code_setCode _ _ _ _ (by rw [Func.size_setCode]; exact Nat.lt_trans hblock hjoin),
      Func.code_setCode _ _ _ _ hjoin]
  let layout := insertAfter s.block (f3.layout.drop s.caller.layout.length) s.caller.layout
  have hsplice : splice s.caller s.block s.before.length s.callee =
      some ({ f3 with layout := layout }, s.copy.join) := by
    simp only [splice, hcall, hdrop, htake]
    rfl
  have hdropLayout : f3.layout.drop s.caller.layout.length =
      List.range' s.caller.blocks.size (s.copy.order.length + 1) := by
    change f1.layout.drop _ = _
    rw [show f1.layout = _ from hlayout, drop_left']
    rfl
  refine ⟨_, hsplice, hlabel, hparams, hentry, hvregs, ?_, ?_, (hcode _).trans (if_pos rfl), ?_, ?_,
    ?_, ?_⟩
  · change f3.blocks.size = _
    rw [Func.size_setCode, Func.size_setCode]
    exact hsize
  · exact congrArg (insertAfter s.block · s.caller.layout) hdropLayout
  · intro b hb hne
    have hlt : b < s.copy.join := Nat.lt_of_lt_of_le hb (Nat.le_add_right _ _)
    refine (hcode b).trans ?_
    rw [if_neg (Ne.symm hne), if_neg (Nat.ne_of_gt hlt)]
    refine hrest b fun c _ h => ?_
    exact Nat.not_le.2 hb (h ▸ s.copy.le_target c)
  · intro b hb
    have hne : s.block ≠ s.copy.target b :=
      Nat.ne_of_lt (Nat.lt_of_lt_of_le s.block_lt (s.copy.le_target b))
    refine (hcode _).trans ?_
    rw [if_neg hne, if_neg (Nat.ne_of_gt (s.copy.target_lt hb))]
    exact hfill b hb
  · refine (hcode _).trans ?_
    rw [if_neg (Nat.ne_of_lt hblock), if_pos rfl]
  · intro b hb hjoin hcopies
    have hne : s.block ≠ b := Nat.ne_of_lt (Nat.lt_of_lt_of_le s.block_lt hb)
    refine (hcode _).trans ?_
    rw [if_neg hne, if_neg (Ne.symm hjoin), show f1.code b = _ from hrest b hcopies]
    exact s.caller.code_eq_nil hb

/-! ## Programs -/

/-- The program `q` is `p` with a call in one of its functions replaced by a copy. -/
structure SplicedIn (p q : Program) (s : Site) (g : Func) (fid : FuncId) : Prop where
  caller : p.functions[fid]? = some s.caller
  callee : p.functions[s.id]? = some s.callee
  spliced : Spliced s g
  functions : ∀ i : FuncId, q.functions[i]? = if i = fid then some g else p.functions[i]?
  statics : q.statics = p.statics
  entry : q.entry = p.entry

/-- A call in a function of `p` is replaced by a copy in `q`. -/
def Inlines (p q : Program) : Prop := ∃ s g fid, SplicedIn p q s g fid

def replaced (p : Program) (fid : FuncId) (f : Func) : Program := p.modifyFunction fid fun _ => f

section Inlining

variable {p : Program} {fid : FuncId} {limits : InlineLimits} {recursive : SortedSet FuncId}

theorem functions_replaced {f0 : Func} (hf : p.functions[fid]? = some f0) (f : Func) (i : FuncId) :
    (replaced p fid f).functions[i]? = if i = fid then some f else p.functions[i]? := by
  rw [replaced, Program.modifyFunction, Array.getElem?_modify]
  by_cases hi : fid = i
  · subst hi
    rw [if_pos rfl, if_pos rfl, hf]
    rfl
  · rw [if_neg hi, if_neg (Ne.symm hi)]

/-- Inlining the first call of a block is a splice within the limits, and the function called is another
one. -/
theorem inlineFirst_spliced {f g : Func} {join : BlockId}
    (h : inlineFirst p limits recursive fid f b = some (g, join)) :
    ∃ s : Site, s.caller = f ∧ s.block = b ∧ s.copy.join = join ∧ p.functions[s.id]? = some s.callee ∧
      s.id ≠ fid ∧ s.callee.instrCount ≤ limits.callee ∧
      f.instrCount + s.callee.instrCount ≤ limits.caller ∧ Spliced s g := by
  simp only [inlineFirst, Option.bind_eq_bind, Option.bind_eq_some_iff] at h
  obtain ⟨idx, hidx, callee, ⟨i, hi, hcallee⟩, hsplice⟩ := h
  obtain ⟨hlt, hsite, -⟩ := findIdx?_eq_some_iff_getElem.1 hidx
  obtain ⟨hlt, rfl⟩ := List.getElem?_eq_some_iff.1 hi
  cases hcall : (f.code b)[idx] with
  | call dst c args n =>
    rw [hcall] at hcallee hsite
    cases c with
    | builtin => cases hcallee
    | func id =>
      simp only [isSite, show p.functions[id]? = some callee from hcallee, Bool.and_eq_true,
        decide_eq_true_eq] at hsite
      let s : Site := ⟨f, callee, b, (f.code b).take idx, (f.code b).drop (idx + 1), dst, id, args, n, by
        rw [← hcall, getElem_cons_drop, take_append_drop]⟩
      have hlen : s.before.length = idx := length_take_of_le (Nat.le_of_lt hlt)
      obtain ⟨g', hg', hspliced⟩ := splice_spliced s
      rw [hlen, hsplice] at hg'
      cases hg'
      exact ⟨s, rfl, rfl, rfl, hcallee, hsite.1.1.1, hsite.1.2, hsite.2, hspliced⟩
  | _ =>
    rw [hcall] at hcallee
    cases hcallee

theorem inlines_inlineFrom (limits : InlineLimits) (recursive : SortedSet FuncId) {f0 : Func}
    (hf : p.functions[fid]? = some f0) (fuel : Nat) (f : Func) (pos : Nat) :
    Relation.ReflTransGen Inlines (replaced p fid f)
      (replaced p fid (inlineFrom p limits recursive fid fuel f pos)) := by
  induction fuel generalizing f pos with
  | zero => exact .refl
  | succ fuel ih =>
    rw [inlineFrom]
    split
    · exact .refl
    · split
      · exact ih f (pos + 1)
      · next b _ g join hfirst =>
        obtain ⟨s, rfl, -, -, hcallee, hne, -, -, hspliced⟩ := inlineFirst_spliced hfirst
        have hinlines : Inlines (replaced p fid s.caller) (replaced p fid g) := by
          refine ⟨s, g, fid, ?_, ?_, hspliced, fun i => ?_, rfl, rfl⟩
          · exact (functions_replaced hf _ fid).trans (if_pos rfl)
          · exact ((functions_replaced hf _ s.id).trans (if_neg hne)).trans hcallee
          · rw [functions_replaced hf, functions_replaced hf]
            split <;> rfl
        exact .head hinlines (ih g _)

/-- Inlining into a function replaces it, and does nothing if there is no such function. -/
theorem inlineInto_cases (limits : InlineLimits) (recursive : SortedSet FuncId) (p : Program)
    (fid : FuncId) :
    p.functions[fid]? = none ∧ inlineInto limits recursive p fid = p ∨
      ∃ f, p.functions[fid]? = some f ∧ replaced p fid f = p ∧
        inlineInto limits recursive p fid = replaced p fid
          (inlineFrom p limits recursive fid (f.layout.length + f.instrCount + 1) f 0) := by
  -- Only what the function becomes matters.
  have hcongr : ∀ h h' : Func → Func, (∀ f, p.functions[fid]? = some f → h f = h' f) →
      p.modifyFunction fid h = p.modifyFunction fid h' := by
    intro h h' hh
    refine congrArg (fun fs => { p with functions := fs }) (Array.ext_getElem? fun i => ?_)
    rw [Array.getElem?_modify, Array.getElem?_modify]
    split
    · next hi =>
      subst hi
      exact Option.map_congr hh
    · rfl
  have hself : p.modifyFunction fid id = p := by
    refine congrArg (fun fs => { p with functions := fs }) (Array.ext_getElem? fun i => ?_)
    rw [Array.getElem?_modify]
    simp
  cases hf : p.functions[fid]? with
  | none => exact .inl ⟨rfl, (hcongr _ id (fun f h => by rw [hf] at h; cases h)).trans hself⟩
  | some f =>
    refine .inr ⟨f, rfl, ?_, hcongr _ _ fun f' h => ?_⟩
    · exact (hcongr _ id (fun f' h => Option.some.inj (hf.symm.trans h))).trans hself
    · rw [← Option.some.inj (hf.symm.trans h)]

theorem inlines_inlineInto (p : Program) (fid : FuncId) :
    Relation.ReflTransGen Inlines p (inlineInto limits recursive p fid) := by
  obtain ⟨-, hsame⟩ | ⟨f, hf, hstart, hinto⟩ := inlineInto_cases limits recursive p fid
  · rw [hsame]
  · have hchain := inlines_inlineFrom limits recursive hf (f.layout.length + f.instrCount + 1) f 0
    rwa [hstart, ← hinto] at hchain

/-- **Inlining is a chain of splices.** -/
theorem inlines_inlineCalls (limits : InlineLimits) (p : Program) :
    Relation.ReflTransGen Inlines p (inlineCalls limits p) := by
  rw [inlineCalls]
  generalize (CallGraph.ofProgram p).recursive = recursive
  induction (CallGraph.ofProgram p).components.flatten generalizing p with
  | nil => exact .refl
  | cons fid fids ih => exact (inlines_inlineInto p fid).trans (ih _)

end Inlining

end MxStar.Pass
