import MxStar.Proofs.IntactPrograms

/-!
How much inlining makes functions grow.

A splice starts within the limit of the caller, and adds a move for each argument and for each return of a
value (`Spliced.instrCount_le`), so that a function can pass the limit (`inlining_exceeds`). Going through a
function ends, since a round passes a block, or goes on after a call in it (`left_splice`).
-/
namespace MxStar.Pass

open IR List

variable {p : Program} {limits : InlineLimits} {recursive : SortedSet FuncId}

/-! ## The layout after a splice -/

theorem insertAfter_append {b : BlockId} {l1 l2 new : List BlockId} (hb : b ∉ l1) :
    insertAfter b new (l1 ++ b :: l2) = l1 ++ b :: (new ++ l2) := by
  induction l1 with
  | nil => simp [insertAfter]
  | cons c l1 ih =>
    obtain ⟨hne, hb⟩ := ne_and_not_mem_of_not_mem_cons hb
    rw [cons_append, insertAfter, if_neg (Ne.symm hne), ih hb, cons_append]

section Splice

variable {s : Site} {g : Func} {l1 l2 : List BlockId}

/-- The copy and then the join come after the block with the call, and the blocks around it have the code
that they had. -/
theorem Spliced.around (h : Spliced s g) (hcaller : s.caller.Complete)
    (hl : s.caller.layout = l1 ++ s.block :: l2) :
    g.layout = l1 ++ s.block ::
        (List.range' s.caller.blocks.size s.copy.order.length ++ s.copy.join :: l2) ∧
      l1.flatMap g.code = l1.flatMap s.caller.code ∧ l2.flatMap g.code = l2.flatMap s.caller.code := by
  have hnodup := hcaller.nodup
  rw [hl] at hnodup
  obtain ⟨-, hnodup2, hapart⟩ := nodup_append.1 hnodup
  have hb1 : s.block ∉ l1 := fun hmem => hapart _ hmem _ mem_cons_self rfl
  have hsame : ∀ l : List BlockId, (∀ b ∈ l, b ∈ s.caller.layout) → s.block ∉ l →
      l.flatMap g.code = l.flatMap s.caller.code := by
    intro l hmem hb
    refine flatMap_congr fun b hbl => h.other b ((hcaller.mem_layout b).1 (hmem b hbl)) ?_
    rintro rfl
    exact hb hbl
  refine ⟨?_, hsame l1 (fun b hb => ?_) hb1, hsame l2 (fun b hb => ?_) (nodup_cons.1 hnodup2).1⟩
  · rw [h.layout, hl, insertAfter_append hb1, range'_concat, append_assoc]
    simp [Copy.join, Site.copy]
  · exact hl ▸ mem_append_left _ hb
  · exact hl ▸ mem_append_right _ (mem_cons_of_mem _ hb)

theorem length_copies_le (c : Copy) (dst : Option Operand) (code : List Instr) :
    (code.flatMap (c.instr dst)).length ≤ 2 * code.length := by
  have hone : ∀ i, (c.instr dst i).length ≤ 2 := by
    intro i
    unfold Copy.instr
    split
    · split <;> simp
    · simp
  induction code with
  | nil => simp
  | cons i code ih =>
    have := hone i
    rw [flatMap_cons, length_append, length_cons]
    omega

/-- The blocks of a copy have at most twice as many instructions as the function. -/
theorem Spliced.length_copied_le (h : Spliced s g) (hcallee : s.callee.Complete) :
    ((List.range' s.caller.blocks.size s.copy.order.length).flatMap g.code).length ≤
      2 * s.callee.instrCount := by
  have horder : s.copy.order = s.callee.layout := by
    refine (congrArg (s.callee.layout ++ ·) (filter_eq_nil_iff.2 fun b hb => ?_)).trans
      (append_nil _)
    have hmem : b ∈ s.copy.callee.layout := (hcallee.mem_layout b).2 (mem_range.1 hb)
    simpa using hmem
  have hnodup : s.copy.order.Nodup := horder ▸ hcallee.nodup
  -- The new blocks are the copies of the blocks, each once.
  have hperm : (s.copy.order.map s.copy.target).Perm
      (List.range' s.caller.blocks.size s.copy.order.length) := by
    refine (perm_ext_iff_of_nodup (hnodup.map_on fun b hb c hc => s.copy.target_inj hb hc)
      nodup_range').2 fun b => ?_
    rw [mem_map, mem_range'_1]
    constructor
    · rintro ⟨c, hc, rfl⟩
      exact ⟨s.copy.le_target c, s.copy.target_lt hc⟩
    · rintro ⟨hle, hlt⟩
      exact Copy.exists_target_eq hnodup hle hlt
  rw [← (hperm.flatMap_right g.code).length_eq, flatMap_map, flatMap_congr h.copied,
    ← flatMap_assoc, horder]
  exact length_copies_le ..

/-- **How much a splice adds**: at most twice the function called, and a move for each parameter. -/
theorem Spliced.instrCount_le (h : Spliced s g) (hcaller : s.caller.Complete)
    (hcallee : s.callee.Complete) :
    g.instrCount ≤ s.caller.instrCount + 2 * s.callee.instrCount + s.callee.params.length := by
  obtain ⟨l1, l2, hl⟩ := append_of_mem ((hcaller.mem_layout _).2 s.block_lt)
  obtain ⟨hlayout, hcode1, hcode2⟩ := h.around hcaller hl
  have hcopied := h.length_copied_le hcallee
  have henter : (s.copy.enter s.args).length ≤ s.callee.params.length + 1 := by
    simp [Copy.enter, Site.copy]
  simp only [Func.instrCount, Func.instrs, hlayout, hl, flatMap_append, flatMap_cons, hcode1,
    hcode2, h.head, h.joined, s.code, length_append, length_cons] at hcopied ⊢
  omega

end Splice

/-! ## Rounds -/

/-- The rounds through the layout of a function, from a place on, end with a function. -/
inductive GoesThrough (p : Program) (limits : InlineLimits) (recursive : SortedSet FuncId)
    (caller : FuncId) : Func → Nat → Func → Prop
  | done {f : Func} {pos : Nat} (hpos : f.layout[pos]? = none) :
    GoesThrough p limits recursive caller f pos f
  | pass {f g : Func} {pos : Nat} {b : BlockId} (hpos : f.layout[pos]? = some b)
    (hnone : inlineFirst p limits recursive caller f b = none)
    (hrest : GoesThrough p limits recursive caller f (pos + 1) g) :
    GoesThrough p limits recursive caller f pos g
  | splice {f f' g : Func} {pos : Nat} {b join : BlockId} (hpos : f.layout[pos]? = some b)
    (hsome : inlineFirst p limits recursive caller f b = some (f', join))
    (hrest : GoesThrough p limits recursive caller f' ((f'.layout.idxOf? join).getD (pos + 1)) g) :
    GoesThrough p limits recursive caller f pos g

def left (f : Func) (pos : Nat) : Nat :=
  (f.layout.drop pos).length + ((f.layout.drop pos).flatMap f.code).length

theorem left_splice {s : Site} {g : Func} {pos : Nat} (h : Spliced s g) (hcaller : s.caller.Complete)
    (hpos : s.caller.layout[pos]? = some s.block) :
    left g ((g.layout.idxOf? s.copy.join).getD (pos + 1)) < left s.caller pos := by
  obtain ⟨hlt, hget⟩ := List.getElem?_eq_some_iff.1 hpos
  have hdrop : s.caller.layout.drop pos = s.block :: s.caller.layout.drop (pos + 1) := by
    rw [← hget, getElem_cons_drop]
  have hl := (take_append_drop pos s.caller.layout).symm
  rw [hdrop] at hl
  obtain ⟨hlayout, -, hcode⟩ := h.around hcaller hl
  rw [← cons_append, ← append_assoc] at hlayout
  have hdrop' : g.layout.drop ((g.layout.idxOf? s.copy.join).getD (pos + 1)) =
      s.copy.join :: s.caller.layout.drop (pos + 1) := by
    have hmem : s.copy.join ∈ g.layout := by simp [hlayout]
    obtain ⟨k, hk⟩ := Option.isSome_iff_exists.1 (isSome_idxOf?.2 hmem)
    obtain ⟨hlt, hjoin, -⟩ := idxOf?_eq_some_iff.1 hk
    have hplace : g.layout[k]? = g.layout[(s.caller.layout.take pos ++ s.block ::
        List.range' s.caller.blocks.size s.copy.order.length).length]? := by
      rw [getElem?_eq_getElem hlt, hjoin, hlayout, getElem?_append_right (Nat.le_refl _),
        Nat.sub_self]
      rfl
    have hplace := (getElem?_inj hlt (h.complete hcaller).nodup).1 hplace
    rw [hk, Option.getD_some, hplace, hlayout, drop_left]
  rw [left, left, hdrop, hdrop', flatMap_cons, flatMap_cons, h.joined, s.code, hcode]
  simp only [length_append, length_cons]
  omega

/-- **Going through a function ends**, in as many rounds as there are blocks and instructions. -/
theorem goesThrough_inlineFrom {caller : FuncId} (fuel : Nat) {f : Func} {pos : Nat} (hf : f.Complete)
    (hfuel : left f pos < fuel) :
    GoesThrough p limits recursive caller f pos (inlineFrom p limits recursive caller fuel f pos) := by
  induction fuel generalizing f pos with
  | zero => exact absurd hfuel (Nat.not_lt_zero _)
  | succ fuel ih =>
    rw [inlineFrom]
    split
    · next hpos => exact .done hpos
    · next b hpos =>
      split
      · next hnone =>
        refine .pass hpos hnone (ih hf ?_)
        obtain ⟨hlt, hget⟩ := List.getElem?_eq_some_iff.1 hpos
        rw [left, drop_eq_getElem_cons hlt, length_cons, flatMap_cons,
          length_append] at hfuel
        rw [left]
        omega
      · next g join hsome =>
        obtain ⟨s, rfl, rfl, rfl, -, -, -, -, hspliced⟩ := inlineFirst_spliced hsome
        refine .splice hpos hsome (ih (hspliced.complete hf) ?_)
        exact Nat.lt_of_lt_of_le (left_splice hspliced hf hpos) (Nat.le_of_lt_succ hfuel)

/-- The layout stays complete and the size stays within its bound, since each splice starts within the
limit. -/
theorem GoesThrough.bounded {caller : FuncId} {k pos : Nat} {f g : Func}
    (h : GoesThrough p limits recursive caller f pos g)
    (hp : ∀ f ∈ p.functions, f.Complete ∧ f.params.length ≤ k) (hf : f.Complete) :
    g.Complete ∧ g.params = f.params ∧
      g.instrCount ≤ max f.instrCount (limits.caller + limits.callee + k) := by
  induction h with
  | done => exact ⟨hf, rfl, Nat.le_max_left _ _⟩
  | pass _ _ _ ih => exact ih hf
  | splice hpos hsome _ ih =>
    obtain ⟨s, rfl, rfl, rfl, hcallee, -, hsmall, hroom, hspliced⟩ := inlineFirst_spliced hsome
    obtain ⟨hcomplete, hparams⟩ := hp _ (Array.mem_of_getElem? hcallee)
    obtain ⟨hg, hsame, hle⟩ := ih (hspliced.complete hf)
    refine ⟨hg, hsame.trans hspliced.params, ?_⟩
    have hgrown := hspliced.instrCount_le hf hcomplete
    omega

/-! ## Programs -/

/-- Calls are inlined into functions one after another. -/
inductive InlinesInto (limits : InlineLimits) (recursive : SortedSet FuncId) :
    List FuncId → Program → Program → Prop
  | nil {p : Program} : InlinesInto limits recursive [] p p
  | missing {id : FuncId} {ids : List FuncId} {p q : Program} (hf : p.functions[id]? = none)
    (hrest : InlinesInto limits recursive ids p q) : InlinesInto limits recursive (id :: ids) p q
  | cons {id : FuncId} {ids : List FuncId} {p q : Program} {f g : Func}
    (hf : p.functions[id]? = some f) (hg : GoesThrough p limits recursive id f 0 g)
    (hrest : InlinesInto limits recursive ids (replaced p id g) q) :
    InlinesInto limits recursive (id :: ids) p q

theorem inlinesInto_foldl {k : Nat} (ids : List FuncId)
    (hp : ∀ f ∈ p.functions, f.Complete ∧ f.params.length ≤ k) :
    InlinesInto limits recursive ids p (ids.foldl (inlineInto limits recursive) p) ∧
      ∀ (id : FuncId) (f g : Func), p.functions[id]? = some f →
        (ids.foldl (inlineInto limits recursive) p).functions[id]? = some g →
        g.instrCount ≤ max f.instrCount (limits.caller + limits.callee + k) := by
  induction ids generalizing p with
  | nil =>
    refine ⟨.nil, fun id f g hf hg => ?_⟩
    cases hf.symm.trans hg
    exact Nat.le_max_left _ _
  | cons fid ids ih =>
    rw [foldl_cons]
    obtain ⟨hnone, hsame⟩ | ⟨f0, hf0, -, hinto⟩ := inlineInto_cases limits recursive p fid
    · rw [hsame]
      obtain ⟨hrest, hle⟩ := ih hp
      exact ⟨.missing hnone hrest, hle⟩
    · obtain ⟨hcomplete, hparams⟩ := hp f0 (Array.mem_of_getElem? hf0)
      have hgoes : GoesThrough p limits recursive fid f0 0
          (inlineFrom p limits recursive fid (f0.layout.length + f0.instrCount + 1) f0 0) :=
        goesThrough_inlineFrom _ hcomplete (Nat.lt_succ_self _)
      obtain ⟨hcomplete', hsame, hgrown⟩ := hgoes.bounded hp hcomplete
      generalize inlineFrom p limits recursive fid _ f0 0 = f1 at hinto hgoes hcomplete' hsame hgrown
      have hfunctions := functions_replaced hf0 f1
      rw [hinto]
      obtain ⟨hrest, hle⟩ := ih (p := replaced p fid f1) fun f hf => by
        obtain ⟨id, hid⟩ := Array.getElem?_of_mem hf
        rw [hfunctions] at hid
        split at hid
        · cases hid
          exact ⟨hcomplete', hsame ▸ hparams⟩
        · exact hp f (Array.mem_of_getElem? hid)
      refine ⟨.cons hf0 hgoes hrest, fun id f g hf hg => ?_⟩
      by_cases hid : id = fid
      · subst hid
        cases hf0.symm.trans hf
        have := hle id f1 g ((hfunctions id).trans (if_pos rfl)) hg
        omega
      · exact hle id f g (((hfunctions id).trans (if_neg hid)).trans hf) hg

/-- **Inlining ends, and functions do not grow without bound.** In a program whose layouts are complete,
inlining goes through each function once, in finitely many rounds. After that a function is at most as
large as it was, or as a caller may be with what one splice can add to that: as many moves as a function
that may be inlined has instructions, and a move for each of its parameters. -/
theorem inlining_bounded {k : Nat} (limits : InlineLimits)
    (hp : ∀ f ∈ p.functions, f.Complete ∧ f.params.length ≤ k) :
    InlinesInto limits (CallGraph.ofProgram p).recursive (CallGraph.ofProgram p).components.flatten p
        (inlineCalls limits p) ∧
      ∀ (id : FuncId) (f g : Func), p.functions[id]? = some f →
        (inlineCalls limits p).functions[id]? = some g →
        g.instrCount ≤ max f.instrCount (limits.caller + limits.callee + k) :=
  inlinesInto_foldl _ hp

/-- A function that gives back its argument, and one that calls it. -/
def identity : Program where
  functions := #[{
    name := "same"
    label := "same"
    params := [0]
    blocks := #[{ name := "entry", instrs := [.ret (some (.vreg 0))] }]
    layout := [0]
    hints := #["x"] }, {
    name := "seven"
    label := "seven"
    blocks := #[{ name := "entry", instrs := [
      .call (some (.vreg 0)) (.func 0) [.imm 7] 0, .ret (some (.vreg 0))] }]
    layout := [0]
    hints := #["y"] }]

theorem complete_identity : ∀ f ∈ identity.functions, f.Complete ∧ f.params.length ≤ 1 := by
  intro f hf
  have hall : ∀ f ∈ identity.functions, f.layout = [0] ∧ f.entry = 0 ∧ f.blocks.size = 1 ∧
      f.params.length ≤ 1 := by decide
  obtain ⟨hlayout, hentry, hsize, hparams⟩ := hall f hf
  refine ⟨⟨?_, ?_, fun b => ?_⟩, hparams⟩
  · rw [hlayout]
    exact nodup_singleton 0
  · rw [hentry, hsize]
    exact Nat.one_pos
  · rw [hlayout, hsize, mem_singleton]
    exact Nat.lt_one_iff.symm

theorem inlining_bounded_identity : ∃ f g, identity.functions[1]? = some f ∧
    (inlineCalls { caller := 3 } identity).functions[1]? = some g ∧
    g.instrCount ≤ max f.instrCount (3 + 64 + 1) := by
  have hsome : ((inlineCalls { caller := 3 } identity).functions[1]?).isSome := by decide +kernel
  obtain ⟨g, hg⟩ := Option.isSome_iff_exists.1 hsome
  exact ⟨_, g, rfl, hg, (inlining_bounded { caller := 3 } complete_identity).2 1 _ g rfl hg⟩

/-- A caller may grow past its limit: two instructions and one are within a limit of three, but the splice
has two moves and two jumps besides the return that is left. -/
theorem inlining_exceeds :
    (identity.functions[1]?).map Func.instrCount = some 2 ∧
      ((inlineCalls { caller := 3 } identity).functions[1]?).map Func.instrCount = some 5 := by
  decide +kernel

end MxStar.Pass
