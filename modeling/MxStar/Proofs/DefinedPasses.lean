import MxStar.Compile
import MxStar.Proofs.ConventionalFunctions
import MxStar.Proofs.DefinedRuns
import MxStar.Proofs.LoweredPrograms
import MxStar.Tree.Sample

/-!
Improving a program keeps it defined.

A pass replaces each instruction by code (`Rewrites`), which may use registers `C` that are written
everywhere besides: global variables in registers are loaded in a new entry.
-/
namespace MxStar.IR

open List

/-! ## Replacing instructions -/

/-- The code for an instruction does where `L` holds what the instruction does where `K` holds, with
the registers `C` written besides. -/
structure Rewrites (K L : Known) (C : Set VReg) (g : Instr → List Instr) (i : Instr) : Prop where
  grounded : ∀ D, i.Within (K.having D) → Grounded L (D ∪ C) (g i)
  writes : ∀ D, D ∪ i.writes ∪ C ⊆ writtenBy (D ∪ C) (g i)
  ends : i.isTerminator = true →
    EndsOnce (g i) ∧ ∀ j ∈ (g i).getLast?, j.successors = i.successors
  others : i.isTerminator = false → ∀ j ∈ g i, j.isTerminator = false

section Rewrites

variable {K L : Known} {C : Set VReg} {g : Instr → List Instr}

theorem grounded_flatMap {code : List Instr} {D : Set VReg}
    (hg : ∀ i ∈ code, Rewrites K L C g i) (h : Grounded K D code) :
    Grounded L (D ∪ C) (code.flatMap g) := by
  induction code generalizing D with
  | nil => trivial
  | cons i rest ih =>
    have hi := hg i mem_cons_self
    rw [flatMap_cons]
    refine grounded_append.2 ⟨hi.grounded D h.1, ?_⟩
    exact (ih (fun j hj => hg j (mem_cons_of_mem _ hj)) h.2).mono
      (fun _ => ⟨Nat.le_refl _, Nat.le_refl _, fun _ h => h, fun _ h => h, subset_rfl⟩) (hi.writes D)

theorem replaced_flatMap (g : Instr → List Instr) (code : List Instr) :
    Replaced (fun i new => new = g i) code (code.flatMap g) := by
  induction code with
  | nil => exact .nil
  | cons i rest ih => exact .cons rfl ih

theorem endsOnce_flatMap {code : List Instr} (hg : ∀ i ∈ code, Rewrites K L C g i)
    (h : EndsOnce code) : EndsOnce (code.flatMap g) := by
  refine ((replaced_flatMap g code).endsOnce ?_ ?_ h).1
  · intro i hi new hnew hterm
    subst hnew
    exact (hg i hi).ends hterm
  · intro i hi new hnew hother
    subst hnew
    exact (hg i hi).others hother

theorem endsOnce_singleton {i : Instr} (h : i.isTerminator = true) : EndsOnce [i] :=
  ⟨⟨i, rfl, h⟩, fun j hj => by cases hj⟩

theorem Rewrites.single {i j : Instr} (hg : g i = [j])
    (hwithin : ∀ D, i.Within (K.having D) → j.Within (L.having (D ∪ C)))
    (hwrites : i.writes ⊆ j.writes) (hterm : j.isTerminator = i.isTerminator)
    (hsucc : j.successors = i.successors) : Rewrites K L C g i where
  grounded := fun D hi => by
    rw [hg]
    exact ⟨hwithin D hi, trivial⟩
  writes := fun D => by
    rw [hg]
    change _ ⊆ D ∪ C ∪ j.writes
    rw [Set.union_right_comm]
    exact Set.union_subset_union_right _ hwrites
  ends := fun hi => by
    rw [hg]
    refine ⟨endsOnce_singleton (hterm.trans hi), fun k hk => ?_⟩
    obtain rfl := Option.some.inj hk
    exact hsucc
  others := fun hi k hk => by
    rw [hg, mem_singleton] at hk
    rw [hk, hterm, hi]

end Rewrites

/-! ## Functions -/

/-- All blocks of a function are rewritten. -/
structure Func.Rewritten (g : Instr → List Instr) (f f' : Func) : Prop where
  size : f'.blocks.size = f.blocks.size
  layout : f'.layout = f.layout
  entry : f'.entry = f.entry
  params : f'.params = f.params
  code : ∀ b, b < f.blocks.size → f'.code b = (f.code b).flatMap g

/-- A function whose instructions are replaced by code that needs nothing besides. -/
theorem Func.Rewritten.defined {g : Instr → List Instr} {f f' : Func} (h : f.Rewritten g f')
    {statics statics' : Nat} {callable : FuncId → Prop} (hf : f.Defined statics callable)
    (hregs : f'.vregCount = f.vregCount)
    (hg : ∀ starts b, b < f.blocks.size → ∀ i ∈ f.code b,
      Rewrites (f.known statics callable starts) (f'.known statics' callable starts) ∅ g i) :
    f'.Defined statics' callable where
  nodup := h.layout ▸ hf.nodup
  layout := fun b => by rw [h.layout, h.size]; exact hf.layout b
  entry := by rw [h.entry, h.size]; exact hf.entry
  params := by rw [h.params, hregs]; exact hf.params
  ends := by
    intro b hb
    rw [h.size] at hb
    rw [h.code b hb]
    exact endsOnce_flatMap (hg (fun _ => ∅) b hb) (hf.ends b hb)
  grounded := by
    obtain ⟨starts, hentry, hblocks⟩ := hf.grounded
    refine ⟨starts, ?_, fun b hb => ?_⟩
    · rw [h.entry, h.params]
      exact hentry
    · rw [h.size] at hb
      rw [h.code b hb]
      have hb' := grounded_flatMap (hg starts b hb) (hblocks b hb)
      rwa [Set.union_empty] at hb'

theorem Func.code_expandAll (f : Func) (g : Instr → List Instr) (b : BlockId) :
    (f.expandAll g).code b = (f.code b).flatMap g := by
  simp only [code, block, expandAll, Array.getElem?_map]
  cases f.blocks[b]? with
  | none => rfl
  | some block => rfl

theorem Func.rewritten_expandAll (f : Func) (g : Instr → List Instr) :
    f.Rewritten g (f.expandAll g) where
  size := Array.size_map ..
  layout := rfl
  entry := rfl
  params := rfl
  code := fun b _ => f.code_expandAll g b

theorem Func.mapInstrs_eq_expandAll (f : Func) (g : Instr → Instr) :
    f.mapInstrs g = f.expandAll fun i => [g i] := by
  simp only [mapInstrs, expandAll, map_eq_flatMap]

theorem Func.allInstrs_expandAll (f : Func) (g : Instr → List Instr) :
    (f.expandAll g).allInstrs = f.allInstrs.flatMap g := by
  simp [allInstrs, expandAll, flatMap_map, flatMap_assoc]

theorem Program.Defined.mapFunctions {p : Program} (h : p.Defined) {g : Func → Func}
    {statics : Array Static}
    (hdef : ∀ callable, ∀ f ∈ p.functions, f.Defined p.statics.size callable →
      (g f).Defined statics.size callable)
    (hempty : ∀ f ∈ p.functions, f.allInstrs = [] → (g f).allInstrs = []) :
    Program.Defined { p.mapFunctions g with statics := statics } := by
  obtain ⟨callable, hp, hothers, hentry⟩ := h
  refine ⟨callable, fun id hid => ?_, fun f hf => ?_, hentry⟩
  · obtain ⟨f, hf, hfdef⟩ := hp id hid
    refine ⟨g f, ?_, hdef callable f (Array.mem_of_getElem? hf) hfdef⟩
    change (p.functions.map g)[id]? = _
    rw [Array.getElem?_map, hf]
    rfl
  · obtain ⟨f0, hf0, rfl⟩ := Array.mem_map.1 hf
    exact (hothers f0 hf0).imp (hdef callable f0 hf0) (hempty f0 hf0)

theorem Func.known_le {f f' : Func} (hregs : f.vregCount ≤ f'.vregCount)
    (hsize : f'.blocks.size = f.blocks.size) (statics : Nat) (callable : FuncId → Prop)
    (starts : BlockId → Set VReg) (D : Set VReg) :
    ((f.known statics callable starts).having D).Le
      ((f'.known statics callable starts).having (D ∪ ∅)) where
  regs := hregs
  statics := Nat.le_refl _
  callable := fun _ h => h
  enters := fun _ hb => ⟨Nat.lt_of_lt_of_eq hb.1 hsize.symm, hb.2.trans Set.subset_union_left⟩
  written := Set.subset_union_left

end MxStar.IR

namespace MxStar.Pass

open IR List

variable {p : Program} {i : Instr} {statics : Array Static} {s : StaticId} {f : Func}

/-! ## Two-operand form -/

theorem rewrites_twoOperandInstr {K L : Known} (hKL : ∀ D, (K.having D).Le (L.having (D ∪ ∅)))
    (i : Instr) : Rewrites K L ∅ twoOperandInstr i := by
  have hsame : ∀ i, twoOperandInstr i = [i] → Rewrites K L ∅ twoOperandInstr i := fun i h =>
    .single h (fun D hi => hi.mono (hKL D)) subset_rfl rfl rfl
  cases i with
  | binary dst op lhs rhs =>
    by_cases hthree : (dst ≠ lhs && dst ≠ rhs) = true
    · have hg : twoOperandInstr (.binary dst op lhs rhs) =
          [.move dst lhs, .binary dst op dst rhs] := if_pos hthree
      refine ⟨fun D hi => ?_, fun D => ?_, fun h => by simp [Instr.isTerminator] at h, fun _ => ?_⟩
      · have hwiden := (hKL D).widen
          (Set.subset_union_left (s := D ∪ ∅) (t := (Instr.move dst lhs).writes))
        obtain ⟨hdst, hl, hr⟩ := hi
        rw [hg]
        refine ⟨⟨hdst.mono (hKL D), hl.mono (hKL D)⟩, ⟨hdst.mono hwiden, ?_, hr.mono hwiden⟩, trivial⟩
        -- The destination is read where it has just been written.
        cases dst with
        | vreg v => exact ⟨Nat.lt_of_lt_of_le hdst (hKL D).regs, .inr rfl⟩
        | phys q | imm w | static s => exact hdst.elim
      · rw [hg, Set.union_empty, Set.union_empty]
        exact Set.union_subset_union_left _ Set.subset_union_left
      · rw [hg]
        simp [Instr.isTerminator]
    · exact hsame _ (if_neg hthree)
  | _ => exact hsame _ rfl

theorem defined_twoOperand (h : p.Defined) : (twoOperand p).Defined := by
  refine h.mapFunctions (fun callable f _ hf => ?_) fun f _ hf => ?_
  · have hrewritten := f.rewritten_expandAll twoOperandInstr
    have hregs : f.vregCount ≤ (f.expandAll twoOperandInstr).vregCount := Nat.le_refl _
    refine hrewritten.defined hf rfl fun starts b _ i _ => ?_
    exact rewrites_twoOperandInstr (Func.known_le hregs hrewritten.size _ callable starts) i
  · rw [twoOperandFunc, Func.allInstrs_expandAll, hf]
    rfl

/-! ## New numbers for statics -/

section Statics

variable {K : Known} {n : Nat} {g : StaticId → StaticId}

theorem within_renameOperand {o : Operand} (ho : o.Within K)
    (hg : ∀ s, o = .static s → g s < n) :
    (Instr.renameOperand g o).Within { K with statics := n } := by
  cases o with
  | vreg v => exact ho
  | phys q => exact ho
  | imm w => exact ho
  | static s => exact hg s rfl

theorem writable_renameOperand {o : Operand} (ho : o.Writable K) :
    (Instr.renameOperand g o).Writable { K with statics := n } := by
  cases o with
  | vreg v | phys q | imm w | static s => exact ho

theorem within_mapStatics (hi : i.Within K) (hg : ∀ s ∈ i.statics, g s < n) :
    (i.mapStatics g).Within { K with statics := n } := by
  have hop : ∀ o ∈ i.operands, o.Within K →
      (Instr.renameOperand g o).Within { K with statics := n } := by
    intro o ho hwithin
    refine within_renameOperand hwithin fun s hs => hg s ?_
    subst hs
    exact mem_append_right _ (mem_filterMap.2 ⟨.static s, ho, rfl⟩)
  cases i with
  | binary dst op l r =>
    obtain ⟨-, hl, hr⟩ := forall_operands_binary.1 hop
    exact ⟨writable_renameOperand hi.1, hl hi.2.1, hr hi.2.2⟩
  | compare dst cond l r =>
    obtain ⟨-, hl, hr⟩ := forall_operands_compare.1 hop
    exact ⟨writable_renameOperand hi.1, hl hi.2.1, hr hi.2.2⟩
  | unary dst op src =>
    obtain ⟨-, hsrc⟩ := forall_operands_unary.1 hop
    exact ⟨writable_renameOperand hi.1, hsrc hi.2⟩
  | move dst src =>
    obtain ⟨-, hsrc⟩ := forall_operands_move.1 hop
    exact ⟨writable_renameOperand hi.1, hsrc hi.2⟩
  | load dst a =>
    obtain ⟨-, ha⟩ := forall_operands_load.1 hop
    cases a with
    | base b offset => exact ⟨writable_renameOperand hi.1, ha b mem_cons_self hi.2⟩
    | static s => exact ⟨writable_renameOperand hi.1, hg s mem_cons_self⟩
    | slot k => exact hi.2.elim
    | incoming k => exact hi.2.elim
  | store a src =>
    obtain ⟨ha, hsrc⟩ := forall_operands_store.1 hop
    cases a with
    | base b offset => exact ⟨ha b mem_cons_self hi.1, hsrc hi.2⟩
    | static s => exact ⟨hg s mem_cons_self, hsrc hi.2⟩
    | slot k => exact hi.1.elim
    | incoming k => exact hi.1.elim
  | call dst callee args k =>
    obtain ⟨-, hargs⟩ := forall_operands_call.1 hop
    refine ⟨fun o ho => ?_, ?_, fun o ho => ?_⟩
    · obtain ⟨o0, ho0, rfl⟩ := Option.map_eq_some_iff.1 ho
      exact writable_renameOperand (hi.1 o0 ho0)
    · cases callee with
      | func id => exact hi.2.1
      | builtin b => trivial
    · obtain ⟨o0, ho0, rfl⟩ := mem_map.1 ho
      exact hargs o0 ho0 (hi.2.2 o0 ho0)
  | push src => exact hi.elim
  | jump t => exact hi
  | branch cond l r t e =>
    obtain ⟨hl, hr⟩ := forall_operands_branch.1 hop
    exact ⟨hl hi.1, hr hi.2.1, hi.2.2.1, hi.2.2.2⟩
  | ret v =>
    intro o ho
    obtain ⟨o0, ho0, rfl⟩ := Option.map_eq_some_iff.1 ho
    exact forall_operands_ret.1 hop o0 ho0 (hi o0 ho0)

theorem mapStatics_shape (g : StaticId → StaticId) (i : Instr) :
    (i.mapStatics g).dst? = i.dst?.map (Instr.renameOperand g) ∧
      (i.mapStatics g).isTerminator = i.isTerminator ∧
      (i.mapStatics g).successors = i.successors := by
  cases i with
  | load dst a | store a src => cases a <;> exact ⟨rfl, rfl, rfl⟩
  | _ => exact ⟨rfl, rfl, rfl⟩

theorem writes_mapStatics (g : StaticId → StaticId) (i : Instr) :
    (i.mapStatics g).writes = i.writes := by
  have hrename : ∀ o v, Instr.renameOperand g o = .vreg v ↔ o = .vreg v := by
    intro o v
    cases o <;> simp [Instr.renameOperand]
  ext v
  change (i.mapStatics g).dst? = some (.vreg v) ↔ i.dst? = some (.vreg v)
  rw [(mapStatics_shape g i).1, Option.map_eq_some_iff]
  constructor
  · rintro ⟨o, ho, heq⟩
    rw [ho, (hrename o v).1 heq]
  · exact fun h => ⟨_, h, rfl⟩

theorem within_operands (hi : i.Within K) : ∀ o ∈ i.operands, o.Within K ∨ o.Writable K := by
  cases i with
  | binary => exact forall_operands_binary.2 ⟨.inr hi.1, .inl hi.2.1, .inl hi.2.2⟩
  | compare => exact forall_operands_compare.2 ⟨.inr hi.1, .inl hi.2.1, .inl hi.2.2⟩
  | unary => exact forall_operands_unary.2 ⟨.inr hi.1, .inl hi.2⟩
  | move => exact forall_operands_move.2 ⟨.inr hi.1, .inl hi.2⟩
  | load dst a =>
    refine forall_operands_load.2 ⟨.inr hi.1, fun o ho => .inl ?_⟩
    cases a with
    | base b offset => exact mem_singleton.1 ho ▸ hi.2
    | static s => cases ho
    | slot k => cases ho
    | incoming k => cases ho
  | store a src =>
    refine forall_operands_store.2 ⟨fun o ho => .inl ?_, .inl hi.2⟩
    cases a with
    | base b offset => exact mem_singleton.1 ho ▸ hi.1
    | static s => cases ho
    | slot k => cases ho
    | incoming k => cases ho
  | call =>
    exact forall_operands_call.2 ⟨fun o ho => .inr (hi.1 o ho), fun o ho => .inl (hi.2.2 o ho)⟩
  | push => exact hi.elim
  | jump => exact forall_operands_jump
  | branch => exact forall_operands_branch.2 ⟨.inl hi.1, .inl hi.2.1⟩
  | ret => exact forall_operands_ret.2 fun o ho => .inl (hi o ho)

theorem within_statics (hi : i.Within K) : ∀ s ∈ i.statics, s < K.statics := by
  intro s hs
  rcases mem_append.1 hs with hs | hs
  · have haccess := Option.mem_toList.1 hs
    unfold Instr.staticAccess? at haccess
    split at haccess
    · obtain rfl := Option.some.inj haccess
      exact hi.2
    · obtain rfl := Option.some.inj haccess
      exact hi.1
    · cases haccess
  · obtain ⟨o, ho, hos⟩ := mem_filterMap.1 hs
    split at hos
    · obtain rfl := Option.some.inj hos
      exact (within_operands hi _ ho).resolve_right id
    · cases hos

end Statics

theorem mem_allInstrs : i ∈ f.allInstrs ↔ ∃ b, b < f.blocks.size ∧ i ∈ f.code b := by
  constructor
  · intro hi
    obtain ⟨block, hblock, hi⟩ := mem_flatMap.1 hi
    obtain ⟨b, hb, rfl⟩ := Array.getElem_of_mem (Array.mem_toList_iff.1 hblock)
    exact ⟨b, hb, by simpa [Func.code, Func.block, hb] using hi⟩
  · rintro ⟨b, -, hi⟩
    obtain ⟨block, hblock, hi⟩ := Func.mem_code hi
    exact mem_flatMap.2 ⟨block, Array.mem_toList_iff.2 hblock, hi⟩

theorem statics_lt (h : p.Defined) :
    ∀ f ∈ p.functions, ∀ i ∈ f.allInstrs, ∀ s ∈ i.statics, s < p.statics.size := by
  obtain ⟨callable, -, hothers, -⟩ := h
  intro f hf i hi
  rcases hothers f hf with hdef | hempty
  · obtain ⟨starts, -, hblocks⟩ := hdef.grounded
    obtain ⟨b, hb, hib⟩ := mem_allInstrs.1 hi
    obtain ⟨E, hE⟩ := (hblocks b hb).exists_within hib
    exact within_statics hE
  · rw [hempty] at hi
    cases hi

theorem defined_renameStatics (h : p.Defined) (g : StaticId → StaticId) (statics : Array Static)
    (hg : ∀ f ∈ p.functions, ∀ i ∈ f.allInstrs, ∀ s ∈ i.statics, g s < statics.size) :
    Program.Defined { renameStatics p g with statics := statics } := by
  refine h.mapFunctions (fun callable f hfp hf => ?_) fun f _ hf => ?_
  · rw [Func.mapInstrs_eq_expandAll]
    have hrewritten := f.rewritten_expandAll fun i => [i.mapStatics g]
    have hregs : f.vregCount ≤ (f.expandAll fun i => [i.mapStatics g]).vregCount := Nat.le_refl _
    refine hrewritten.defined hf rfl fun starts b hb i hi => ?_
    refine .single rfl (fun D hwithin => ?_) (writes_mapStatics g i).ge (mapStatics_shape g i).2.1
      (mapStatics_shape g i).2.2
    have hmapped := within_mapStatics hwithin (hg f hfp i (mem_allInstrs.2 ⟨b, hb, hi⟩))
    exact hmapped.mono (Func.known_le hregs hrewritten.size _ callable starts D)
  · rw [Func.mapInstrs_eq_expandAll, Func.allInstrs_expandAll, hf]
    rfl

theorem canonical_lt (hs : s < statics.size) : canonical statics s < statics.size := by
  unfold canonical
  split
  · next t _ _ =>
    cases hidx : statics.findIdx? fun d => d.init = .text t with
    | none => exact hs
    | some k => exact (Array.findIdx?_eq_some_iff_getElem.1 hidx).1
  · exact hs

theorem defined_coalesce (h : p.Defined) : (coalesce p).Defined :=
  defined_renameStatics h (canonical p.statics) p.statics fun f hf i hi s hs =>
    canonical_lt (statics_lt h f hf i hi s hs)

theorem mem_referenced :
    s ∈ (referenced p).toList ↔ ∃ f ∈ p.functions, ∃ i ∈ f.allInstrs, s ∈ i.statics := by
  rw [← SortedSet.mem_def, referenced, SortedSet.mem_ofList]
  simp [mem_flatMap]

theorem defined_dropUnreferenced (h : p.Defined) : (dropUnreferenced p).Defined := by
  refine defined_renameStatics h _ _ fun f hf i hi s hs => ?_
  have hmem : s ∈ (referenced p).toList := mem_referenced.2 ⟨f, hf, i, hi, hs⟩
  -- All that is kept exists, so that nothing is lost from what is kept.
  have hall : ∀ s ∈ (referenced p).toList, (p.statics[s]?).isSome := by
    intro s hs
    obtain ⟨f, hf, i, hi, hs⟩ := mem_referenced.1 hs
    simpa using statics_lt h f hf i hi s hs
  change _ < ((referenced p).toList.filterMap (p.statics[·]?)).toArray.size
  rw [size_toArray, filterMap_length_eq_length.2 hall]
  obtain ⟨k, hk⟩ := Option.isSome_iff_exists.1 (isSome_idxOf?.2 hmem)
  rw [hk]
  exact (idxOf?_eq_some_iff.1 hk).1

theorem defined_assignLabels (h : p.Defined) : (assignLabels p).Defined := by
  obtain ⟨callable, hp, hothers, hentry⟩ := h
  have hsize : (assignLabels p).statics.size = p.statics.size := Array.size_mapIdx ..
  refine ⟨callable, ?_, ?_, hentry⟩
  · rw [hsize]
    exact hp
  · rw [hsize]
    exact hothers

/-! ## Global variables in registers -/

section Cache

variable {K : Known} {D : Set VReg} {code : List Instr}

theorem grounded_of_forall (h : ∀ i ∈ code, i.Within (K.having D)) : Grounded K D code := by
  induction code generalizing D with
  | nil => trivial
  | cons i rest ih =>
    refine ⟨h i mem_cons_self, ih fun j hj => ?_⟩
    refine (h j (mem_cons_of_mem _ hj)).mono ?_
    exact ⟨Nat.le_refl _, Nat.le_refl _, fun _ h => h,
      fun b hb => ⟨hb.1, hb.2.trans Set.subset_union_left⟩, Set.subset_union_left⟩

theorem mem_writtenBy (hi : i ∈ code) {v : VReg} (hv : v ∈ i.writes) : v ∈ writtenBy D code := by
  induction code generalizing D with
  | nil => cases hi
  | cons j rest ih =>
    rcases mem_cons.1 hi with rfl | hi
    · exact subset_writtenBy _ rest (.inr hv)
    · exact ih hi

def Cache.regs (c : Cache) : Set VReg :=
  { v | c.base ≤ v ∧ v < c.base + c.globals.toList.length }

theorem Cache.reg?_eq_some {c : Cache} {v : VReg} (h : c.reg? s = some v) :
    s ∈ c.globals.toList ∧ v ∈ c.regs := by
  obtain ⟨k, hk, rfl⟩ := Option.map_eq_some_iff.1 h
  obtain ⟨hlt, hget, -⟩ := idxOf?_eq_some_iff.1 hk
  refine ⟨?_, Nat.le_add_right _ _, Nat.add_lt_add_left hlt _⟩
  rw [← hget]
  exact getElem_mem hlt

/-- A cached global variable is read and written in its register. -/
theorem Cache.rewrites_instr {c : Cache} {K L : Known} {w : SortedSet StaticId}
    (hKL : ∀ D, (K.having D).Le (L.having (D ∪ c.regs))) (hregs : ∀ v ∈ c.regs, v < L.regs)
    (hglobals : ∀ s ∈ c.globals.toList, s < L.statics) (i : Instr) :
    Rewrites K L c.regs (c.instr w) i := by
  have hsame : ∀ i, c.instr w i = [i] → Rewrites K L c.regs (c.instr w) i := fun i h =>
    .single h (fun D hi => hi.mono (hKL D)) subset_rfl rfl rfl
  have hstores : ∀ D, ∀ i ∈ c.stores w, i.Within (L.having (D ∪ c.regs)) ∧ i.isTerminator = false := by
    intro D i hi
    obtain ⟨s, -, hs⟩ := mem_filterMap.1 hi
    obtain ⟨v, hv, rfl⟩ := Option.map_eq_some_iff.1 hs
    obtain ⟨hs, hv⟩ := Cache.reg?_eq_some hv
    exact ⟨⟨hglobals s hs, hregs v hv, .inr hv⟩, rfl⟩
  cases i with
  | load dst a =>
    cases a with
    | static s =>
      cases hreg : c.reg? s with
      | none => exact hsame _ (by simp [Cache.instr, hreg])
      | some v =>
        obtain ⟨hs, hv⟩ := Cache.reg?_eq_some hreg
        refine .single (j := .move dst (.vreg v)) (by simp [Cache.instr, hreg]) (fun D hi => ?_)
          subset_rfl rfl rfl
        exact ⟨hi.1.mono (hKL D), hregs v hv, .inr hv⟩
    | base b offset | slot k | incoming k => exact hsame _ rfl
  | store a src =>
    cases a with
    | static s =>
      cases hreg : c.reg? s with
      | none => exact hsame _ (by simp [Cache.instr, hreg])
      | some v =>
        obtain ⟨hs, hv⟩ := Cache.reg?_eq_some hreg
        refine .single (j := .move (.vreg v) src) (by simp [Cache.instr, hreg]) (fun D hi => ?_)
          (fun u hu => by cases hu) rfl rfl
        exact ⟨hregs v hv, hi.2.mono (hKL D)⟩
    | base b offset | slot k | incoming k => exact hsame _ rfl
  | ret v =>
    refine ⟨fun D hi => ?_, fun D => ?_, fun _ => ⟨?_, ?_⟩, fun h => by cases h⟩
    · refine grounded_append.2 ⟨grounded_of_forall fun i hi => (hstores D i hi).1, ?_, trivial⟩
      exact hi.mono ((hKL D).widen (subset_writtenBy _ _))
    · change D ∪ { u | none = some (Operand.vreg u) } ∪ c.regs ⊆ _
      refine Set.Subset.trans ?_ (subset_writtenBy _ _)
      rintro u ((hu | hu) | hu)
      · exact .inl hu
      · cases hu
      · exact .inr hu
    · refine ⟨⟨.ret v, by simp [Cache.instr], rfl⟩, ?_⟩
      simpa [Cache.instr] using fun i hi => (hstores ∅ i hi).2
    · simp [Cache.instr]
  | _ => exact hsame _ rfl

end Cache

theorem lt_of_isGlobal (h : isGlobal statics s = true) : s < statics.size := by
  by_contra hs
  simp [isGlobal, Array.getElem?_eq_none (Nat.le_of_not_lt hs)] at h

theorem Cache.subset_loads (c : Cache) (D : Set VReg) : D ∪ c.regs ⊆ writtenBy D c.loads := by
  refine Set.union_subset (subset_writtenBy _ _) fun v hv => ?_
  obtain ⟨k, rfl⟩ := Nat.exists_eq_add_of_le hv.1
  have hk : k < c.globals.toList.length := Nat.lt_of_add_lt_add_left hv.2
  have hload : (c.globals.toList[k], k) ∈ c.globals.toList.zipIdx :=
    mk_mem_zipIdx_iff_getElem?.2 (getElem?_eq_getElem hk)
  exact mem_writtenBy (mem_map.2 ⟨_, hload, rfl⟩) rfl

/-- A function whose instructions use the cache, with an entry that loads it. -/
theorem defined_cached {statics : Nat} {callable : FuncId → Prop} {c : Cache}
    {w : SortedSet StaticId} {g : Func} (hf : f.Defined statics callable)
    (h : f.Rewritten (c.instr w) g) (hbase : c.base = f.vregCount)
    (hregs : g.vregCount = f.vregCount + c.globals.toList.length)
    (hglobals : ∀ s ∈ c.globals.toList, s < statics) (name : String) :
    (g.addEntry name c.loads).Defined statics callable := by
  obtain ⟨starts, hentry, hblocks⟩ := hf.grounded
  have hlt : ∀ b ∈ g.layout, b < g.blocks.size := fun b hb => by
    rw [h.size]
    exact (hf.layout b).1 (h.layout ▸ hb)
  have hmore : f.vregCount ≤ g.vregCount := hregs ▸ Nat.le_add_right _ _
  have hcregs : ∀ v ∈ c.regs, v < g.vregCount := fun v hv => by
    rw [hregs, ← hbase]
    exact hv.2
  let starts' : BlockId → Set VReg := fun b =>
    if b = g.blocks.size then { v | v ∈ f.params } else starts b ∪ c.regs
  have hold : ∀ b, b < f.blocks.size → starts' b = starts b ∪ c.regs := fun b hb =>
    if_neg (Nat.ne_of_lt (h.size ▸ hb))
  have hinner : ∀ b, b < (g.addEntry name c.loads).blocks.size → b ≠ g.blocks.size →
      b < f.blocks.size := fun b hb hne => by
    rw [Func.size_addEntry] at hb
    exact h.size ▸ Nat.lt_of_le_of_ne (Nat.le_of_lt_succ hb) hne
  have hrewrites : ∀ i, Rewrites (f.known statics callable starts)
      ((g.addEntry name c.loads).known statics callable starts') c.regs (c.instr w) i := by
    refine Cache.rewrites_instr (fun D => ?_) hcregs hglobals
    refine ⟨?_, Nat.le_refl _, fun _ h => h, fun b hb => ⟨?_, ?_⟩, Set.subset_union_left⟩
    · exact hmore
    · change b < (g.addEntry name c.loads).blocks.size
      rw [Func.size_addEntry, h.size]
      exact Nat.lt_succ_of_lt hb.1
    · change starts' b ⊆ D ∪ c.regs
      rw [hold b hb.1]
      exact Set.union_subset_union_left _ hb.2
  exact {
    nodup := by
      rw [Func.layout_addEntry g name _ hlt]
      exact nodup_cons.2 ⟨fun hmem => Nat.lt_irrefl _ (hlt _ hmem), h.layout ▸ hf.nodup⟩
    layout := by
      intro b
      rw [Func.layout_addEntry g name _ hlt, Func.size_addEntry, mem_cons, h.layout, hf.layout,
        h.size]
      exact or_comm.trans Nat.lt_succ_iff_lt_or_eq.symm
    entry := by
      rw [Func.size_addEntry]
      exact Nat.lt_succ_self _
    params := by
      intro v hv
      have hv : v ∈ f.params := h.params ▸ hv
      exact Nat.lt_of_lt_of_le (hf.params v hv) hmore
    ends := by
      intro b hb
      rw [Func.code_addEntry]
      split
      · refine ⟨⟨.jump g.entry, by simp, rfl⟩, ?_⟩
        rw [dropLast_concat]
        intro i hi
        obtain ⟨x, -, rfl⟩ := mem_map.1 hi
        rfl
      · next hne =>
        have hb : b < f.blocks.size := hinner b hb hne
        rw [h.code b hb]
        exact endsOnce_flatMap (fun i _ => hrewrites i) (hf.ends b hb)
    grounded := by
      refine ⟨starts', ?_, fun b hb => ?_⟩
      · change starts' g.blocks.size ⊆ _
        rw [show starts' g.blocks.size = _ from if_pos rfl]
        exact fun v hv => h.params.symm ▸ hv
      rw [Func.code_addEntry]
      split
      · next heq =>
        subst heq
        rw [show starts' g.blocks.size = _ from if_pos rfl]
        refine grounded_append.2 ⟨grounded_of_forall fun i hi => ?_, ⟨?_, ?_⟩, trivial⟩
        · obtain ⟨⟨s, k⟩, hx, rfl⟩ := mem_map.1 hi
          obtain ⟨-, hk, hs⟩ := mem_zipIdx hx
          refine ⟨?_, hglobals s ?_⟩
          · change c.base + k < g.vregCount
            rw [hregs, hbase]
            rw [Nat.zero_add] at hk
            exact Nat.add_lt_add_left hk _
          · rw [hs]
            exact getElem_mem _
        · rw [h.entry]
          change f.entry < (g.addEntry name c.loads).blocks.size
          rw [Func.size_addEntry, h.size]
          exact Nat.lt_succ_of_lt hf.entry
        · change starts' g.entry ⊆ _
          rw [h.entry, hold _ hf.entry]
          exact (Set.union_subset_union_left _ hentry).trans (c.subset_loads _)
      · next hne =>
        have hb : b < f.blocks.size := hinner b hb hne
        rw [h.code b hb, hold b hb]
        exact grounded_flatMap (fun i _ => hrewrites i) (hblocks b hb) }

theorem defined_cacheGlobals {callable : FuncId → Prop} (hf : f.Defined statics.size callable) :
    (cacheGlobals statics f).Defined statics.size callable := by
  have hin : ∀ b ∈ f.layout, b < f.blocks.size := fun b hb => (hf.layout b).1 hb
  unfold cacheGlobals
  extract_lets globals c hints g
  split
  · exact hf
  have hspec := Func.rewrite_spec (·.flatMap (c.instr (written f))) g.layout g hf.nodup hin
  have hrewritten : f.Rewritten (c.instr (written f)) (g.expandLayout (c.instr (written f))) := {
    size := hspec.2.1
    layout := (congrArg Func.layout hspec.1 :)
    entry := (congrArg Func.entry hspec.1 :)
    params := (congrArg Func.params hspec.1 :)
    code := fun b hb => congrArg Block.instrs ((hspec.2.2 b).trans (if_pos ((hf.layout b).2 hb))) }
  refine defined_cached hf hrewritten rfl ?_ (fun s hs => ?_) _
  · refine (congrArg Func.vregCount hspec.1 :).trans ?_
    change (f.hints ++ hints.toArray).size = f.hints.size + _
    simp [hints, c]
  · exact lt_of_isGlobal (List.mem_filter.1 hs).2

/-- A function without instructions has no global variables to keep in registers. -/
theorem cacheGlobals_eq_self (statics : Array Static) (h : f.allInstrs = []) :
    cacheGlobals statics f = f := by
  have hcode : ∀ b, f.code b = [] := by
    intro b
    rw [eq_nil_iff_forall_not_mem]
    intro i hi
    obtain ⟨block, hblock, hi⟩ := Func.mem_code hi
    have hmem : i ∈ f.allInstrs := mem_flatMap.2 ⟨block, Array.mem_toList_iff.2 hblock, hi⟩
    rw [h] at hmem
    cases hmem
  have hinstrs : f.instrs = [] := by simp [Func.instrs, hcode]
  unfold cacheGlobals
  rw [if_pos (by simp [accessed, hinstrs]; rfl)]

theorem defined_cacheInLeaves (h : p.Defined) : (cacheInLeaves p).Defined := by
  refine h.mapFunctions (fun callable f _ hf => ?_) (fun f _ hf => ?_)
  · split
    · exact hf
    · exact defined_cacheGlobals hf
  · split
    · exact hf
    · rw [cacheGlobals_eq_self _ hf]
      exact hf

theorem defined_layoutStatics (h : p.Defined) : (layoutStatics p).Defined :=
  defined_assignLabels (defined_dropUnreferenced (defined_coalesce (defined_cacheInLeaves h)))

end MxStar.Pass

namespace MxStar

open IR Interp

theorem defined_optimize {p : Program} (h : p.Defined) : (optimize { inline := false } p).Defined :=
  Pass.defined_layoutStatics (Pass.defined_twoOperand h)

/-- **Lowered programs run safely.** The code of a program whose names are declared once, as it is
built and as it is improved without inlining, reads nothing that is not written: every register is
in range and written on all paths to its uses, blocks end in their only terminator, and what they
name exists. So a run gives a result, or fails for a reason that lies in the source program or in
the fuel, or, where overflow of the runtime's arithmetic is checked for, with one. -/
theorem run_lowerProgram_safely {tree : Tree.Program} {scope : Scope} {unit : Program}
    (hscope : Scope.ofProgram tree = .ok scope)
    (hbuild : Lowering.lowerProgram scope tree = .ok unit) :
    ∀ p ∈ [unit, optimize { inline := false } unit], p.Defined ∧
      ∀ (input : String) (fuel : Nat) (checks : Bool), (∃ o, run p input fuel checks = .ok o) ∨
        ∃ e, run p input fuel checks = .error e ∧
          (e = .divisionByZero ∨ (∃ a, e = .outOfBounds a) ∨ e = .stackOverflow ∨ e = .outOfFuel ∨
            checks = true ∧ e = .overflow) := by
  have hunit : unit.Defined := Lowering.defined_lowerProgram hscope hbuild
  intro p hp
  have hdef : p.Defined := by
    rcases List.mem_cons.1 hp with rfl | hp
    · exact hunit
    · rw [List.mem_singleton.1 hp]
      exact defined_optimize hunit
  refine ⟨hdef, fun input fuel checks => ?_⟩
  cases hrun : run p input fuel checks with
  | ok o => exact .inl ⟨o, rfl⟩
  | error e =>
    refine .inr ⟨e, rfl, ?_⟩
    rcases run_safely hdef input fuel checks e hrun with ⟨he, hchecks⟩ | he
    · cases e with
      | divisionByZero => exact .inl rfl
      | outOfBounds a => exact .inr (.inl ⟨a, rfl⟩)
      | stackOverflow => exact .inr (.inr (.inl rfl))
      | overflow => exact .inr (.inr (.inr (.inr ⟨hchecks rfl, rfl⟩)))
      | undefinedRegister | undefinedSlot | outOfFuel | unsupported | noEntry => cases he
    · exact .inr (.inr (.inr (.inl he)))

theorem run_lowerProgram_sample :
    ∃ scope unit, Scope.ofProgram .sample = .ok scope ∧
      Lowering.lowerProgram scope .sample = .ok unit ∧
      (run unit "" 1000).map Outcome.output = .ok "55\n" ∧
      ∀ p ∈ [unit, optimize { inline := false } unit], p.Defined ∧
        ∀ (input : String) (fuel : Nat) (checks : Bool), (∃ o, run p input fuel checks = .ok o) ∨
          ∃ e, run p input fuel checks = .error e ∧
            (e = .divisionByZero ∨ (∃ a, e = .outOfBounds a) ∨ e = .stackOverflow ∨ e = .outOfFuel ∨
              checks = true ∧ e = .overflow) := by
  have hsample : (do
      let unit ← Lowering.lowerProgram (← Scope.ofProgram .sample) .sample
      return (run unit "" 1000).map Outcome.output) = .ok (.ok "55\n") := by decide +kernel
  obtain ⟨scope, hscope, h⟩ := Except.bind_eq_ok.1 hsample
  obtain ⟨unit, hbuild, h⟩ := Except.bind_eq_ok.1 h
  exact ⟨scope, unit, hscope, hbuild, Except.ok.inj h, run_lowerProgram_safely hscope hbuild⟩

end MxStar
