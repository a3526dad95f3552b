import Mathlib.Data.List.Pairwise
import MxStar.Proofs.SpillRounds

/-!
There are registers enough.

A register that was taken for a segment is live only inside it (`exists_segment_of_edge`), so that it
interferes with few registers that were taken. Only registers that calls may destroy are forbidden to it
(`mem_callerSaved_of_edge`). So colouring has room (`Segmented.roomy`), and allocation succeeds for
functions of any size (`exists_allocate`).
-/
namespace MxStar.Alloc

open IR List

variable {f : Func} {i : Instr} {q : PhysReg}

/-! ## Registers that live inside a segment -/

/-- A register that no block reads before it writes it is live at the start of none. -/
theorem not_mem_atStart (hf : f.Flows) {r : Reg} (h : ∀ b ∈ f.layout, r ∉ liveAt ∅ (f.code b))
    (b : BlockId) : r ∉ (analyze f).atStart b := by
  have hsolves : Solves f fun _ x => x ≠ r := by
    rintro b hb x hx rfl
    obtain hreads | ⟨⟨t, -, hne⟩, -⟩ := hx
    · exact h b hb ((mem_summarize_iff _ _ _).1 (.inl hreads))
    · exact hne rfl
  exact fun hmem => analyze_least hf hsolves b r hmem rfl

/-- A register that no piece of code reads before it writes it is live before all of them only if it is
live after them. -/
theorem not_mem_liveAt_flatten {r : Reg} {out : RegSet} (hout : r ∉ out) :
    ∀ {segs : List (List Instr)}, (∀ code ∈ segs, r ∉ liveAt ∅ code) → r ∉ liveAt out segs.flatten
  | [], _ => hout
  | code :: segs, h => by
    rw [flatten_cons, liveAt_append]
    intro hmem
    obtain hmem | hmem := mem_liveAt_cases hmem
    · exact h code mem_cons_self hmem
    · exact not_mem_liveAt_flatten hout (fun c hc => h c (mem_cons_of_mem _ hc)) hmem

theorem exists_of_suffix_flatten {i : Instr} {post : List Instr} :
    ∀ {segs : List (List Instr)}, i :: post <:+ segs.flatten →
      ∃ (front back : List Instr) (rest : List (List Instr)), front ++ i :: back ∈ segs ∧
        (∀ code ∈ rest, code ∈ segs) ∧ post = back ++ rest.flatten
  | [], h => by
    have hlen := h.length_le
    simp at hlen
  | code :: segs, ⟨front, heq⟩ => by
    have hlater : i :: post <:+ segs.flatten → ∃ (front back : List Instr) (rest : List (List Instr)),
        front ++ i :: back ∈ code :: segs ∧ (∀ c ∈ rest, c ∈ code :: segs) ∧
          post = back ++ rest.flatten := by
      intro hsuffix
      obtain ⟨front, back, rest, hmem, hrest, hpost⟩ := exists_of_suffix_flatten hsuffix
      exact ⟨front, back, rest, mem_cons_of_mem _ hmem,
        fun c hc => mem_cons_of_mem _ (hrest c hc), hpost⟩
    rw [flatten_cons] at heq
    obtain ⟨back, rfl, hpost⟩ | ⟨c, -, hpost⟩ := append_eq_append_iff.1 heq
    · cases back with
      | nil => exact hlater ⟨[], hpost⟩
      | cons j back =>
        obtain ⟨rfl, hback⟩ := List.cons.inj hpost
        exact ⟨front, back, segs, mem_cons_self, fun c hc => mem_cons_of_mem _ hc, hback⟩
    · exact hlater ⟨c, hpost.symm⟩

section Segments

variable {n : Nat} {f : Func} {segs : BlockId → List (List Instr)} (hf : f.Flows)
  (hcode : ∀ b ∈ f.layout, f.code b = (segs b).flatten)
  (hsegs : ∀ code ∈ f.layout.flatMap segs, IsSegment n code)

include hf hcode hsegs

/-- A register that was taken is live after an instruction only if it occurs in the same segment. -/
theorem occurs_of_live {b : BlockId} (hb : b ∈ f.layout) {front back : List Instr}
    {rest : List (List Instr)} (hrest : ∀ code ∈ rest, code ∈ segs b) {v : VReg} (hv : n ≤ v)
    (h : .virt v ∈ liveAt ((analyze f).atEnd b) (back ++ rest.flatten)) :
    Occurs v (front ++ i :: back) := by
  have hhidden : ∀ c ∈ f.layout, ∀ code ∈ segs c, .virt v ∉ liveAt ∅ code :=
    fun c hc code hmem => (hsegs code (mem_flatMap.2 ⟨c, hc, hmem⟩)).hidden hv
  have hend : .virt v ∉ (analyze f).atEnd b := by
    intro hmem
    obtain ⟨t, -, ht⟩ := (mem_atEnd_iff hf hb).1 hmem
    refine not_mem_atStart hf (fun c hc => ?_) t ht
    rw [hcode c hc]
    exact not_mem_liveAt_flatten (SortedSet.not_mem_empty _) (hhidden c hc)
  rw [liveAt_append] at h
  obtain h | h := mem_liveAt_cases h
  · obtain h | ⟨j, hj, huse⟩ := exists_uses_of_mem_liveAt h
    · exact absurd h (SortedSet.not_mem_empty _)
    · exact ⟨j, by simp [hj], mem_operands_of_source (virt_mem_uses.1 huse)⟩
  · exact absurd h (not_mem_liveAt_flatten hend fun code hmem => hhidden b hb code (hrest code hmem))

/-- **Registers that were taken interfere only within a segment.** -/
theorem exists_segment_of_edge {t u : VReg} (ht : n ≤ t) (hu : n ≤ u)
    (h : (Interference.build f (analyze f)).Edge t (.virt u)) :
    ∃ code ∈ f.layout.flatMap segs, Occurs t code ∧ Occurs u code := by
  obtain ⟨-, b, hb, i, post, hsuffix, x, y, hclash, -, hjoin⟩ := Interference.edge_build_iff.1 h
  rw [hcode b hb] at hsuffix
  obtain ⟨front, back, rest, hmem, hrest, rfl⟩ := exists_of_suffix_flatten hsuffix
  refine ⟨front ++ i :: back, mem_flatMap.2 ⟨b, hb, hmem⟩, ?_⟩
  -- One of them is an operand, the other one is, too, or is live.
  have hboth : ∀ {v w : VReg}, n ≤ w →
      Clash i (liveAt ((analyze f).atEnd b) (back ++ rest.flatten)) (.virt v) (.virt w) →
      Occurs v (front ++ i :: back) ∧ Occurs w (front ++ i :: back) := by
    intro v w hw hclash
    obtain ⟨hv, hoperand | hlive⟩ := hclash.virt_cases
    · exact ⟨⟨i, by simp, hv⟩, i, by simp, hoperand⟩
    · exact ⟨⟨i, by simp, hv⟩, occurs_of_live hf hcode hsegs hb hrest hw hlive⟩
  obtain ⟨rfl, rfl⟩ | ⟨rfl, rfl⟩ := hjoin
  · exact hboth hu hclash
  · exact (hboth ht hclash).symm

end Segments

/-- **A register that was taken interferes with few others that were.** -/
theorem Segmented.exists_neighbours {n : Nat} (h : Segmented n f) (hf : f.Flows) {t : VReg}
    (ht : n ≤ t) : ∃ l : List VReg, l.length ≤ 3 ∧
      ∀ u ∈ (Interference.build f (analyze f)).neighbours t, n ≤ u → u ∈ l := by
  obtain ⟨segs, hcode, hsegs, hshare⟩ := h
  by_cases hocc : ∃ code ∈ f.layout.flatMap segs, Occurs t code
  · obtain ⟨code, hmem, hcode'⟩ := hocc
    obtain ⟨l, hlen, hl⟩ := (hsegs code hmem).exists_vregs
    refine ⟨l, hlen, fun u hu hle => ?_⟩
    obtain ⟨other, hother, htother, huother⟩ := exists_segment_of_edge hf hcode hsegs ht hle hu
    -- There is one segment only that has the register.
    obtain rfl : other = code := by
      by_contra hne
      have hsymm : Std.Symm (SharesNone n) := ⟨fun a b hab v hv hb ha => hab v hv ha hb⟩
      exact hshare.forall hother hmem hne t ht htother hcode'
    exact hl u hle huother
  · refine ⟨[], Nat.zero_le _, fun u hu hle => absurd ?_ hocc⟩
    obtain ⟨code, hmem, hocc, -⟩ := exists_segment_of_edge hf hcode hsegs ht hle hu
    exact ⟨code, hmem, hocc⟩

/-! ## Room for a colour -/

/-- The physical registers that the machine wants apart from others are operands, or rax and rdx. -/
theorem phys_of_shapePairs {x : Operand × Operand} (hx : x ∈ shapePairs i)
    (hq : x.1 = .phys q ∨ x.2 = .phys q) : .phys q ∈ i.operands ∨ q = .rax ∨ q = .rdx := by
  cases i with
  | binary dst op lhs rhs =>
    simp only [shapePairs] at hx
    simp only [Instr.operands, Instr.dst?, Instr.sources, Option.toList_some, cons_append,
      nil_append, mem_cons]
    grind
  | _ => cases hx

/-- Code that keeps to the convention writes only registers that calls may destroy. -/
theorem Abides.mem_defs (h : Abides i) (hq : .phys q ∈ defs i) : q ∈ PhysReg.callerSaved := by
  have hdst : ∀ o : Option Operand, i.dst? = o → .phys q ∈ (o.bind Operand.reg?).toList →
      q ∈ PhysReg.callerSaved := by
    intro o ho hmem
    cases o with
    | none => cases hmem
    | some o =>
      have hreg : o.reg? = some (.phys q) := Option.mem_toList.1 hmem
      rw [Operand.eq_of_reg?.2] at hreg
      exact h.phys q (hreg ▸ mem_operands_of_dst ho)
  have hpair : q = .rax ∨ q = .rdx → q ∈ PhysReg.callerSaved := by
    rintro (rfl | rfl) <;> decide
  cases i with
  | call dst callee args n =>
    simp only [defs, SortedSet.mem_ofList, mem_append, mem_map, Reg.phys.injEq,
      exists_eq_right] at hq
    exact hq.elim (hdst _ rfl) id
  | binary dst op lhs rhs =>
    cases op with
    | div | mod =>
      simp only [defs, SortedSet.mem_ofList, mem_append, mem_cons, Reg.phys.injEq,
        not_mem_nil, or_false] at hq
      exact hq.elim (hdst _ rfl) hpair
    | _ => exact hdst _ rfl (SortedSet.mem_ofList.1 hq)
  | _ => exact hdst _ rfl (SortedSet.mem_ofList.1 hq)

section Abiding

variable {f : Func} (hf : Abiding f)

include hf

/-- **Only registers that calls may destroy are forbidden.** -/
theorem mem_callerSaved_of_edge {v : VReg}
    (h : (Interference.build f (analyze f)).Edge v (.phys q)) : q ∈ PhysReg.callerSaved := by
  obtain ⟨-, b, hb, i, post, hsuffix, x, y, hclash, -, hjoin⟩ := Interference.edge_build_iff.1 h
  have habides : Abides i := suffix_abides hf hb hsuffix
  have hshape : ∀ {z : Operand × Operand}, z ∈ shapePairs i →
      z.1.reg? = some (.phys q) ∨ z.2.reg? = some (.phys q) → q ∈ PhysReg.callerSaved := by
    intro z hz hreg
    rw [Operand.eq_of_reg?.2, Operand.eq_of_reg?.2] at hreg
    obtain hmem | rfl | rfl := phys_of_shapePairs hz hreg
    · exact habides.phys q hmem
    · decide
    · decide
  obtain ⟨rfl, rfl⟩ | ⟨rfl, rfl⟩ := hjoin
  · obtain ⟨-, hlive, -⟩ | ⟨z, hz, -, hreg⟩ := hclash
    · exact phys_live hf hb ((suffix_cons _ _).trans hsuffix) hlive
    · exact hshape hz (.inr hreg)
  · obtain ⟨hdef, -⟩ | ⟨z, hz, hreg, -⟩ := hclash
    · exact habides.mem_defs hdef
    · exact hshape hz (.inl hreg)

/-- **A register that was taken finds a colour**, unless it interferes with one that may be spilled. -/
theorem Segmented.roomy {n : Nat} (h : Segmented n f) {unspillable : SortedSet VReg}
    (hunspillable : ∀ v ∈ unspillable, n ≤ v) :
    Roomy (.build f (analyze f)) PhysReg.allocatable unspillable := by
  intro v _ hv hneighbours c
  obtain ⟨l, hlen, hl⟩ := h.exists_neighbours hf.flows (hunspillable v hv)
  refine freeColors_ne_nil (fun q hq => mem_callerSaved_of_edge hf hq)
    (fun u hu => hl u hu (hunspillable u (hneighbours u hu))) ?_ c
  exact Nat.lt_of_le_of_lt hlen (by decide)

end Abiding

/-! ## Rounds -/

theorem uncoloured_eq_nil {c : Coloring}
    (h : ∀ b ∈ f.layout, ∀ v, Occurs v (f.code b) → ∃ q, c.get? v = some q) :
    uncoloured c f = [] := by
  refine eq_nil_iff_forall_not_mem.2 fun v hv => ?_
  obtain ⟨o, ho, hfilter⟩ := mem_filterMap.1 hv
  obtain ⟨i, hi, ho⟩ := mem_flatMap.1 ho
  obtain ⟨b, hb, hi⟩ := mem_flatMap.1 hi
  obtain ⟨hvreg, hnone⟩ := Option.filter_eq_some_iff.1 hfilter
  cases o with
  | vreg w =>
    obtain rfl := Option.some.inj hvreg
    obtain ⟨q, hq⟩ := h b hb w ⟨i, hi, ho⟩
    rw [hq] at hnone
    cases hnone
  | _ => cases hvreg

/-- Rounds that fail leave code in segments that keeps to the convention. -/
theorem FailedRounds.segmented {palette : List PhysReg} {n : Nat} {g : Func}
    {unspillable unspillable' : SortedSet VReg} {rounds : List Round}
    (h : FailedRounds palette f unspillable rounds g unspillable') (hf : Abiding f)
    (hsegs : Segmented n f) (hon : Ongoing n f unspillable) :
    Abiding g ∧ Segmented n g ∧ Ongoing n g unspillable' := by
  induction h with
  | none => exact ⟨hf, hsegs, hon⟩
  | more hcolor _ ih =>
    have hbelow := fun v hv => (mem_remaining.1 ((hon.color_error hcolor).2 v hv)).1
    exact ih ((spilled_spillRegs hf.shaped _ _).abiding hf)
      (hsegs.spilled hf.shaped hon.grown hf.regs hbelow _) (hon.spill _)

/-- An instruction that keeps to the convention has three virtual registers at most. -/
theorem Abides.length_vregs_le (h : Abides i) : (vregs i).length ≤ 3 := by
  have hoperands : i.operands.length ≤ 3 → (vregs i).length ≤ 3 :=
    Nat.le_trans (length_filterMap_le ..)
  cases i with
  | call dst callee args n =>
    have hnone : vregs (.call dst callee args n) = [] :=
      eq_nil_iff_forall_not_mem.2 fun v hv => h.no_vreg (.inl rfl) v (mem_vregs.1 hv)
    rw [hnone]
    exact Nat.zero_le _
  | load dst a | store a src =>
    refine hoperands ?_
    cases a <;> simp [Instr.operands, Instr.dst?, Instr.sources, Address.operands]
  | ret v =>
    refine hoperands ?_
    cases v <;> simp [Instr.operands, Instr.dst?, Instr.sources]
  | _ =>
    refine hoperands ?_
    simp [Instr.operands, Instr.dst?, Instr.sources]

/-- **Every function that keeps to the convention can be allocated.** -/
theorem exists_allocate (hf : Abiding f) :
    ∃ g stats, allocate PhysReg.allocatable f = .ok (g, stats) := by
  have hfew : f.Every fun i => (vregs i).length ≤ 3 :=
    fun b hb i hi => (hf.abides b hb i hi).length_vregs_le
  have hon := ongoing_initial hf.regs
  obtain ⟨rounds, g, unspillable, c, hrounds, hcolor, heq⟩ :=
    allocateFrom_eq PhysReg.allocatable {} hon
      (Nat.lt_succ_of_le (card_remaining_le f.vregCount f))
  obtain ⟨hg, hsegs, hon'⟩ := hrounds.segmented hf (segmented_of_few hfew hf.regs) hon
  have hroom := hsegs.roomy hg fun v hv => ((hon'.taken v).1 hv).1
  have hnone : uncoloured c g = [] := uncoloured_eq_nil fun b hb v ⟨i, hi, hv⟩ =>
    color_total hroom hcolor (Interference.mem_nodes_build.2 ⟨hg.regs b hb i hi v hv, b, hb, i, hi, hv⟩)
  rw [allocate, heq, settle, hnone]
  exact ⟨_, _, rfl⟩

end MxStar.Alloc
