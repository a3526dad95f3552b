import MxStar.Proofs.Registers
import MxStar.Proofs.SpilledFunctions

/-!
Where the registers of spilled code live.

Round after round of spilling, an instruction becomes a segment: the instruction itself, with some of its
operands replaced, between loads before it and stores after it (`Segment`). None of the registers taken for
that is read in its segment before it is written there, and none occurs in another segment (`InTurn`).
-/
namespace MxStar.Alloc

open IR List
open Interp (sources_mapOperands)

variable {code code' : List Instr} {v : VReg} {τ : VReg → VReg} {out : RegSet} {i : Instr} {n : Nat}

/-! ## Liveness of one register -/

theorem virt_mem_uses : .virt v ∈ uses i ↔ .vreg v ∈ i.sources := by
  rw [mem_uses]
  constructor
  · rintro ⟨o, ho, hv⟩
    rwa [← (Operand.eq_of_reg?.1 v).1 hv]
  · exact fun h => ⟨_, h, rfl⟩

theorem virt_mem_defs : .virt v ∈ defs i ↔ i.dst? = some (.vreg v) := by
  have hdst : ∀ o : Option Operand, .virt v ∈ (o.bind Operand.reg?).toList ↔ o = some (.vreg v) := by
    intro o
    cases o with
    | none => simp
    | some o => simp [(Operand.eq_of_reg?).1 v]
  cases i with
  | binary dst op lhs rhs => cases op <;> simp [defs, hdst]
  | _ => simp [defs, hdst]

/-- Whether a register is live before some code depends on whether it is live after it, and on no other
register. -/
theorem mem_liveAt_congr {r : Reg} {out' : RegSet} (h : r ∈ out ↔ r ∈ out') (code : List Instr) :
    r ∈ liveAt out code ↔ r ∈ liveAt out' code := by
  induction code with
  | nil => exact h
  | cons i code ih => rw [liveAt_cons, liveAt_cons, mem_liveBefore, mem_liveBefore, ih]

theorem mem_liveAt_of_absent (h : ∀ i ∈ code, .vreg v ∉ i.operands) (out : RegSet) :
    .virt v ∈ liveAt out code ↔ .virt v ∈ out := by
  induction code with
  | nil => rfl
  | cons i code ih =>
    have hi := h i mem_cons_self
    have huse : Reg.virt v ∉ uses i := fun hu => hi (mem_operands_of_source (virt_mem_uses.1 hu))
    have hdef : Reg.virt v ∉ defs i := fun hd => hi (mem_operands_of_dst (virt_mem_defs.1 hd))
    rw [liveAt_cons, mem_liveBefore, ih fun j hj => h j (mem_cons_of_mem _ hj)]
    simp [huse, hdef]

/-- A register that is live before some code is read in it before it is written, or live after it. -/
theorem mem_liveAt_cases {r : Reg} (h : r ∈ liveAt out code) : r ∈ liveAt ∅ code ∨ r ∈ out := by
  induction code with
  | nil => exact .inr h
  | cons i code ih =>
    rw [liveAt_cons, mem_liveBefore] at h ⊢
    obtain ⟨h, hdef⟩ | huse := h
    · exact (ih h).imp_left fun h => .inl ⟨h, hdef⟩
    · exact .inl (.inr huse)

/-! ## Segments -/

def vregs (i : Instr) : List VReg := i.operands.filterMap Operand.vreg?

theorem mem_vregs : v ∈ vregs i ↔ .vreg v ∈ i.operands := by
  rw [vregs, mem_filterMap]
  constructor
  · rintro ⟨o, ho, hv⟩
    cases o with
    | vreg w => exact Option.some.inj hv ▸ ho
    | _ => cases hv
  · exact fun h => ⟨_, h, rfl⟩

/-- What became of an instruction, where registers from `n` on have been taken for it: loads, the
instruction, and stores. -/
structure Segment (n : Nat) (pre : List Instr) (main : Instr) (post : List Instr) : Prop where
  few : (vregs main).length ≤ 3
  around : ∀ j ∈ pre ++ post, ∀ v, .vreg v ∈ j.operands → n ≤ v ∧ .vreg v ∈ main.operands
  hidden : ∀ v, n ≤ v → .virt v ∉ liveAt ∅ (pre ++ main :: post)

def IsSegment (n : Nat) (code : List Instr) : Prop :=
  ∃ pre main post, code = pre ++ main :: post ∧ Segment n pre main post

def Occurs (v : VReg) (code : List Instr) : Prop := ∃ i ∈ code, .vreg v ∈ i.operands

instance (v : VReg) (code : List Instr) : Decidable (Occurs v code) :=
  inferInstanceAs (Decidable (∃ i ∈ code, .vreg v ∈ i.operands))

def SharesNone (n : Nat) (code code' : List Instr) : Prop :=
  ∀ v, n ≤ v → Occurs v code → ¬Occurs v code'

/-- All registers of a segment that were taken stand in one instruction. -/
theorem IsSegment.exists_vregs (h : IsSegment n code) :
    ∃ l : List VReg, l.length ≤ 3 ∧ ∀ v, n ≤ v → Occurs v code → v ∈ l := by
  obtain ⟨pre, main, post, rfl, h⟩ := h
  refine ⟨vregs main, h.few, fun v _ ⟨i, hi, hv⟩ => mem_vregs.2 ?_⟩
  rcases mem_append.1 hi with hi | hi
  · exact (h.around i (mem_append_left _ hi) v hv).2
  · rcases mem_cons.1 hi with rfl | hi
    · exact hv
    · exact (h.around i (mem_append_right _ hi) v hv).2

theorem IsSegment.hidden (h : IsSegment n code) (hv : n ≤ v) : .virt v ∉ liveAt ∅ code := by
  obtain ⟨pre, main, post, rfl, h⟩ := h
  exact h.hidden v hv

theorem isSegment_singleton (hfew : (vregs i).length ≤ 3)
    (hregs : ∀ v, .vreg v ∈ i.operands → v < n) : IsSegment n [i] := by
  refine ⟨[], i, [], rfl, hfew, fun j hj => absurd hj not_mem_nil, fun v hv hlive => ?_⟩
  have habsent : ∀ j ∈ [i], .vreg v ∉ j.operands := by
    intro j hj hmem
    obtain rfl := mem_singleton.1 hj
    have hlt := hregs v hmem
    omega
  exact absurd ((mem_liveAt_of_absent habsent ∅).1 hlive) (SortedSet.not_mem_empty _)

/-! ## Spilling a segment -/

theorem dst?_mapOperands (σ : Operand → Operand) (i : Instr) :
    (i.mapOperands σ).dst? = i.dst?.map σ := by
  cases i <;> rfl

section Spill

variable {slots : Slots} {n lo hi : Nat} {i : Instr} {new : List Instr}

/-- A register of the renamed instruction was there before, or stands for a spilled one. -/
theorem Renames.mem_cases (hτ : Renames slots lo hi i τ) {os : List Operand}
    (hos : ∀ o ∈ os, o ∈ i.operands) (h : .vreg v ∈ os.map (renameVReg τ)) :
    (.vreg v ∈ os ∧ slots.get? v = none) ∨
      ∃ u, .vreg u ∈ os ∧ (slots.get? u).isSome ∧ v = τ u ∧ lo ≤ v := by
  obtain ⟨o, ho, heq⟩ := mem_map.1 h
  cases o with
  | vreg u =>
    obtain rfl : τ u = v := Operand.vreg.inj heq
    cases hu : slots.get? u with
    | none =>
      rw [hτ.keep u hu]
      exact .inl ⟨ho, hu⟩
    | some k =>
      have hsome : (slots.get? u).isSome := hu ▸ rfl
      exact .inr ⟨u, ho, hsome, rfl, (hτ.fresh u (hos _ ho) hsome).1⟩
  | _ => cases heq

theorem Renames.mem_of_keep (hτ : Renames slots lo hi i τ) {os : List Operand}
    (hv : slots.get? v = none) (h : .vreg v ∈ os) : .vreg v ∈ os.map (renameVReg τ) :=
  mem_map.2 ⟨_, h, congrArg Operand.vreg (hτ.keep v hv)⟩

/-- The loads before an instruction have the registers that stand for what it reads. -/
theorem vreg_mem_load {loads : List VReg} {j : Instr}
    (hj : j ∈ loads.map fun u => .load (.vreg (τ u)) (slots.address u))
    (hv : .vreg v ∈ j.operands) : ∃ u ∈ loads, v = τ u := by
  obtain ⟨u, hu, rfl⟩ := mem_map.1 hj
  refine ⟨u, hu, ?_⟩
  simpa [Instr.operands, Instr.dst?, Instr.sources, Slots.address, Address.operands] using hv

/-- The store after an instruction has the register that stands for what it writes. -/
theorem vreg_mem_spillStore {j : Instr} (hj : j ∈ spillStore slots τ i)
    (hv : .vreg v ∈ j.operands) :
    ∃ d, i.dst? = some (.vreg d) ∧ (slots.get? d).isSome ∧ v = τ d := by
  obtain ⟨d, hd, hsome, rfl⟩ := mem_spillStore hj
  refine ⟨d, hd, hsome, ?_⟩
  simpa [Instr.operands, Instr.dst?, Instr.sources, Slots.address, Address.operands] using hv

/-- A register that was there before and is not spilled is live before the code of an instruction just if
it is live before the instruction. -/
theorem SpillsTo.virt_mem_liveAt (h : SpillsTo slots lo hi i new) (hv : slots.get? v = none)
    (hlt : v < lo) (out : RegSet) : .virt v ∈ liveAt out new ↔ .virt v ∈ liveBefore i out := by
  cases h with
  | @store d k src heq hd =>
    subst heq
    have hne : d ≠ v := by
      rintro rfl
      rw [hv] at hd
      cases hd
    simp [virt_mem_uses, virt_mem_defs, Instr.sources, Instr.dst?, Address.operands, hne]
  | @load dst u k heq _ hu =>
    subst heq
    have hne : v ≠ u := by
      rintro rfl
      rw [hv] at hu
      cases hu
    simp [virt_mem_uses, virt_mem_defs, Instr.sources, Instr.dst?, Address.operands, hne]
  | @general τ loads hτ _ hloads =>
    have hloaded : ∀ j ∈ loads.map fun u => Instr.load (.vreg (τ u)) (slots.address u),
        .vreg v ∉ j.operands := by
      intro j hj hmem
      obtain ⟨u, hu, rfl⟩ := vreg_mem_load hj hmem
      obtain ⟨hsource, hsome⟩ := (hloads u).1 hu
      exact Nat.not_le.2 hlt (hτ.fresh u (mem_operands_of_source hsource) hsome).1
    have hstored : ∀ j ∈ spillStore slots τ i, .vreg v ∉ j.operands := by
      intro j hj hmem
      obtain ⟨d, hd, hsome, rfl⟩ := vreg_mem_spillStore hj hmem
      exact Nat.not_le.2 hlt (hτ.fresh d (mem_operands_of_dst hd) hsome).1
    have hsame : ∀ os : List Operand, (∀ o ∈ os, o ∈ i.operands) →
        (.vreg v ∈ os.map (renameVReg τ) ↔ .vreg v ∈ os) := by
      intro os hos
      refine ⟨fun hmem => ?_, hτ.mem_of_keep hv⟩
      obtain hmem | ⟨u, -, -, -, hle⟩ := hτ.mem_cases hos hmem
      · exact hmem.1
      · exact absurd hle (Nat.not_le.2 hlt)
    have huses : .virt v ∈ uses (i.mapOperands (renameVReg τ)) ↔ .virt v ∈ uses i := by
      rw [virt_mem_uses, virt_mem_uses, sources_mapOperands]
      exact hsame _ fun o ho => mem_operands_of_source ho
    have hdefs : .virt v ∈ defs (i.mapOperands (renameVReg τ)) ↔ .virt v ∈ defs i := by
      have hdst := hsame i.dst?.toList fun o ho => mem_operands_of_dst (Option.mem_toList.1 ho)
      rw [virt_mem_defs, virt_mem_defs, dst?_mapOperands, ← Option.mem_toList, ← Option.mem_toList,
        Option.toList_map]
      exact hdst
    rw [liveAt_append, mem_liveAt_of_absent hloaded, liveAt_cons, mem_liveBefore, mem_liveBefore,
      mem_liveAt_of_absent hstored, huses, hdefs]

theorem virt_mem_liveAt_loads {loads : List VReg} :
    .virt v ∈ liveAt out (loads.map fun u => .load (.vreg (τ u)) (slots.address u)) ↔
      .virt v ∈ out ∧ ∀ u ∈ loads, v ≠ τ u := by
  induction loads with
  | nil => simp
  | cons u loads ih =>
    rw [map_cons, liveAt_cons, mem_liveBefore, ih, virt_mem_uses, virt_mem_defs]
    simp only [Instr.sources, Instr.dst?, Slots.address, Address.operands, not_mem_nil, or_false,
      Option.some.injEq, Operand.vreg.injEq, forall_mem_cons]
    rw [and_assoc, and_comm (b := ¬τ u = v), eq_comm]

/-- A register taken for an instruction is written in its code before it is read there. -/
theorem SpillsTo.virt_not_mem_liveAt (h : SpillsTo slots lo hi i new)
    (hregs : ∀ u, .vreg u ∈ i.operands → u < lo) (hv : lo ≤ v) (hout : .virt v ∉ out) :
    .virt v ∉ liveAt out new := by
  have habsent : .vreg v ∉ i.operands := fun hmem => Nat.not_le.2 (hregs v hmem) hv
  cases h with
  | @store d k src heq =>
    subst heq
    have hsrc : .vreg v ≠ src := fun heq => habsent (heq ▸ mem_operands_of_source mem_cons_self)
    simp [virt_mem_uses, virt_mem_defs, Instr.sources, Instr.dst?, Address.operands, hout, hsrc]
  | load heq =>
    subst heq
    simp [virt_mem_uses, virt_mem_defs, Instr.sources, Instr.dst?, Address.operands, hout]
  | @general τ loads hτ _ hloads =>
    intro hlive
    rw [liveAt_append, virt_mem_liveAt_loads] at hlive
    obtain ⟨hlive, hloaded⟩ := hlive
    rw [liveAt_cons, mem_liveBefore, virt_mem_uses, virt_mem_defs, sources_mapOperands,
      dst?_mapOperands] at hlive
    obtain ⟨hlive, hdef⟩ | huse := hlive
    · -- Only the store reads it, and then the instruction has written it.
      have hstored : ∀ j ∈ spillStore slots τ i, .vreg v ∉ j.operands := by
        intro j hj hmem
        obtain ⟨d, hd, -, rfl⟩ := vreg_mem_spillStore hj hmem
        exact hdef (by rw [hd]; rfl)
      exact hout ((mem_liveAt_of_absent hstored out).1 hlive)
    · obtain ⟨hmem, -⟩ | ⟨u, hu, hsome, rfl, -⟩ :=
        hτ.mem_cases (fun o ho => mem_operands_of_source ho) huse
      · exact habsent (mem_operands_of_source hmem)
      · exact hloaded u ((hloads u).2 ⟨hu, hsome⟩) rfl

/-- The code of an instruction has the registers that the instruction has and that are not spilled, and
registers taken for it. -/
theorem Occurs.of_spilled (h : Replaced (SpillsTo slots lo hi) code code') (hv : Occurs v code') :
    (Occurs v code ∧ slots.get? v = none) ∨ lo ≤ v ∧ v < hi := by
  obtain ⟨j, hj, hmem⟩ := hv
  obtain ⟨i, hi, new, hnew, hj⟩ := h.exists_of_mem hj
  obtain ⟨w, heq, hlo, hhi⟩ | ⟨hmem, hkept⟩ := hnew.mem_operands hj hmem
  · cases heq
    exact .inr ⟨hlo, hhi⟩
  · exact .inl ⟨⟨i, hi, hmem⟩, hkept⟩

theorem eq_of_kept (h : Replaced (SpillsTo slots lo hi) code code')
    (hkept : ∀ i ∈ code, ∀ v, .vreg v ∈ i.operands → slots.get? v = none) : code' = code := by
  induction h with
  | nil => rfl
  | cons h _ ih =>
    rw [h.eq_singleton (hkept _ mem_cons_self),
      ih fun i hi => hkept i (mem_cons_of_mem _ hi)]
    rfl

/-- **Spilling makes a segment of a segment.** The loads and stores stay, and more of them come around the
instruction. -/
theorem Segment.spill {pre post : List Instr} (h : Segment n pre i post) (hn : n ≤ lo)
    (hslots : ∀ v, n ≤ v → slots.get? v = none) (hregs : ∀ v, Occurs v (pre ++ i :: post) → v < lo)
    (hnew : SpillsTo slots lo hi i new) : IsSegment n (pre ++ (new ++ post)) := by
  have hmain : ∀ v, .vreg v ∈ i.operands → v < lo := fun v hv => hregs v ⟨i, by simp, hv⟩
  -- Registers that were taken before are live where they were, and new ones only inside.
  have hhidden : ∀ v, n ≤ v → .virt v ∉ liveAt ∅ (pre ++ (new ++ post)) := by
    intro v hv hlive
    rw [liveAt_append, liveAt_append] at hlive
    by_cases hlt : v < lo
    · refine h.hidden v hv ?_
      rw [liveAt_append, liveAt_cons]
      exact (mem_liveAt_congr (hnew.virt_mem_liveAt (hslots v hv) hlt _) pre).1 hlive
    · have habsent : ∀ {code : List Instr}, (∀ j ∈ code, j ∈ pre ++ i :: post) →
          ∀ j ∈ code, .vreg v ∉ j.operands :=
        fun hsub j hj hmem => hlt (hregs v ⟨j, hsub j hj, hmem⟩)
      have hpost : .virt v ∉ liveAt ∅ post := fun hmem => SortedSet.not_mem_empty _
        ((mem_liveAt_of_absent (habsent fun j hj => by simp [hj]) ∅).1 hmem)
      refine hnew.virt_not_mem_liveAt hmain (Nat.not_lt.1 hlt) hpost ?_
      exact (mem_liveAt_of_absent (habsent fun j hj => by simp [hj]) _).1 hlive
  cases hnew with
  | @store d k src heq hd =>
    subst heq
    refine ⟨pre, _, post, rfl, ?_, fun j hj v hv => ?_, hhidden⟩
    · exact Nat.le_trans (length_filterMap_le ..) (by simp [Instr.operands, Instr.dst?,
        Instr.sources, Address.operands])
    · obtain ⟨hle, hmem⟩ := h.around j hj v hv
      refine ⟨hle, ?_⟩
      rcases mem_cons.1 hmem with heq | hmem
      · cases heq
        rw [hslots d hle] at hd
        cases hd
      · exact hmem
  | @load dst u k heq _ hu =>
    subst heq
    refine ⟨pre, _, post, rfl, ?_, fun j hj v hv => ?_, hhidden⟩
    · exact Nat.le_trans (length_filterMap_le ..) (by simp [Instr.operands, Instr.dst?,
        Instr.sources, Address.operands])
    · obtain ⟨hle, hmem⟩ := h.around j hj v hv
      refine ⟨hle, ?_⟩
      rcases mem_cons.1 hmem with rfl | hmem
      · exact mem_cons_self
      · cases mem_singleton.1 hmem
        rw [hslots u hle] at hu
        cases hu
  | @general τ loads hτ _ hloads =>
    have hsplit : pre ++ (loads.map (fun v => .load (.vreg (τ v)) (slots.address v)) ++
        (i.mapOperands (renameVReg τ) :: spillStore slots τ i) ++ post) =
        pre ++ loads.map (fun v => .load (.vreg (τ v)) (slots.address v)) ++
          i.mapOperands (renameVReg τ) :: (spillStore slots τ i ++ post) := by
      simp only [append_assoc, cons_append]
    have hstands : ∀ u, .vreg u ∈ i.operands → (slots.get? u).isSome →
        n ≤ τ u ∧ .vreg (τ u) ∈ (i.mapOperands (renameVReg τ)).operands := by
      intro u hu hsome
      rw [operands_mapOperands]
      exact ⟨Nat.le_trans hn (hτ.fresh u hu hsome).1, mem_map.2 ⟨_, hu, rfl⟩⟩
    have haround : ∀ j ∈ pre ++ post, ∀ v, .vreg v ∈ j.operands →
        n ≤ v ∧ .vreg v ∈ (i.mapOperands (renameVReg τ)).operands := by
      intro j hj v hv
      obtain ⟨hle, hmem⟩ := h.around j hj v hv
      rw [operands_mapOperands]
      exact ⟨hle, hτ.mem_of_keep (hslots v hle) hmem⟩
    refine ⟨_, _, _, hsplit, ?_, fun j hj v hv => ?_, hsplit ▸ hhidden⟩
    · have hcomp : Operand.vreg? ∘ renameVReg τ = fun o => o.vreg?.map τ := by
        funext o
        cases o <;> rfl
      rw [vregs, operands_mapOperands, filterMap_map, hcomp, ← map_filterMap, length_map]
      exact h.few
    · simp only [mem_append] at hj
      obtain (hj | hj) | hj | hj := hj
      · exact haround j (mem_append_left _ hj) v hv
      · obtain ⟨u, hu, rfl⟩ := vreg_mem_load hj hv
        obtain ⟨hsource, hsome⟩ := (hloads u).1 hu
        exact hstands u (mem_operands_of_source hsource) hsome
      · obtain ⟨d, hd, hsome, rfl⟩ := vreg_mem_spillStore hj hv
        exact hstands d (mem_operands_of_dst hd) hsome
      · exact haround j (mem_append_right _ hj) v hv

theorem IsSegment.spill (h : IsSegment n code) (hn : n ≤ lo)
    (hslots : ∀ v, n ≤ v → slots.get? v = none) (hregs : ∀ v, Occurs v code → v < lo)
    (hcode : Replaced (SpillsTo slots lo hi) code code') : IsSegment n code' := by
  obtain ⟨pre, main, post, rfl, hseg⟩ := h
  obtain ⟨pre', rest', rfl, hpre, hrest⟩ := hcode.append_inv
  cases hrest with
  | @cons _ new _ post' hnew hpost =>
    have hkept : ∀ j ∈ pre ++ post, ∀ v, .vreg v ∈ j.operands → slots.get? v = none :=
      fun j hj v hv => hslots v (hseg.around j hj v hv).1
    rw [eq_of_kept hpre fun j hj => hkept j (mem_append_left _ hj),
      eq_of_kept hpost fun j hj => hkept j (mem_append_right _ hj)]
    exact hseg.spill hn hslots hregs hnew

end Spill

/-! ## Segments in turn -/

/-- Pieces of code are replaced one after another, each with registers from a range of its own; the ranges
ascend from `lo` to `hi`. -/
inductive InTurn (R : Nat → Nat → List Instr → List Instr → Prop) :
    Nat → Nat → List (List Instr) → List (List Instr) → Prop
  | nil {lo : Nat} : InTurn R lo lo [] []
  | cons {lo mid hi : Nat} {code code' : List Instr} {rest rest' : List (List Instr)} (hmid : lo ≤ mid)
      (h : R lo mid code code') (hrest : InTurn R mid hi rest rest') :
      InTurn R lo hi (code :: rest) (code' :: rest')

namespace InTurn

variable {R S : Nat → Nat → List Instr → List Instr → Prop} {lo mid hi : Nat}
  {segs segs' rest rest' : List (List Instr)}

theorem le (h : InTurn R lo hi segs segs') : lo ≤ hi := by
  induction h with
  | nil => exact Nat.le_refl _
  | cons hmid _ _ ih => exact Nat.le_trans hmid ih

theorem mono (hRS : ∀ lo hi code code', R lo hi code code' → S lo hi code code')
    (h : InTurn R lo hi segs segs') : InTurn S lo hi segs segs' := by
  induction h with
  | nil => exact .nil
  | cons hmid h _ ih => exact .cons hmid (hRS _ _ _ _ h) ih

theorem append (h : InTurn R lo mid segs segs') (h' : InTurn R mid hi rest rest') :
    InTurn R lo hi (segs ++ rest) (segs' ++ rest') := by
  induction h with
  | nil => exact h'
  | cons hmid h _ ih => exact .cons hmid h (ih h')

/-- Every new piece replaces one of the old, with registers of its own. -/
theorem exists_of_mem (h : InTurn R lo hi segs segs') (hcode : code' ∈ segs') :
    ∃ code ∈ segs, ∃ lo' hi', lo ≤ lo' ∧ hi' ≤ hi ∧ R lo' hi' code code' := by
  induction h with
  | nil => cases hcode
  | cons hmid h hrest ih =>
    rcases mem_cons.1 hcode with rfl | hcode
    · exact ⟨_, mem_cons_self, _, _, Nat.le_refl _, hrest.le, h⟩
    · obtain ⟨code, hmem, lo', hi', hlo, hhi, h⟩ := ih hcode
      exact ⟨code, mem_cons_of_mem _ hmem, lo', hi', Nat.le_trans hmid hlo, hhi, h⟩

end InTurn

section Expand

variable {expand : Instr → Expand Unit} (hg : Grows expand)

theorem expandCode_append (expand : Instr → Expand Unit) (a b : List Instr) (hints : Array String) :
    expandCode expand (a ++ b) hints =
      ((expandCode expand a hints).1 ++ (expandCode expand b (expandCode expand a hints).2).1,
        (expandCode expand b (expandCode expand a hints).2).2) := by
  induction a generalizing hints with
  | nil => rfl
  | cons i a ih =>
    simp only [cons_append, expandCode, ih, append_assoc]

include hg

/-- Expanding code expands its pieces in turn. -/
theorem exists_inTurn_code (segs : List (List Instr)) (hints : Array String) :
    ∃ segs', (expandCode expand segs.flatten hints).1 = segs'.flatten ∧
      InTurn (fun lo hi => Replaced (Expands expand lo hi)) hints.size
        (expandCode expand segs.flatten hints).2.size segs segs' := by
  induction segs generalizing hints with
  | nil => exact ⟨[], rfl, .nil⟩
  | cons code segs ih =>
    obtain ⟨segs', hcode, hturn⟩ := ih (expandCode expand code hints).2
    rw [flatten_cons, expandCode_append]
    refine ⟨(expandCode expand code hints).1 :: segs', ?_, ?_⟩
    · rw [hcode, flatten_cons]
    · exact .cons (expandCode_grows hg code hints) (expandCode_replaced hg code hints) hturn

/-- Expanding blocks one after another expands the pieces of all of them in turn. -/
theorem exists_inTurn : ∀ (l : List BlockId) (f : Func) (segs : BlockId → List (List Instr)), l.Nodup →
    (∀ b ∈ l, b < f.blocks.size) → (∀ b ∈ l, f.code b = (segs b).flatten) →
    ∃ segs' : BlockId → List (List Instr),
      (∀ b ∈ l, (l.foldl (expandBlock expand) f).code b = (segs' b).flatten) ∧
      InTurn (fun lo hi => Replaced (Expands expand lo hi)) f.vregCount
        (l.foldl (expandBlock expand) f).vregCount (l.flatMap segs) (l.flatMap segs')
  | [], f, segs, _, _, _ => ⟨segs, fun b hb => absurd hb not_mem_nil, .nil⟩
  | c :: l, f, segs, hnodup, hin, hsegs => by
    obtain ⟨hc, hnodup'⟩ := nodup_cons.1 hnodup
    have hne : ∀ b ∈ l, b ≠ c := fun b hb heq => hc (heq ▸ hb)
    have hlt : c < f.blocks.size := hin c mem_cons_self
    have hcode : ∀ b, (expandBlock expand f c).code b =
        if c = b then (expandCode expand (f.code c) f.hints).1 else f.code b :=
      fun b => Func.code_setCode f c b _ hlt
    have hin' : ∀ b ∈ l, b < (expandBlock expand f c).blocks.size := fun b hb =>
      (Func.size_setCode f c _).symm ▸ hin b (mem_cons_of_mem _ hb)
    obtain ⟨new, hnew, hturn⟩ := exists_inTurn_code hg (segs c) f.hints
    obtain ⟨rest, hrest, hturn'⟩ := exists_inTurn l (expandBlock expand f c) segs hnodup' hin' (by
      intro b hb
      rw [hcode, if_neg (hne b hb).symm]
      exact hsegs b (mem_cons_of_mem _ hb))
    -- The other blocks leave the code of this one alone.
    have hkept : (l.foldl (expandBlock expand) (expandBlock expand f c)).code c = new.flatten := by
      rw [(expandBlocks_spec hg l _ hnodup' hin').2.2.2.2.1 c hc, hcode, if_pos rfl,
        hsegs c mem_cons_self, hnew]
    refine ⟨fun b => if b = c then new else rest b, fun b hb => ?_, ?_⟩
    · rcases mem_cons.1 hb with rfl | hb
      · exact hkept.trans (congrArg List.flatten (if_pos rfl).symm)
      · exact (hrest b hb).trans (congrArg List.flatten (if_neg (hne b hb)).symm)
    · rw [flatMap_cons, flatMap_cons, if_pos rfl]
      rw [← hsegs c mem_cons_self] at hturn
      have hsame : (l.flatMap fun b => if b = c then new else rest b) = l.flatMap rest :=
        flatMap_congr fun b hb => if_neg (hne b hb)
      rw [hsame]
      exact hturn.append hturn'

end Expand

/-! ## Functions in segments -/

/-- The code of a function is in segments, of which no two share a register from `n` on. -/
def Segmented (n : Nat) (f : Func) : Prop :=
  ∃ segs : BlockId → List (List Instr), (∀ b ∈ f.layout, f.code b = (segs b).flatten) ∧
    (∀ code ∈ f.layout.flatMap segs, IsSegment n code) ∧
    (f.layout.flatMap segs).Pairwise (SharesNone n)

/-- Segments that are spilled in turn still share no register. -/
theorem InTurn.sharesNone {slots : Slots} {base lo hi : Nat} {segs segs' : List (List Instr)}
    (h : InTurn (fun lo hi => Replaced (SpillsTo slots lo hi)) lo hi segs segs') (hbase : base ≤ lo)
    (hregs : ∀ code ∈ segs, ∀ v, Occurs v code → v < base) (hshare : segs.Pairwise (SharesNone n)) :
    segs'.Pairwise (SharesNone n) := by
  induction h with
  | nil => exact .nil
  | @cons lo mid hi code code' rest rest' hmid h hrest ih =>
    obtain ⟨hfirst, hshare⟩ := pairwise_cons.1 hshare
    have hregs' : ∀ c ∈ rest, ∀ v, Occurs v c → v < base :=
      fun c hc => hregs c (mem_cons_of_mem _ hc)
    refine .cons (fun c' hc' v hv hcode hother => ?_)
      (ih (Nat.le_trans hbase hmid) hregs' hshare)
    obtain ⟨c, hc, lo', hi', hlo', -, h'⟩ := hrest.exists_of_mem hc'
    -- A register is old or new on each side, and new ones are in different ranges.
    obtain ⟨hold, -⟩ | ⟨hlo, hhi⟩ := Occurs.of_spilled h hcode
    · obtain ⟨hold', -⟩ | ⟨hle, -⟩ := Occurs.of_spilled h' hother
      · exact hfirst c hc v hv hold hold'
      · have hlt : v < base := hregs code mem_cons_self v hold
        have hle : base ≤ v := Nat.le_trans hbase (Nat.le_trans hmid (Nat.le_trans hlo' hle))
        exact Nat.not_le.2 hlt hle
    · obtain ⟨hold', -⟩ | ⟨hle, -⟩ := Occurs.of_spilled h' hother
      · exact Nat.not_le.2 (hregs' c hc v hold') (Nat.le_trans hbase hlo)
      · exact Nat.not_le.2 hhi (Nat.le_trans hlo' hle)

/-- **Spilling keeps code in segments**, if only registers below `n` are spilled. -/
theorem Segmented.spilled {f : Func} (h : Segmented n f) (hf : f.Shaped) (hn : n ≤ f.vregCount)
    (hregs : ∀ b ∈ f.layout, ∀ i ∈ f.code b, ∀ v, .vreg v ∈ i.operands → v < f.vregCount)
    {spills : SortedSet VReg} (hspills : ∀ v ∈ spills, v < n) (unspillable : SortedSet VReg) :
    Segmented n (spillRegs f spills unspillable).1 := by
  obtain ⟨segs, hcode, hsegs, hshare⟩ := h
  obtain ⟨segs', hcode', hturn⟩ := exists_inTurn (grows_spillInstr ⟨f.slots, spills⟩) f.layout
    { f with slots := f.slots + spills.size } segs hf.nodup hf.blocks hcode
  have hturn := hturn.mono fun lo hi code code' hreplaced =>
    hreplaced.mono fun i new hnew => spillsTo_of_expands hnew
  have hbelow : ∀ code ∈ f.layout.flatMap segs, ∀ v, Occurs v code → v < f.vregCount := by
    intro code hmem v hv
    obtain ⟨b, hb, hmem⟩ := mem_flatMap.1 hmem
    obtain ⟨i, hi, hv⟩ := hv
    refine hregs b hb i ?_ v hv
    rw [hcode b hb]
    exact mem_flatten.2 ⟨code, hmem, hi⟩
  have hslots : ∀ v, n ≤ v → (Slots.mk f.slots spills).get? v = none := by
    intro v hv
    by_contra hsome
    have hmem := Slots.isSome_get?_iff.1 (Option.isSome_iff_ne_none.2 hsome)
    exact Nat.not_le.2 (hspills v hmem) hv
  have hlayout := (spilled_spillRegs hf spills unspillable).layout
  refine ⟨segs', ?_, ?_, ?_⟩
  · rw [hlayout]
    exact hcode'
  · rw [hlayout]
    intro code' hmem
    obtain ⟨code, hmem, lo, hi, hlo, -, hreplaced⟩ := hturn.exists_of_mem hmem
    exact (hsegs code hmem).spill (Nat.le_trans hn hlo) hslots
      (fun v hv => Nat.lt_of_lt_of_le (hbelow code hmem v hv) hlo) hreplaced
  · rw [hlayout]
    exact hturn.sharesNone (Nat.le_refl _) hbelow hshare

/-- Code for which nothing has been taken is in segments of one instruction. -/
theorem segmented_of_few {f : Func} (hfew : f.Every fun i => (vregs i).length ≤ 3)
    (hregs : ∀ b ∈ f.layout, ∀ i ∈ f.code b, ∀ v, .vreg v ∈ i.operands → v < f.vregCount) :
    Segmented f.vregCount f := by
  have hmem : ∀ code ∈ f.layout.flatMap fun b => (f.code b).map ([·]),
      ∃ b ∈ f.layout, ∃ i ∈ f.code b, code = [i] := by
    intro code hmem
    obtain ⟨b, hb, hmem⟩ := mem_flatMap.1 hmem
    obtain ⟨i, hi, rfl⟩ := mem_map.1 hmem
    exact ⟨b, hb, i, hi, rfl⟩
  refine ⟨fun b => (f.code b).map ([·]), fun b _ => ?_, fun code hcode => ?_, ?_⟩
  · rw [← flatMap_def, flatMap_singleton']
  · obtain ⟨b, hb, i, hi, rfl⟩ := hmem code hcode
    exact isSegment_singleton (hfew b hb i hi) (hregs b hb i hi)
  · refine pairwise_iff_forall_sublist.2 fun {code code'} hsub v hv hocc => ?_
    obtain ⟨b, hb, i, hi, rfl⟩ := hmem code (hsub.subset mem_cons_self)
    obtain ⟨j, hj, hmem⟩ := hocc
    obtain rfl := mem_singleton.1 hj
    exact absurd hv (Nat.not_le.2 (hregs b hb j hi v hmem))

end MxStar.Alloc
