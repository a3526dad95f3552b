import MxStar.Alloc.Spill
import MxStar.Proofs.Functions
import MxStar.Proofs.Sets

/-!
The code that spilling makes.

An instruction becomes one store, one load, or itself with its spilled registers renamed, after loads of
those that it reads and before a store of the one that it writes (`SpillsTo`). Later modules use this
description alone.
-/
namespace MxStar.Alloc

open IR List

variable {slots : Slots} {v : VReg} {k : SlotId} {α : Type} {l : List VReg}

/-! ## Running an expansion -/

theorem run_emit (i : Instr) (x : Expansion) :
    (emit i).run x = ((), { x with code := x.code ++ [i] }) := rfl

theorem run_fresh (hint : String) (x : Expansion) :
    (fresh hint).run x = (x.hints.size, { x with hints := x.hints.push hint }) := rfl

theorem run_bind {β : Type} (m : Expand α) (f : α → Expand β) (x : Expansion) :
    (m >>= f).run x = (f (m.run x).1).run (m.run x).2 := rfl

theorem run_pure (a : α) (x : Expansion) : (pure a : Expand α).run x = (a, x) := rfl

theorem run_forM_cons (a : α) (l : List α) (h : α → Expand Unit) (x : Expansion) :
    ((a :: l).forM h).run x = (l.forM h).run ((h a).run x).2 := rfl

theorem run_forM_emit (l : List α) (cond : α → Bool) (h : α → Instr) (x : Expansion) :
    (l.forM fun a => if cond a = true then emit (h a) else pure ()).run x =
      ((), { x with code := x.code ++ (l.filter cond).map h }) := by
  induction l generalizing x with
  | nil =>
    simp only [filter_nil, map_nil, append_nil]
    rfl
  | cons a l ih =>
    rw [run_forM_cons, ih]
    cases ha : cond a with
    | true => simp [ha, run_emit]
    | false =>
      simp only [ha, filter_cons_of_neg, Bool.false_eq_true, not_false_eq_true, if_false]
      rfl

theorem run_mapM_fresh (hint : String) (l : List VReg) (x : Expansion) :
    (l.mapM fun v => do return (v, ← fresh hint)).run x =
      (l.zip (List.range' x.hints.size l.length),
        { x with hints := x.hints ++ Array.replicate l.length hint }) := by
  induction l generalizing x with
  | nil =>
    simp only [mapM_nil, run_pure, zip_nil_left, length_nil, Array.replicate_zero,
      Array.append_empty]
  | cons v l ih =>
    have hhints : x.hints.push hint ++ Array.replicate l.length hint =
        x.hints ++ Array.replicate (l.length + 1) hint := by
      apply Array.ext'
      simp [replicate_succ]
    simp only [mapM_cons, run_bind, run_pure, run_fresh, ih, Array.size_push, hhints,
      length_cons, range'_succ, zip_cons_cons]

/-! ## Slots -/

namespace Slots

theorem get?_eq_some (h : slots.get? v = some k) :
    ∃ j, k = slots.base + j ∧ ∃ hj : j < slots.spilled.size, slots.spilled.toList[j] = v := by
  obtain ⟨j, hj, rfl⟩ := Option.map_eq_some_iff.1 h
  obtain ⟨hlt, heq, _⟩ := findIdx?_eq_some_iff_getElem.1 hj
  exact ⟨j, rfl, hlt, by simpa using heq⟩

theorem get?_range (h : slots.get? v = some k) :
    slots.base ≤ k ∧ k < slots.base + slots.spilled.size := by
  obtain ⟨j, rfl, hj, _⟩ := get?_eq_some h
  exact ⟨Nat.le_add_right _ _, Nat.add_lt_add_left hj _⟩

theorem get?_inj {v' : VReg} (h : slots.get? v = some k) (h' : slots.get? v' = some k) :
    v = v' := by
  obtain ⟨j, rfl, hj, rfl⟩ := get?_eq_some h
  obtain ⟨j', hjj, hj', rfl⟩ := get?_eq_some h'
  obtain rfl : j = j' := Nat.add_left_cancel hjj
  rfl

theorem isSome_get?_iff : (slots.get? v).isSome ↔ v ∈ slots.spilled := by
  simp [get?, SortedSet.mem_def, isSome_idxOf?]

def address (slots : Slots) (v : VReg) : Address := .slot ((slots.get? v).getD 0)

end Slots

/-! ## The registers that stand for spilled ones -/

def renameVReg (τ : VReg → VReg) : Operand → Operand
  | .vreg v => .vreg (τ v)
  | o => o

/-- Within an instruction, spilled registers are replaced by new ones, each by its own. -/
structure Renames (slots : Slots) (lo hi : Nat) (i : Instr) (τ : VReg → VReg) : Prop where
  keep : ∀ v, slots.get? v = none → τ v = v
  fresh : ∀ v, .vreg v ∈ i.operands → (slots.get? v).isSome → lo ≤ τ v ∧ τ v < hi
  inj : ∀ v v', .vreg v ∈ i.operands → (slots.get? v).isSome → .vreg v' ∈ i.operands →
    (slots.get? v').isSome → τ v = τ v' → v = v'

/-- The store of the register that an instruction writes, if it is spilled. -/
def spillStore (slots : Slots) (τ : VReg → VReg) (i : Instr) : List Instr :=
  match i.dst? with
  | some (.vreg d) =>
    if (slots.get? d).isSome then [.store (slots.address d) (.vreg (τ d))] else []
  | _ => []

/-- The code that spilling makes of an instruction, with new registers from `lo` on and below `hi`.
-/
inductive SpillsTo (slots : Slots) (lo hi : Nat) (i : Instr) : List Instr → Prop
  | store {d : VReg} {k : SlotId} {src : Operand} (heq : i = .move (.vreg d) src)
      (hd : slots.get? d = some k) (hsrc : slots.ofOperand? src = none)
      (hstorable : storable slots src = true) : SpillsTo slots lo hi i [.store (.slot k) src]
  | load {dst : Operand} {v : VReg} {k : SlotId} (heq : i = .move dst (.vreg v))
      (hdst : slots.ofOperand? dst = none) (hv : slots.get? v = some k) :
      SpillsTo slots lo hi i [.load dst (.slot k)]
  | general {τ : VReg → VReg} {loads : List VReg} (hτ : Renames slots lo hi i τ)
      (hnd : loads.Nodup)
      (hloads : ∀ v, v ∈ loads ↔ .vreg v ∈ i.sources ∧ (slots.get? v).isSome) :
      SpillsTo slots lo hi i
        (loads.map (fun v => .load (.vreg (τ v)) (slots.address v)) ++
          (i.mapOperands (renameVReg τ) :: spillStore slots τ i))

theorem mem_spilledAmong {os : List Operand} :
    v ∈ spilledAmong slots os ↔ .vreg v ∈ os ∧ (slots.get? v).isSome := by
  simp only [spilledAmong, mem_eraseDups, mem_filterMap, Option.filter_eq_some_iff]
  constructor
  · rintro ⟨o, ho, hv, hs⟩
    cases o with
    | vreg u =>
      cases hv
      exact ⟨ho, hs⟩
    | _ => cases hv
  · rintro ⟨ho, hs⟩
    exact ⟨_, ho, rfl, hs⟩

theorem lookup_zip_range' (n : Nat) (hv : v ∈ l) :
    ∃ k, (l.zip (List.range' n l.length)).lookup v = some (n + k) ∧ l[k]? = some v := by
  induction l generalizing n with
  | nil => simp at hv
  | cons a l ih =>
    simp only [length_cons, range'_succ, zip_cons_cons, lookup_cons]
    cases hva : v == a with
    | true => exact ⟨0, rfl, by simpa using (beq_iff_eq.1 hva).symm⟩
    | false =>
      have hne : v ≠ a := by simpa using hva
      obtain ⟨k, hk, hl⟩ := ih (n + 1) ((mem_cons.1 hv).resolve_left hne)
      exact ⟨k + 1, by rw [hk, Nat.add_assoc, Nat.add_comm 1], by simpa using hl⟩

theorem lookup_zip_eq_none (hv : v ∉ l) (l' : List VReg) : (l.zip l').lookup v = none := by
  rw [lookup_eq_none_iff]
  intro x hx
  have hmem : x.1 ∈ l := of_mem_zip hx |>.1
  simp only [bne_iff_ne, ne_eq]
  rintro rfl
  exact hv hmem

/-- The registers taken for the spilled registers of an instruction stand each for its own. -/
theorem renames_temps (slots : Slots) (i : Instr) {lo hi n : Nat} (hlo : lo ≤ n)
    (hhi : n + (spilledAmong slots i.operands).length ≤ hi) :
    Renames slots lo hi i fun v => ((spilledAmong slots i.operands).zip
      (List.range' n (spilledAmong slots i.operands).length)).lookup v |>.getD v := by
  have hlt : ∀ {k : Nat} {v : VReg}, (spilledAmong slots i.operands)[k]? = some v →
      k < (spilledAmong slots i.operands).length := fun h => (List.getElem?_eq_some_iff.1 h).1
  refine ⟨fun v hv => ?_, fun v ho hs => ?_, fun v v' ho hs ho' hs' h => ?_⟩
  · rw [lookup_zip_eq_none, Option.getD_none]
    intro hmem
    have hs := (mem_spilledAmong.1 hmem).2
    simp [hv] at hs
  · obtain ⟨k, hk, hl⟩ := lookup_zip_range' n (mem_spilledAmong.2 ⟨ho, hs⟩)
    rw [hk, Option.getD_some]
    exact ⟨Nat.le_trans hlo (Nat.le_add_right _ _),
      Nat.lt_of_lt_of_le (Nat.add_lt_add_left (hlt hl) _) hhi⟩
  · obtain ⟨k, hk, hl⟩ := lookup_zip_range' n (mem_spilledAmong.2 ⟨ho, hs⟩)
    obtain ⟨k', hk', hl'⟩ := lookup_zip_range' n (mem_spilledAmong.2 ⟨ho', hs'⟩)
    rw [hk, hk', Option.getD_some, Option.getD_some] at h
    obtain rfl : k = k' := Nat.add_left_cancel h
    exact Option.some.inj (hl.symm.trans hl')

theorem filter_dst {i : Instr} (hnd : l.Nodup)
    (hl : ∀ v, v ∈ l ↔ .vreg v ∈ i.operands ∧ (slots.get? v).isSome) (τ : VReg → VReg) :
    (l.filter fun v => decide (i.dst? = some (.vreg v))).map
      (fun v => Instr.store (slots.address v) (.vreg (τ v))) = spillStore slots τ i := by
  cases hdst : i.dst? with
  | none => simp [spillStore, hdst]
  | some o =>
    cases o with
    | vreg d =>
      have hfilter : (l.filter fun v => decide (some (Operand.vreg d) = some (.vreg v))) =
          List.replicate (l.count d) d := by
        rw [← filter_eq]
        simp [eq_comm]
      have ho : .vreg d ∈ i.operands := mem_append_left _ (by simp [hdst])
      rw [hfilter, spillStore, hdst]
      by_cases hs : (slots.get? d).isSome
      · rw [count_eq_one_of_mem hnd ((hl d).2 ⟨ho, hs⟩)]
        simp [hs]
      · rw [count_eq_zero_of_not_mem fun h => hs ((hl d).1 h).2]
        simp [hs]
    | _ => simp [spillStore, hdst]

/-- An instruction whose spilled operands go through registers of their own. -/
theorem spillsTo_spillGeneral (slots : Slots) (i : Instr) (hints : Array String) {lo hi : Nat}
    (hlo : lo ≤ hints.size)
    (hhi : ((spillGeneral slots i).run { hints := hints }).2.hints.size ≤ hi) :
    SpillsTo slots lo hi i ((spillGeneral slots i).run { hints := hints }).2.code ∧
      hints.size ≤ ((spillGeneral slots i).run { hints := hints }).2.hints.size := by
  let spilled := spilledAmong slots i.operands
  let temps := spilled.zip (List.range' hints.size spilled.length)
  let inOrder := (SortedSet.ofList (temps.map (·.1))).toList
  let τ : VReg → VReg := fun v => (temps.lookup v).getD v
  have hinOrder : ∀ v, v ∈ inOrder ↔ .vreg v ∈ i.operands ∧ (slots.get? v).isSome := by
    intro v
    have hmap : temps.map (·.1) = spilled := map_fst_zip (by simp)
    have hmem : v ∈ inOrder ↔ v ∈ SortedSet.ofList (temps.map (·.1)) := Iff.rfl
    rw [hmem, hmap, SortedSet.mem_ofList]
    exact mem_spilledAmong
  have hnd : inOrder.Nodup := (SortedSet.ascending_ofList _).nodup
  have hrun : (spillGeneral slots i).run { hints := hints } =
      ((), ⟨hints ++ Array.replicate spilled.length "spill",
        (inOrder.filter fun v => i.sources.contains (.vreg v)).map
          (fun v => .load (.vreg (τ v)) (slots.address v)) ++
          (i.mapOperands (renameVReg τ) :: spillStore slots τ i)⟩) := by
    have hrename : (fun
        | .vreg v => .vreg ((temps.lookup v).getD v)
        | v => v : Operand → Operand) = renameVReg τ := by
      funext o
      cases o <;> rfl
    have hstore := run_forM_emit inOrder (fun v => decide (i.dst? = some (.vreg v)))
      (fun v => .store (slots.address v) (.vreg (τ v)))
    simp only [decide_eq_true_eq, filter_dst hnd hinOrder τ] at hstore
    simp only [spillGeneral, run_bind, run_mapM_fresh]
    change (inOrder.forM fun v => if i.dst? = some (.vreg v) then
        emit (.store (slots.address v) (.vreg (τ v))) else pure ()).run
      ((emit (i.mapOperands fun
        | .vreg v => .vreg ((temps.lookup v).getD v)
        | v => v)).run ((inOrder.forM fun v => if i.sources.contains (.vreg v) = true then
            emit (.load (.vreg (τ v)) (slots.address v)) else pure ()).run
          ⟨hints ++ Array.replicate spilled.length "spill", []⟩).2).2 = _
    rw [hstore, run_emit, hrename, run_forM_emit]
    simp
  rw [hrun] at hhi ⊢
  simp only [Array.size_append, Array.size_replicate] at hhi ⊢
  refine ⟨.general (renames_temps slots i hlo hhi) (hnd.filter _) fun v => ?_, by omega⟩
  simp only [List.mem_filter, hinOrder, contains_iff_mem]
  exact ⟨fun h => ⟨h.2, h.1.2⟩, fun h => ⟨⟨mem_append_right _ h.1, h.2⟩, h.1⟩⟩

theorem ofOperand?_eq_some {o : Operand} (h : slots.ofOperand? o = some k) :
    ∃ v, o = .vreg v ∧ slots.get? v = some k := by
  cases o with
  | vreg v => exact ⟨v, rfl, h⟩
  | _ => cases h

theorem spillInstr_of_not_move {i : Instr} (h : ∀ dst src, i ≠ .move dst src) :
    spillInstr slots i = spillGeneral slots i := by
  cases i with
  | move dst src => exact absurd rfl (h dst src)
  | _ => rfl

/-- The three things that spilling may do to an instruction. -/
theorem spillInstr_cases (slots : Slots) (i : Instr) :
    (∃ d k src, i = .move (.vreg d) src ∧ slots.get? d = some k ∧ slots.ofOperand? src = none ∧
      storable slots src = true ∧ spillInstr slots i = emit (.store (.slot k) src)) ∨
    (∃ dst v k, i = .move dst (.vreg v) ∧ slots.ofOperand? dst = none ∧ slots.get? v = some k ∧
      spillInstr slots i = emit (.load dst (.slot k))) ∨
    spillInstr slots i = spillGeneral slots i := by
  by_cases h : ∃ dst src, i = .move dst src
  · obtain ⟨dst, src, rfl⟩ := h
    simp only [spillInstr]
    split
    · next k hdst hsrc =>
      split
      · next hstorable =>
        obtain ⟨d, rfl, hd⟩ := ofOperand?_eq_some hdst
        exact .inl ⟨d, k, src, rfl, hd, hsrc, hstorable, rfl⟩
      · exact .inr (.inr rfl)
    · next k hdst hsrc =>
      obtain ⟨v, rfl, hv⟩ := ofOperand?_eq_some hsrc
      exact .inr (.inl ⟨dst, v, k, rfl, hdst, hv, rfl⟩)
    · exact .inr (.inr rfl)
  · exact .inr (.inr (spillInstr_of_not_move fun dst src hi => h ⟨dst, src, hi⟩))

/-- **What spilling makes of an instruction.** -/
theorem spillsTo_of_expands {lo hi : Nat} {i : Instr} {new : List Instr}
    (h : Expands (spillInstr slots) lo hi i new) : SpillsTo slots lo hi i new := by
  obtain ⟨hints, hlo, hhi, rfl⟩ := h
  unfold expansion at hhi ⊢
  obtain ⟨d, k, src, rfl, hd, hsrc, hstorable, heq⟩ | ⟨dst, v, k, rfl, hdst, hv, heq⟩ | heq :=
    spillInstr_cases slots i
  · rw [heq, run_emit]
    exact .store rfl hd hsrc hstorable
  · rw [heq, run_emit]
    exact .load rfl hdst hv
  · rw [heq] at hhi ⊢
    exact (spillsTo_spillGeneral slots i hints hlo hhi).1

theorem grows_spillInstr (slots : Slots) : Grows (spillInstr slots) := by
  intro i hints
  unfold expansion
  obtain ⟨d, k, src, _, _, _, _, heq⟩ | ⟨dst, v, k, _, _, _, heq⟩ | heq := spillInstr_cases slots i
  · rw [heq, run_emit]
  · rw [heq, run_emit]
  · rw [heq]
    exact (spillsTo_spillGeneral slots i hints (Nat.le_refl _) (Nat.le_refl _)).2

end MxStar.Alloc
