import Mathlib.Data.List.Perm.Subperm
import MxStar.Proofs.Conflicts

/-!
Colourings that leave no register out.

A register that is put back and finds no colour has all colours around it. Then a register is marked to be
spilled, unless the register is `Stranded` (`color_cases`). Where a register that may not be spilled finds a
colour as long as all its neighbours may not be spilled either (`Roomy`), a colouring that succeeds gives
every register a colour (`color_total`).
-/
namespace MxStar.Alloc

open IR List

variable {c : Coloring} {v : VReg}

/-! ## Taking registers out -/

theorem exists_heaviest (ds : Array Nat) {vs : List VReg} (h : vs ≠ []) :
    ∃ v ∈ vs, heaviest ds vs = some v := by
  -- The best one so far is one of those seen.
  have hbest : ∀ (l : List VReg) (b : VReg), ∃ v ∈ b :: l, heaviest ds (b :: l) = some v := by
    intro l
    induction l with
    | nil => exact fun b => ⟨b, mem_cons_self, rfl⟩
    | cons w l ih =>
      intro b
      rw [heaviest, foldl_cons, foldl_cons]
      dsimp only
      split
      · obtain ⟨v, hv, heq⟩ := ih w
        exact ⟨v, mem_cons_of_mem _ hv, heq⟩
      · obtain ⟨v, hv, heq⟩ := ih b
        refine ⟨v, ?_, heq⟩
        rcases mem_cons.1 hv with rfl | hv
        · exact mem_cons_self
        · exact mem_cons_of_mem _ (mem_cons_of_mem _ hv)
  cases vs with
  | nil => exact absurd rfl h
  | cons b l => exact hbest l b

theorem exists_nextNode (k : Nat) (ds : Array Nat) {remaining : List VReg}
    (unspillable : SortedSet VReg) (h : remaining ≠ []) :
    ∃ v ∈ remaining, nextNode k ds remaining unspillable = some v := by
  rw [nextNode, spillCandidate]
  cases hfind : remaining.find? fun v => degree ds v < k with
  | some v => exact ⟨v, mem_of_find?_eq_some hfind, rfl⟩
  | none =>
    by_cases hspill : (remaining.filter fun v => !unspillable.contains v) = []
    · obtain ⟨v, hv, heq⟩ := exists_heaviest ds h
      refine ⟨v, hv, ?_⟩
      rw [hspill, heq]
      rfl
    · obtain ⟨v, hv, heq⟩ := exists_heaviest ds hspill
      refine ⟨v, mem_of_mem_filter hv, ?_⟩
      rw [heq]
      rfl

theorem perm_simplify {g : Interference} {k : Nat} {unspillable : SortedSet VReg} :
    ∀ {fuel : Nat} {ds : Array Nat} {remaining stack : List VReg}, remaining.length ≤ fuel →
      (simplify g k unspillable fuel ds remaining stack).Perm (remaining ++ stack)
  | 0, ds, remaining, stack, hfuel => by
    obtain rfl := eq_nil_of_length_eq_zero (Nat.le_zero.1 hfuel)
    exact .refl _
  | fuel + 1, ds, remaining, stack, hfuel => by
    rw [simplify]
    by_cases hnil : remaining = []
    · subst hnil
      exact .refl _
    · obtain ⟨w, hw, heq⟩ := exists_nextNode k ds unspillable hnil
      rw [heq]
      dsimp only
      have hlen : (remaining.erase w).length ≤ fuel := by
        rw [length_erase_of_mem hw]
        omega
      exact (perm_simplify hlen).trans
        (perm_middle.trans ((perm_cons_erase hw).symm.append_right stack))

/-- The registers of a graph, from the one taken out last to the one taken out first. -/
def takenOut (g : Interference) (palette : List PhysReg) (unspillable : SortedSet VReg) : List VReg :=
  simplify g palette.length unspillable g.nodes.length (degrees g palette) g.nodes []

theorem perm_takenOut (g : Interference) (palette : List PhysReg) (unspillable : SortedSet VReg) :
    (takenOut g palette unspillable).Perm g.nodes :=
  (perm_simplify (Nat.le_refl g.nodes.length)).trans (.of_eq (append_nil _))

theorem nodup_nodes (g : Interference) : g.nodes.Nodup := nodup_range.filter _

/-! ## Putting registers back -/

/-- A register that may not be spilled finds a colour as long as no neighbour of it may be spilled. -/
def Roomy (g : Interference) (palette : List PhysReg) (unspillable : SortedSet VReg) : Prop :=
  ∀ v ∈ g.nodes, v ∈ unspillable → (∀ n ∈ g.neighbours v, n ∈ unspillable) →
    ∀ c, freeColors g palette c v ≠ []

section Select

variable {g : Interference} {palette : List PhysReg} {unspillable : SortedSet VReg}

/-- A register that is put back finds no colour, and then it is marked to be spilled, or its neighbours
that may be spilled are; or it is given a colour. -/
theorem select_cons (v : VReg) (stack : List VReg) (c : Coloring) (spills : SortedSet VReg) :
    (freeColors g palette c v = [] ∧ ∃ spills',
      select g palette unspillable (v :: stack) c spills = select g palette unspillable stack c spills' ∧
      ∀ w, w ∈ spills' ↔
        w ∈ spills ∨ w ∉ unspillable ∧ (w = v ∨ v ∈ unspillable ∧ w ∈ g.neighbours v)) ∨
    ∃ q, select g palette unspillable (v :: stack) c spills =
      select g palette unspillable stack (c.set v q) spills := by
  rw [select]
  cases freeColors g palette c v with
  | cons first rest => exact .inr ⟨_, rfl⟩
  | nil =>
    refine .inl ⟨rfl, _, rfl, fun w => ?_⟩
    rw [SortedSet.mem_insertMany, or_comm]
    refine or_congr_right ?_
    by_cases hv : v ∈ unspillable
    · rw [if_pos (SortedSet.contains_iff.2 hv), List.mem_filter, Bool.not_eq_true',
        ← Bool.not_eq_true, SortedSet.contains_iff]
      constructor
      · rintro ⟨hw, hspill⟩
        exact ⟨hspill, .inr ⟨hv, hw⟩⟩
      · rintro ⟨hspill, rfl | ⟨-, hw⟩⟩
        · exact absurd hv hspill
        · exact ⟨hw, hspill⟩
    · rw [if_neg (mt SortedSet.contains_iff.1 hv), mem_singleton]
      constructor
      · rintro rfl
        exact ⟨hv, .inl rfl⟩
      · rintro ⟨-, rfl | ⟨hv', -⟩⟩
        · rfl
        · exact absurd hv' hv

/-- What is marked in the end was marked before, or is a register put back or a neighbour of one, and
may be spilled. -/
theorem of_mem_select {w : VReg} : ∀ {stack : List VReg} {c : Coloring} {spills : SortedSet VReg},
    w ∈ (select g palette unspillable stack c spills).2 →
      w ∈ spills ∨ w ∉ unspillable ∧ ∃ v ∈ stack, w = v ∨ w ∈ g.neighbours v
  | [], _, _, h => .inl h
  | v :: stack, c, spills, h => by
    have hmono : (∃ u ∈ stack, w = u ∨ w ∈ g.neighbours u) →
        ∃ u ∈ v :: stack, w = u ∨ w ∈ g.neighbours u :=
      fun ⟨u, hu, huw⟩ => ⟨u, mem_cons_of_mem _ hu, huw⟩
    obtain ⟨-, spills', heq, hspills⟩ | ⟨q, heq⟩ := select_cons v stack c spills
    · rw [heq] at h
      obtain hw | ⟨hw, hu⟩ := of_mem_select h
      · obtain hw | ⟨hw, hv⟩ := (hspills w).1 hw
        · exact .inl hw
        · exact .inr ⟨hw, v, mem_cons_self, hv.imp_right And.right⟩
      · exact .inr ⟨hw, hmono hu⟩
    · rw [heq] at h
      exact (of_mem_select h).imp_right (And.imp_right hmono)

/-- A register that is not put back keeps its colour, or the lack of one. -/
theorem get?_select {v : VReg} : ∀ {stack : List VReg} {c : Coloring} {spills : SortedSet VReg},
    v ∉ stack → (select g palette unspillable stack c spills).1.get? v = c.get? v
  | [], _, _, _ => rfl
  | u :: stack, c, spills, hv => by
    rw [mem_cons, not_or] at hv
    obtain ⟨huv, hv⟩ := hv
    obtain ⟨-, spills', heq, -⟩ | ⟨q, heq⟩ := select_cons u stack c spills
    · rw [heq]
      exact get?_select hv
    · rw [heq, get?_select hv, Coloring.get?, Coloring.set,
        Array.getElem?_setIfInBounds_ne (Ne.symm huv)]
      rfl

/-- Registers are about to be put back: each of them once, and none has a colour. -/
structure Pending (stack : List VReg) (c : Coloring) : Prop where
  nodup : stack.Nodup
  sized : ∀ v ∈ stack, v < c.colors.size
  bare : ∀ v ∈ stack, c.get? v = none

theorem Pending.rest {u : VReg} {stack : List VReg} (h : Pending (u :: stack) c) : Pending stack c where
  nodup := h.nodup.of_cons
  sized v hv := h.sized v (mem_cons_of_mem _ hv)
  bare v hv := h.bare v (mem_cons_of_mem _ hv)

theorem Pending.set {u : VReg} {stack : List VReg} (h : Pending (u :: stack) c) (q : PhysReg) :
    Pending stack (c.set u q) where
  nodup := h.nodup.of_cons
  sized v hv := by
    rw [Coloring.set, Array.size_setIfInBounds]
    exact h.rest.sized v hv
  bare v hv := by
    rw [Coloring.get?_set (h.sized u mem_cons_self), if_neg, h.rest.bare v hv]
    rintro rfl
    exact (nodup_cons.1 h.nodup).1 hv

/-- A register that was put back and has no colour in the end has all colours of the palette around
it. -/
theorem freeColors_select {v : VReg} :
    ∀ {stack : List VReg} {c : Coloring} {spills : SortedSet VReg}, Pending stack c → v ∈ stack →
      (select g palette unspillable stack c spills).1.get? v = none →
      freeColors g palette (select g palette unspillable stack c spills).1 v = []
  | u :: stack, c, spills, h, hv, hnone => by
    obtain ⟨hfree, spills', heq, -⟩ | ⟨q, heq⟩ := select_cons u stack c spills
    · rw [heq] at hnone ⊢
      obtain rfl | hv := mem_cons.1 hv
      · -- The colours around it are there already, and they stay.
        refine eq_nil_iff_forall_not_mem.2 fun p hp => ?_
        obtain ⟨hp, hfinal⟩ := mem_freeColors.1 hp
        refine eq_nil_iff_forall_not_mem.1 hfree p (mem_freeColors.2 ⟨hp, fun r hedge hr => ?_⟩)
        refine hfinal r hedge ?_
        cases r with
        | phys q => exact hr
        | virt n =>
          have hn : n ∉ stack := fun hn => by
            rw [Coloring.ofReg, h.rest.bare n hn] at hr
            cases hr
          exact (get?_select hn).trans hr
      · exact freeColors_select h.rest hv hnone
    · rw [heq] at hnone ⊢
      obtain rfl | hv := mem_cons.1 hv
      · rw [get?_select (nodup_cons.1 h.nodup).1, Coloring.get?_set (h.sized v mem_cons_self),
          if_pos rfl] at hnone
        cases hnone
      · exact freeColors_select (h.set q) hv hnone

/-- Spilling does not help a register that finds no colour: neither it nor a neighbour of it may be
spilled. -/
def Stranded (g : Interference) (unspillable : SortedSet VReg) (v : VReg) : Prop :=
  v ∈ unspillable ∧ ∀ n ∈ g.neighbours v, n ∈ unspillable

/-- **Registers are marked just if spilling helps** some register that found no colour. -/
theorem exists_mem_select_iff :
    ∀ {stack : List VReg} {c : Coloring} {spills : SortedSet VReg}, Pending stack c →
      ((∃ w, w ∈ (select g palette unspillable stack c spills).2) ↔ (∃ w, w ∈ spills) ∨
        ∃ v ∈ stack, (select g palette unspillable stack c spills).1.get? v = none ∧
          ¬Stranded g unspillable v)
  | [], _, _, _ => by simp [select]
  | u :: stack, c, spills, h => by
    have hu : u ∉ stack := (nodup_cons.1 h.nodup).1
    obtain ⟨-, spills', heq, hspills⟩ | ⟨q, heq⟩ := select_cons u stack c spills
    · rw [heq, exists_mem_select_iff h.rest]
      have hmarked : (∃ w, w ∈ spills') ↔ (∃ w, w ∈ spills) ∨ ¬Stranded g unspillable u := by
        simp only [hspills, Stranded]
        grind
      have hnone : (select g palette unspillable stack c spills').1.get? u = none :=
        (get?_select hu).trans (h.bare u mem_cons_self)
      rw [hmarked, or_assoc]
      simp only [mem_cons, exists_eq_or_imp, hnone, true_and]
    · have hsome : (select g palette unspillable stack (c.set u q) spills).1.get? u = some q := by
        rw [get?_select hu, Coloring.get?_set (h.sized u mem_cons_self), if_pos rfl]
      rw [heq, exists_mem_select_iff (h.set q)]
      simp only [mem_cons, exists_eq_or_imp, hsome, reduceCtorEq, false_and, false_or]

end Select

/-! ## Colouring -/

section Color

variable {f : Func} {live : Liveness} {palette : List PhysReg} {unspillable : SortedSet VReg}

theorem Coloring.get?_empty (n : Nat) (v : VReg) : (Coloring.empty n).get? v = none := by
  rw [Coloring.get?, Coloring.empty, Array.getElem?_replicate]
  split <;> rfl

theorem pending_takenOut (g : Interference) (palette : List PhysReg) (unspillable : SortedSet VReg) :
    Pending (takenOut g palette unspillable) (.empty g.adjacent.size) where
  nodup := (perm_takenOut g palette unspillable).nodup_iff.2 (nodup_nodes g)
  sized v hv := by
    rw [Coloring.empty, Array.size_replicate]
    exact mem_range.1 (mem_of_mem_filter ((perm_takenOut g palette unspillable).mem_iff.1 hv))
  bare v _ := Coloring.get?_empty _ v

/-- The colours, and the registers to spill, once all registers are put back. -/
def putBack (g : Interference) (palette : List PhysReg) (unspillable : SortedSet VReg) :
    Coloring × SortedSet VReg :=
  select g palette unspillable (takenOut g palette unspillable) (.empty g.adjacent.size) ∅

theorem color_eq (g : Interference) (palette : List PhysReg) (unspillable : SortedSet VReg) :
    color g palette unspillable =
      if (putBack g palette unspillable).2.isEmpty then .ok (putBack g palette unspillable).1
      else .error (putBack g palette unspillable).2 := rfl

/-- **How colouring ends.** Putting the registers back gives colours to some of them; those without a
colour have all colours of the palette around them. Colouring succeeds with these colours just if spilling
would help none of the registers left out. -/
theorem color_cases (g : Interference) (palette : List PhysReg) (unspillable : SortedSet VReg) :
    let c := (putBack g palette unspillable).1
    (∀ v ∈ g.nodes, c.get? v = none → freeColors g palette c v = []) ∧
      (∀ v, v ∉ g.nodes → c.get? v = none) ∧
      ((color g palette unspillable = .ok c ∧
          ∀ v ∈ g.nodes, c.get? v = none → Stranded g unspillable v) ∨
        ∃ spills, color g palette unspillable = .error spills ∧
          ∃ v ∈ g.nodes, c.get? v = none ∧ ¬Stranded g unspillable v) := by
  have hmem : ∀ v, v ∈ takenOut g palette unspillable ↔ v ∈ g.nodes := fun v =>
    (perm_takenOut g palette unspillable).mem_iff
  have hpending := pending_takenOut g palette unspillable
  have hmarked : (∃ w, w ∈ (putBack g palette unspillable).2) ↔ ∃ v ∈ g.nodes,
      (putBack g palette unspillable).1.get? v = none ∧ ¬Stranded g unspillable v := by
    rw [putBack, exists_mem_select_iff hpending]
    simp only [hmem, SortedSet.not_mem_empty, exists_false, false_or]
  refine ⟨fun v hv => freeColors_select hpending ((hmem v).2 hv), fun v hv => ?_, ?_⟩
  · rw [putBack, get?_select (mt (hmem v).1 hv), Coloring.get?_empty]
  · rw [color_eq]
    split
    · next hempty =>
      refine .inl ⟨rfl, fun v hv hnone => ?_⟩
      by_contra hhelp
      obtain ⟨w, hw⟩ := hmarked.2 ⟨v, hv, hnone, hhelp⟩
      exact SortedSet.isEmpty_iff.1 hempty w hw
    · next hempty =>
      refine .inr ⟨_, rfl, hmarked.1 ?_⟩
      by_contra hno
      exact hempty (SortedSet.isEmpty_iff.2 fun w hw => hno ⟨w, hw⟩)

/-- A register that a colouring leaves out has all colours around it and is stranded. -/
theorem stranded_of_ok (h : color (.build f live) palette unspillable = .ok c)
    (hv : v ∈ (Interference.build f live).nodes) (hnone : c.get? v = none) :
    freeColors (.build f live) palette c v = [] ∧ Stranded (.build f live) unspillable v := by
  obtain ⟨hfree, -, ⟨hok, hstranded⟩ | ⟨spills, herror, -⟩⟩ :=
    color_cases (.build f live) palette unspillable
  · obtain rfl := Except.ok.inj (hok.symm.trans h)
    exact ⟨hfree v hv hnone, hstranded v hv hnone⟩
  · rw [h] at herror
    cases herror

theorem mem_nodes_of_ok (h : color (.build f live) palette unspillable = .ok c) {q : PhysReg}
    (hq : c.get? v = some q) : v ∈ (Interference.build f live).nodes := by
  obtain ⟨-, houtside, ⟨hok, -⟩ | ⟨spills, herror, -⟩⟩ :=
    color_cases (.build f live) palette unspillable
  · obtain rfl := Except.ok.inj (hok.symm.trans h)
    by_contra hv
    rw [houtside v hv] at hq
    cases hq
  · rw [h] at herror
    cases herror

/-- **A colouring that succeeds gives every register a colour**, if there is room for those that may not be
spilled. -/
theorem color_total (hroom : Roomy (.build f live) palette unspillable)
    (h : color (.build f live) palette unspillable = .ok c)
    (hv : v ∈ (Interference.build f live).nodes) : ∃ q, c.get? v = some q := by
  by_contra hno
  have hnone : c.get? v = none := Option.eq_none_iff_forall_ne_some.2 fun q hq => hno ⟨q, hq⟩
  obtain ⟨hfree, hunspillable, hneighbours⟩ := stranded_of_ok h hv hnone
  exact hroom v hv hunspillable hneighbours c hfree

/-- **A colouring that fails names registers that may be spilled**, each of which occurs or interferes
with one that occurs. -/
theorem color_spills {spills : SortedSet VReg}
    (h : color (.build f live) palette unspillable = .error spills) :
    (∃ v, v ∈ spills) ∧ ∀ v ∈ spills, v ∉ unspillable ∧
      ∃ u ∈ (Interference.build f live).nodes, v = u ∨ v ∈ (Interference.build f live).neighbours u := by
  rw [color_eq] at h
  split at h
  · cases h
  · next hempty =>
    cases h
    constructor
    · by_contra hno
      exact hempty (SortedSet.isEmpty_iff.2 fun v hv => hno ⟨v, hv⟩)
    · intro v hv
      obtain hv | ⟨hv, u, hu, huv⟩ := of_mem_select hv
      · exact absurd hv (SortedSet.not_mem_empty v)
      · exact ⟨hv, u, (perm_takenOut (.build f live) palette unspillable).mem_iff.1 hu, huv⟩

/-- A register with few neighbours finds a colour among the registers that calls preserve. -/
theorem freeColors_ne_nil {g : Interference} (hbanned : ∀ q ∈ g.banned v, q ∈ PhysReg.callerSaved)
    {l : List VReg} (hl : ∀ n ∈ g.neighbours v, n ∈ l)
    (hlen : l.length < PhysReg.calleeSaved.length) (c : Coloring) :
    freeColors g PhysReg.allocatable c v ≠ [] := by
  have hpreserved : (∀ q ∈ PhysReg.calleeSaved, q ∈ PhysReg.allocatable) ∧
      ∀ q ∈ PhysReg.calleeSaved, q ∉ PhysReg.callerSaved := by decide
  intro hnil
  -- Otherwise all of them are colours of neighbours, and there are too few neighbours.
  have htaken : ∀ q ∈ PhysReg.calleeSaved, q ∈ l.filterMap c.get? := by
    intro q hq
    by_contra hfree
    have hmem : q ∈ freeColors g PhysReg.allocatable c v := by
      refine mem_freeColors.2 ⟨hpreserved.1 q hq, fun r hedge hcolor => ?_⟩
      cases r with
      | virt n => exact hfree (mem_filterMap.2 ⟨n, hl n hedge, hcolor⟩)
      | phys p =>
        cases Option.some.inj hcolor
        exact hpreserved.2 q hq (hbanned q hedge)
    rw [hnil] at hmem
    cases hmem
  have hle : PhysReg.calleeSaved.length ≤ (l.filterMap c.get?).length :=
    (subperm_of_subset (by decide) htaken).length_le
  have hle' := length_filterMap_le c.get? l
  omega

end Color

end MxStar.Alloc
