import Mathlib.Algebra.BigOperators.Ring.List
import Mathlib.Algebra.Ring.Nat
import MxStar.Alloc.Liveness
import MxStar.Proofs.Functions
import MxStar.Proofs.Sets

/-!
The live sets that the analysis finds.

Where the edges of a function are those of its code (`Func.Flows`), the search ends before its bound on
visits is used up, and finds the least solution of the equations of liveness (`analyze_least`). It keeps the
invariant `Sweep.Sound`: a block whose equation may fail is in the queue.
-/
namespace MxStar.Alloc

open IR List

variable {b c : BlockId} {live live' : Liveness} {f : Func} {r : Reg} {queue : List BlockId}

/-! ## Live sets within a block -/

/-- The registers live before a sequence of instructions, from those live after it. -/
def liveAt (out : RegSet) (code : List Instr) : RegSet := code.foldr liveBefore out

@[simp] theorem liveAt_nil (out : RegSet) : liveAt out [] = out := rfl

@[simp] theorem liveAt_cons (out : RegSet) (i : Instr) (code : List Instr) :
    liveAt out (i :: code) = liveBefore i (liveAt out code) := rfl

theorem liveAt_append (out : RegSet) (code code' : List Instr) :
    liveAt out (code ++ code') = liveAt (liveAt out code') code := by
  simp [liveAt, foldr_append]

@[simp] theorem mem_liveBefore {i : Instr} {after : RegSet} :
    r ∈ liveBefore i after ↔ (r ∈ after ∧ r ∉ defs i) ∨ r ∈ uses i := by
  simp [liveBefore]

/-- A summary gives the same registers as going through the code. -/
theorem mem_summarize_iff (code : List Instr) (out : RegSet) (r : Reg) :
    (r ∈ (summarize code).reads ∨ r ∈ out ∧ r ∉ (summarize code).writes) ↔
      r ∈ liveAt out code := by
  suffices h : ∀ s : Summary, (r ∈ (code.foldl Summary.push s).reads ∨
      r ∈ out ∧ r ∉ (code.foldl Summary.push s).writes) ↔
      r ∈ s.reads ∨ r ∈ liveAt out code ∧ r ∉ s.writes by
    simpa [summarize] using h {}
  induction code with
  | nil => intro s; rfl
  | cons i code ih =>
    intro s
    rw [foldl_cons, ih (s.push i)]
    simp only [Summary.push, SortedSet.mem_union, SortedSet.mem_diff, liveAt_cons, mem_liveBefore]
    tauto

theorem ascending_defs (i : Instr) : (defs i).Ascending := by
  unfold defs
  split <;> exact SortedSet.ascending_ofList _

theorem ascending_uses (i : Instr) : (uses i).Ascending := SortedSet.ascending_ofList _

theorem ascending_summarize (code : List Instr) :
    (summarize code).reads.Ascending ∧ (summarize code).writes.Ascending := by
  suffices h : ∀ s : Summary, s.reads.Ascending ∧ s.writes.Ascending →
      (code.foldl Summary.push s).reads.Ascending ∧ (code.foldl Summary.push s).writes.Ascending from
    h {} ⟨SortedSet.ascending_empty, SortedSet.ascending_empty⟩
  induction code with
  | nil => exact fun _ h => h
  | cons i code ih =>
    intro s hs
    exact ih _ ⟨hs.1.union ((ascending_uses i).diff _), hs.2.union (ascending_defs i)⟩

/-! ## The search -/

/-- The equation for the set at the start of a block, given sets for all blocks: the registers that
the block reads first, and those live at the start of a successor that it does not write. -/
def Demanded (f : Func) (start : BlockId → Reg → Prop) (b : BlockId) (r : Reg) : Prop :=
  r ∈ (summarize (f.code b)).reads ∨
    (∃ t ∈ (f.block b).succs, start t r) ∧ r ∉ (summarize (f.code b)).writes

/-- The set at the end of a block as the sets at the start of its successors give it. -/
def joined (f : Func) (live : Liveness) (b : BlockId) : RegSet :=
  (f.block b).succs.foldl (fun acc t => acc.union (live.atStart t)) ∅

theorem mem_joined : r ∈ joined f live b ↔ ∃ t ∈ (f.block b).succs, r ∈ live.atStart t := by
  suffices h : ∀ (l : List BlockId) (acc : RegSet),
      r ∈ l.foldl (fun acc t => acc.union (live.atStart t)) acc ↔
        r ∈ acc ∨ ∃ t ∈ l, r ∈ live.atStart t by
    simpa [joined] using h (f.block b).succs ∅
  intro l
  induction l with
  | nil => simp
  | cons c l ih =>
    intro acc
    rw [foldl_cons, ih, SortedSet.mem_union, exists_mem_cons_iff]
    tauto

theorem ascending_joined (h : ∀ b, (live.atStart b).Ascending) (b : BlockId) :
    (joined f live b).Ascending := by
  suffices h : ∀ (l : List BlockId) (acc : RegSet), acc.Ascending →
      (l.foldl (fun acc t => acc.union (live.atStart t)) acc).Ascending from
    h _ _ SortedSet.ascending_empty
  intro l
  induction l with
  | nil => exact fun _ h => h
  | cons c l ih => exact fun acc hacc => ih _ (hacc.union (h c))

/-- The set at the start of a block as its equation gives it. -/
def demand (f : Func) (live : Liveness) (b : BlockId) : RegSet :=
  (summarize (f.code b)).reads.union ((joined f live b).diff (summarize (f.code b)).writes)

theorem mem_demand : r ∈ demand f live b ↔ Demanded f (fun t r => r ∈ live.atStart t) b r := by
  simp [demand, Demanded, mem_joined]

theorem ascending_demand (h : ∀ b, (live.atStart b).Ascending) (b : BlockId) :
    (demand f live b).Ascending :=
  (ascending_summarize _).1.union ((ascending_joined h b).diff _)

/-- Sets for all blocks that satisfy the equations, or have more than they demand. -/
def Solves (f : Func) (start : BlockId → Reg → Prop) : Prop :=
  ∀ b ∈ f.layout, ∀ r, Demanded f start b r → start b r

namespace Sweep

/-- What holds of the search all along. A block whose equation may fail is in the queue, and the
sets are below what the equations demand, so that they only grow. -/
structure Sound (f : Func) (s : Sweep) : Prop where
  sizeIn : s.live.liveIn.size = f.blocks.size
  sizeOut : s.live.liveOut.size = f.blocks.size
  queue : ∀ b ∈ s.queue, b ∈ f.layout
  ascending : ∀ b, (s.live.atStart b).Ascending
  below : ∀ b, ∀ r ∈ s.live.atStart b, r ∈ demand f s.live b
  settled : ∀ b ∈ f.layout, b ∈ s.queue ∨
    s.live.atStart b = demand f s.live b ∧ s.live.atEnd b = joined f s.live b
  least : ∀ start, Solves f start → ∀ b, ∀ r ∈ s.live.atStart b, start b r

end Sweep

theorem atStart_set (hb : b < live.liveIn.size) (x : RegSet) (out : Array RegSet) (c : BlockId) :
    (Liveness.mk (live.liveIn.setIfInBounds b x) out).atStart c =
      if b = c then x else live.atStart c := by
  simp only [Liveness.atStart, Array.getElem?_setIfInBounds]
  by_cases h : b = c
  · subst h
    simp [hb]
  · simp [h]

theorem atEnd_set (hb : b < live.liveOut.size) (x : RegSet) (start : Array RegSet) (c : BlockId) :
    (Liveness.mk start (live.liveOut.setIfInBounds b x)).atEnd c =
      if b = c then x else live.atEnd c := by
  simp only [Liveness.atEnd, Array.getElem?_setIfInBounds]
  by_cases h : b = c
  · subst h
    simp [hb]
  · simp [h]

theorem joined_congr (h : ∀ t ∈ (f.block b).succs, live'.atStart t = live.atStart t) :
    joined f live' b = joined f live b := by
  unfold joined
  generalize (∅ : RegSet) = acc
  revert acc
  generalize (f.block b).succs = l at h
  induction l with
  | nil => exact fun _ => rfl
  | cons t l ih =>
    intro acc
    rw [foldl_cons, foldl_cons, h t mem_cons_self]
    exact ih (fun t ht => h t (mem_cons_of_mem _ ht)) _

theorem demand_congr (h : ∀ t ∈ (f.block b).succs, live'.atStart t = live.atStart t) :
    demand f live' b = demand f live b := by
  rw [demand, joined_congr h, demand]

theorem demand_mono (h : ∀ t, ∀ r ∈ live.atStart t, r ∈ live'.atStart t) (b : BlockId) :
    ∀ r ∈ demand f live b, r ∈ demand f live' b := by
  intro r hr
  rw [mem_demand] at hr ⊢
  refine hr.imp_right fun ⟨⟨t, ht, hrt⟩, hw⟩ => ⟨⟨t, ht, h t r hrt⟩, hw⟩

theorem mem_enqueue : c ∈ enqueue queue b ↔ c ∈ queue ∨ c = b := by
  unfold enqueue
  split
  · next h =>
    constructor
    · exact .inl
    · rintro (h | rfl)
      · exact h
      · simpa using h
  · simp

theorem mem_foldl_enqueue {l : List BlockId} : c ∈ l.foldl enqueue queue ↔ c ∈ queue ∨ c ∈ l := by
  induction l generalizing queue with
  | nil => simp
  | cons b l ih =>
    rw [foldl_cons, ih, mem_enqueue, mem_cons]
    tauto

theorem length_foldl_enqueue (l queue : List BlockId) :
    (l.foldl enqueue queue).length ≤ queue.length + l.length := by
  induction l generalizing queue with
  | nil => simp
  | cons b l ih =>
    have h : (enqueue queue b).length ≤ queue.length + 1 := by
      unfold enqueue
      split <;> simp
    calc ((b :: l).foldl enqueue queue).length
        ≤ (enqueue queue b).length + l.length := ih _
      _ ≤ queue.length + (b :: l).length := by simp only [length_cons]; omega

theorem exists_uses_of_mem_liveAt {code : List Instr} {out : RegSet} (h : r ∈ liveAt out code) :
    r ∈ out ∨ ∃ i ∈ code, r ∈ uses i := by
  induction code with
  | nil => exact .inl h
  | cons i code ih =>
    rcases mem_liveBefore.1 h with ⟨h, _⟩ | h
    · exact (ih h).imp_right fun ⟨j, hj, hr⟩ => ⟨j, mem_cons_of_mem _ hj, hr⟩
    · exact .inr ⟨i, mem_cons_self, h⟩

/-! ## The number of visits -/

def readList (f : Func) : List Reg := f.instrs.flatMap fun i => (uses i).toList

theorem solves_readList (f : Func) : Solves f fun _ r => r ∈ readList f := by
  rintro b hb r (hr | ⟨⟨t, _, hr⟩, _⟩)
  · have hr : r ∈ liveAt ∅ (f.code b) := (mem_summarize_iff _ _ _).1 (.inl hr)
    obtain hr | ⟨i, hi, hr⟩ := exists_uses_of_mem_liveAt hr
    · simp at hr
    · exact mem_flatMap.2 ⟨i, mem_flatMap.2 ⟨b, hb, hi⟩, hr⟩
  · exact hr

/-- The visits that the set at the start of a block may still cause: for every register that it may
grow by, one of each predecessor. -/
def room (f : Func) (live : Liveness) (b : BlockId) : Nat :=
  ((readList f).length - (live.atStart b).size) * (f.block b).preds.length

/-- What a search has left to do: the blocks in its queue, and those that it may still queue. -/
def Sweep.potential (f : Func) (s : Sweep) : Nat :=
  s.queue.length + ((List.range f.blocks.size).map (room f s.live)).sum

theorem sum_map_lt {l : List Nat} {g h : Nat → Nat} {b k : Nat} (hnd : l.Nodup) (hb : b ∈ l)
    (hg : ∀ c, c ≠ b → h c = g c) (hk : h b + k ≤ g b) :
    (l.map h).sum + k ≤ (l.map g).sum := by
  induction l with
  | nil => simp at hb
  | cons c l ih =>
    obtain ⟨hc, hnd⟩ := nodup_cons.1 hnd
    simp only [map_cons, sum_cons]
    rcases mem_cons.1 hb with rfl | hb
    · have : l.map h = l.map g := map_congr_left fun c hcl => hg c fun e => hc (e ▸ hcl)
      rw [this]
      omega
    · have := ih hnd hb
      rw [hg c fun e => hc (e ▸ hb)]
      omega

theorem atStart_none (n : Nat) (out : Array RegSet) (b : BlockId) :
    (Liveness.mk (Array.replicate n ∅) out).atStart b = ∅ := by
  simp only [Liveness.atStart, Array.getElem?_replicate]
  split <;> rfl

theorem potential_initial (f : Func) :
    Sweep.potential f ⟨f.layout.reverse, ⟨Array.replicate f.blocks.size ∅,
      Array.replicate f.blocks.size ∅⟩⟩ < visitBound f := by
  have hedges : (f.blocks.toList.flatMap (·.preds)).length =
      ((List.range f.blocks.size).map fun b => (f.block b).preds.length).sum := by
    rw [length_flatMap]
    congr 1
    apply ext_getElem
    · simp
    · intro i h1 h2
      simp only [length_map, Array.length_toList] at h1
      simp [Func.block, h1]
  have hroom : room f ⟨Array.replicate f.blocks.size ∅, Array.replicate f.blocks.size ∅⟩ =
      fun b => (readList f).length * (f.block b).preds.length := by
    funext b
    rw [room, atStart_none]
    rfl
  have hsum := sum_map_mul_left (List.range f.blocks.size)
    (fun b => (f.block b).preds.length) (readList f).length
  simp only [Sweep.potential, length_reverse, visitBound, hedges, hroom]
  exact Nat.lt_succ_of_le (Nat.add_le_add_left (Nat.le_of_eq hsum) _)

theorem sound_initial (f : Func) :
    Sweep.Sound f ⟨f.layout.reverse, ⟨Array.replicate f.blocks.size ∅,
      Array.replicate f.blocks.size ∅⟩⟩ := by
  refine ⟨by simp, by simp, by simp, ?_, ?_, fun b hb => .inl (by simpa using hb), ?_⟩
  · intro b
    rw [atStart_none]
    exact SortedSet.ascending_empty
  · intro b r hr
    rw [atStart_none] at hr
    exact absurd hr (SortedSet.not_mem_empty r)
  · intro start _ b r hr
    rw [atStart_none] at hr
    exact absurd hr (SortedSet.not_mem_empty r)

/-! ## The search keeps its invariant and ends -/

section Search

variable {f : Func} (hf : f.Flows)

include hf

theorem summaries_getD (hb : b ∈ f.layout) : (summaries f)[b]?.getD {} = summarize (f.code b) := by
  have hlt := hf.blocks b hb
  simp [summaries, hlt, hb, Func.code, Func.block]

/-- A visit either finds the equation of the block satisfied, or grows the set at its start and
queues its predecessors. -/
theorem visit_eq (hb : b ∈ f.layout) (s : Sweep) :
    s.visit f (summaries f) b =
      if demand f s.live b = s.live.atStart b then
        { s with live := ⟨s.live.liveIn, s.live.liveOut.setIfInBounds b (joined f s.live b)⟩ }
      else ⟨(f.block b).preds.foldl enqueue s.queue,
        ⟨s.live.liveIn.setIfInBounds b (demand f s.live b),
          s.live.liveOut.setIfInBounds b (joined f s.live b)⟩⟩ := by
  simp only [Sweep.visit, summaries_getD hf hb]
  rfl

theorem Sweep.Sound.visit (h : Sweep.Sound f ⟨b :: queue, live⟩) :
    Sweep.Sound f (Sweep.visit f (summaries f) ⟨queue, live⟩ b) := by
  have hb : b ∈ f.layout := h.queue b mem_cons_self
  have hlt := hf.blocks b hb
  have hin : b < live.liveIn.size := by rw [h.sizeIn]; exact hlt
  have hout : b < live.liveOut.size := by rw [h.sizeOut]; exact hlt
  rw [visit_eq hf hb]
  split
  · next heq =>
    have hstart : ∀ c, (Liveness.mk live.liveIn
        (live.liveOut.setIfInBounds b (joined f live b))).atStart c = live.atStart c := fun _ => rfl
    refine ⟨h.sizeIn, by simpa using h.sizeOut, ?_, h.ascending, ?_, ?_, h.least⟩
    · exact fun c hc => h.queue c (mem_cons_of_mem _ hc)
    · intro c r hr
      rw [demand_congr fun t _ => hstart t]
      exact h.below c r hr
    · intro c hc
      rw [atEnd_set hout, demand_congr fun t _ => hstart t, joined_congr fun t _ => hstart t]
      by_cases hbc : b = c
      · subst hbc
        exact .inr ⟨heq.symm, if_pos rfl⟩
      · rw [if_neg hbc]
        refine (h.settled c hc).imp_left fun hc => ?_
        exact (mem_cons.1 hc).resolve_left (Ne.symm hbc)
  · next hne =>
    let live' : Liveness := ⟨live.liveIn.setIfInBounds b (demand f live b),
      live.liveOut.setIfInBounds b (joined f live b)⟩
    have hstart : ∀ c, live'.atStart c = if b = c then demand f live b else live.atStart c :=
      atStart_set hin _ _
    have hgrow : ∀ c, ∀ r ∈ live.atStart c, r ∈ live'.atStart c := by
      intro c r hr
      rw [hstart]
      split
      · next hbc => exact hbc ▸ h.below c r hr
      · exact hr
    -- The equation of a block that does not lead to `b` is as it was.
    have hsame : ∀ c, b ∉ (f.block c).succs → ∀ t ∈ (f.block c).succs,
        live'.atStart t = live.atStart t := by
      intro c hc t ht
      rw [hstart, if_neg]
      rintro rfl
      exact hc ht
    refine ⟨by simpa using h.sizeIn, by simpa using h.sizeOut, ?_, ?_, ?_, ?_, ?_⟩
    · intro c hc
      rcases mem_foldl_enqueue.1 hc with hc | hc
      · exact h.queue c (mem_cons_of_mem _ hc)
      · exact hf.preds_mem b c hc
    · intro c
      change (live'.atStart c).Ascending
      rw [hstart]
      split
      · exact ascending_demand h.ascending b
      · exact h.ascending c
    · intro c r hr
      apply demand_mono hgrow
      change r ∈ live'.atStart c at hr
      rw [hstart] at hr
      split at hr
      · next hbc => exact hbc ▸ hr
      · exact h.below c r hr
    · intro c hc
      by_cases hbs : b ∈ (f.block c).succs
      · exact .inl (mem_foldl_enqueue.2 (.inr (hf.preds c hc b hbs)))
      · rw [atEnd_set hout, demand_congr (hsame c hbs), joined_congr (hsame c hbs)]
        change _ ∨ live'.atStart c = _ ∧ _
        rw [hstart]
        by_cases hbc : b = c
        · subst hbc
          exact .inr ⟨if_pos rfl, if_pos rfl⟩
        · rw [if_neg hbc, if_neg hbc]
          refine (h.settled c hc).imp_left fun hc => mem_foldl_enqueue.2 (.inl ?_)
          exact (mem_cons.1 hc).resolve_left (Ne.symm hbc)
    · intro start hs c r hr
      change r ∈ live'.atStart c at hr
      rw [hstart] at hr
      split at hr
      · next hbc =>
        subst hbc
        refine hs b hb r ((mem_demand.1 hr).imp_right ?_)
        exact fun ⟨⟨t, ht, hrt⟩, hw⟩ => ⟨⟨t, ht, h.least start hs t r hrt⟩, hw⟩
      · exact h.least start hs c r hr

theorem potential_visit (h : Sweep.Sound f ⟨b :: queue, live⟩) :
    (Sweep.visit f (summaries f) ⟨queue, live⟩ b).potential f <
      Sweep.potential f ⟨b :: queue, live⟩ := by
  have hb : b ∈ f.layout := h.queue b mem_cons_self
  have hlt := hf.blocks b hb
  have hin : b < live.liveIn.size := by rw [h.sizeIn]; exact hlt
  rw [visit_eq hf hb]
  split
  · have hroom : room f ⟨live.liveIn, live.liveOut.setIfInBounds b (joined f live b)⟩ =
        room f live := rfl
    simp only [Sweep.potential, length_cons, hroom]
    omega
  · next hne =>
    have hlen := length_foldl_enqueue (f.block b).preds queue
    have hasc := ascending_demand h.ascending (f := f) b
    have hsize : (live.atStart b).size < (demand f live b).size :=
      (h.ascending b).size_lt hasc (h.below b) hne
    have hbound : (demand f live b).size ≤ (readList f).length := by
      refine (subperm_of_subset hasc.nodup fun r hr => ?_).length_le
      refine solves_readList f b hb r ((mem_demand.1 hr).imp_right ?_)
      exact fun ⟨⟨t, ht, hrt⟩, hw⟩ => ⟨⟨t, ht, h.least _ (solves_readList f) t r hrt⟩, hw⟩
    let live' : Liveness := ⟨live.liveIn.setIfInBounds b (demand f live b),
      live.liveOut.setIfInBounds b (joined f live b)⟩
    have hsum := sum_map_lt (l := List.range f.blocks.size) (b := b)
      (k := (f.block b).preds.length) (g := room f live) (h := room f live')
      nodup_range (mem_range.2 hlt)
      (fun c hc => by simp only [room, live', atStart_set hin, if_neg (Ne.symm hc)])
      (by
        simp only [room, live', atStart_set hin, if_pos]
        rw [← Nat.succ_mul]
        exact Nat.mul_le_mul_right _ (by omega))
    simp only [Sweep.potential, length_cons]
    change _ + ((List.range f.blocks.size).map (room f live')).sum < _
    omega

/-- With fuel for what is left to do, the search ends with its queue empty. -/
theorem run_sound {fuel : Nat} {s : Sweep} (h : s.Sound f) (hfuel : s.potential f < fuel) :
    Sweep.Sound f ⟨[], Sweep.run f (summaries f) fuel s⟩ := by
  induction fuel generalizing s with
  | zero => omega
  | succ fuel ih =>
    obtain ⟨queue, live⟩ := s
    cases queue with
    | nil => exact h
    | cons b queue =>
      exact ih (h.visit hf) (Nat.lt_of_lt_of_le (potential_visit hf h) (Nat.le_of_lt_succ hfuel))

theorem analyze_sound : Sweep.Sound f ⟨[], analyze f⟩ :=
  run_sound hf (sound_initial f) (potential_initial f)

/-! ## What the analysis finds -/

theorem mem_atEnd_iff (hb : b ∈ f.layout) :
    r ∈ (analyze f).atEnd b ↔ ∃ t ∈ (f.block b).succs, r ∈ (analyze f).atStart t := by
  obtain h | ⟨_, h⟩ := (analyze_sound hf).settled b hb
  · simp at h
  · rw [h, mem_joined]

theorem mem_atStart_iff (hb : b ∈ f.layout) :
    r ∈ (analyze f).atStart b ↔ r ∈ liveAt ((analyze f).atEnd b) (f.code b) := by
  obtain h | ⟨h, _⟩ := (analyze_sound hf).settled b hb
  · simp at h
  · rw [h, mem_demand, Demanded, ← mem_summarize_iff, mem_atEnd_iff hf hb]

/-- Every solution of the equations has all that the analysis finds. -/
theorem analyze_least {start : BlockId → Reg → Prop} (hs : Solves f start) (b : BlockId) (r : Reg)
    (h : r ∈ (analyze f).atStart b) : start b r :=
  (analyze_sound hf).least start hs b r h

end Search

/-! ## Live registers are read -/

theorem mem_getD_setIfInBounds {xs : Array RegSet} {x : RegSet}
    (h : r ∈ (xs.setIfInBounds b x)[c]?.getD ∅) : r ∈ x ∨ r ∈ xs[c]?.getD ∅ := by
  rw [Array.getElem?_setIfInBounds] at h
  split at h
  · split at h
    · exact .inl h
    · exact absurd h (SortedSet.not_mem_empty r)
  · exact .inr h

theorem mem_readList_of_summaries (h : r ∈ ((summaries f)[b]?.getD {}).reads) : r ∈ readList f := by
  simp only [summaries, Array.getElem?_mapIdx] at h
  cases hblock : f.blocks[b]? with
  | none =>
    rw [hblock] at h
    exact absurd h (SortedSet.not_mem_empty r)
  | some block =>
    rw [hblock] at h
    simp only [Option.map_some, Option.getD_some, contains_iff_mem] at h
    split at h
    · next hb =>
      have hcode : f.code b = block.instrs := by rw [Func.code, Func.block, hblock]; rfl
      have hlive : r ∈ liveAt ∅ (f.code b) := (mem_summarize_iff _ _ _).1 (.inl (hcode ▸ h))
      obtain hr | ⟨i, hi, hr⟩ := exists_uses_of_mem_liveAt hlive
      · exact absurd hr (SortedSet.not_mem_empty r)
      · exact mem_flatMap.2 ⟨i, mem_flatMap.2 ⟨b, hb, hi⟩, hr⟩
    · exact absurd h (SortedSet.not_mem_empty r)

def Sweep.Reads (f : Func) (live : Liveness) : Prop :=
  ∀ b r, r ∈ live.atStart b ∨ r ∈ live.atEnd b → r ∈ readList f

theorem Sweep.Reads.visit {s : Sweep} (h : Sweep.Reads f s.live) (b : BlockId) :
    Sweep.Reads f (s.visit f (summaries f) b).live := by
  have hout : ∀ r ∈ joined f s.live b, r ∈ readList f := by
    intro r hr
    obtain ⟨t, -, hr⟩ := mem_joined.1 hr
    exact h t r (.inl hr)
  have hstart : ∀ r ∈ ((summaries f)[b]?.getD {}).reads.union
      ((joined f s.live b).diff ((summaries f)[b]?.getD {}).writes), r ∈ readList f := by
    intro r hr
    obtain hr | hr := SortedSet.mem_union.1 hr
    · exact mem_readList_of_summaries hr
    · exact hout r (SortedSet.mem_diff.1 hr).1
  intro c r hr
  rw [Sweep.visit] at hr
  split at hr
  · obtain hr | hr := hr
    · exact h c r (.inl hr)
    · exact (mem_getD_setIfInBounds hr).elim (hout r) fun hr => h c r (.inr hr)
  · obtain hr | hr := hr
    · exact (mem_getD_setIfInBounds hr).elim (hstart r) fun hr => h c r (.inl hr)
    · exact (mem_getD_setIfInBounds hr).elim (hout r) fun hr => h c r (.inr hr)

theorem Sweep.Reads.run {fuel : Nat} {s : Sweep} (h : Sweep.Reads f s.live) :
    Sweep.Reads f (Sweep.run f (summaries f) fuel s) := by
  induction fuel generalizing s with
  | zero => exact h
  | succ fuel ih =>
    obtain ⟨queue, live⟩ := s
    cases queue with
    | nil => exact h
    | cons b queue => exact ih (Sweep.Reads.visit (s := ⟨queue, live⟩) h b)

/-- **Live registers are read somewhere**, whatever the edges of the function are. -/
theorem mem_readList_of_live (f : Func) : Sweep.Reads f (analyze f) := by
  refine Sweep.Reads.run fun b r hr => ?_
  simp only [Liveness.atStart, Liveness.atEnd, Array.getElem?_replicate] at hr
  split at hr <;> simp at hr

/-! ## What the analysis looks at -/

theorem analyze_congr {g : Func} (hlayout : g.layout = f.layout) (hblocks : g.blocks = f.blocks) :
    analyze g = analyze f := by
  have hblock : g.block = f.block := by
    funext b
    rw [Func.block, Func.block, hblocks]
  have hcode : g.code = f.code := by
    funext b
    rw [Func.code, Func.code, hblock]
  have hrun : ∀ sums fuel s, Sweep.run g sums fuel s = Sweep.run f sums fuel s := by
    intro sums fuel
    induction fuel with
    | zero => exact fun _ => rfl
    | succ fuel ih =>
      intro s
      obtain ⟨queue, live⟩ := s
      cases queue with
      | nil => rfl
      | cons b queue =>
        simp only [Sweep.run, ih]
        rw [Sweep.visit, hblock, Sweep.visit]
  have hsums : summaries g = summaries f := by rw [summaries, summaries, hlayout, hblocks]
  have hbound : visitBound g = visitBound f := by
    rw [visitBound, visitBound, Func.instrs, Func.instrs, hlayout, hblocks, hcode]
  rw [analyze, analyze, hrun, hsums, hbound, hlayout, hblocks]

end MxStar.Alloc
