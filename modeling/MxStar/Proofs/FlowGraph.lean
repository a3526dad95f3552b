import Mathlib.Data.List.Perm.Subperm
import Mathlib.Logic.Relation
import MxStar.IR.Flow
import MxStar.Proofs.Functions
import MxStar.Proofs.Results

/-!
The flow graph of a function whose blocks are all ended.

Where every block of the layout ends with its only transfer of control, and jumps stay in the layout
(`Func.Shaped`), computing the flow graph succeeds and changes no code (`computeFlow_spec`). Where it is
computed and the layout has every block (`Func.Complete`), its edges are those of the code
(`flows_of_computeFlow`).
-/
namespace MxStar.IR

open List

variable {f : Func} {reach : List BlockId} {b : BlockId}

/-! ## The end of a block -/

theorem EndsOnce.getLast? {code : List Instr} (h : EndsOnce code) :
    ∃ i, code.getLast? = some i ∧ i.isTerminator = true := by
  obtain ⟨⟨i, hi, hterm⟩, _⟩ := h
  exact ⟨i, hi, hterm⟩

theorem EndsOnce.isTerminated {b : Block} (h : EndsOnce b.instrs) : b.isTerminated = true := by
  obtain ⟨i, hi, hterm⟩ := h.getLast?
  simp [Block.isTerminated, Block.terminator?, hi, hterm]

/-- The successors of a block are those of the instruction that ends it. -/
theorem EndsOnce.targets {b : Block} {init : List Instr} {last : Instr}
    (hcode : b.instrs = init ++ [last]) (hterm : last.isTerminator = true) :
    b.targets = last.successors := by
  simp [Block.targets, Block.terminator?, hcode, Option.filter, hterm]

theorem EndsOnce.targets_congr {b b' : Block} (h : EndsOnce b.instrs) (h' : EndsOnce b'.instrs)
    (hsucc : b'.instrs.getLast?.map Instr.successors = b.instrs.getLast?.map Instr.successors) :
    b'.targets = b.targets := by
  obtain ⟨init, last, hcode, hterm, _⟩ := h.split
  obtain ⟨init', last', hcode', hterm', _⟩ := h'.split
  rw [hcode, hcode', getLast?_concat, getLast?_concat] at hsucc
  rw [EndsOnce.targets hcode hterm, EndsOnce.targets hcode' hterm']
  exact Option.some.inj hsucc

theorem EndsOnce.of_suffix {code : List Instr} (h : EndsOnce code) {i : Instr} {post : List Instr}
    (hs : i :: post <:+ code) : (i.isTerminator = true → post = []) ∧
      (i.isTerminator = false → EndsOnce post) := by
  obtain ⟨pre, rfl⟩ := hs
  cases post with
  | nil =>
    obtain ⟨j, hj, hterm⟩ := h.getLast?
    simp only [getLast?_append_cons, getLast?_singleton, Option.some.injEq] at hj
    subst hj
    exact ⟨fun _ => rfl, fun hi => by simp [hi] at hterm⟩
  | cons j post =>
    have hi : i.isTerminator = false := h.2 i (by simp [dropLast_append_of_ne_nil])
    refine ⟨fun hi' => by simp [hi] at hi', fun _ => ⟨?_, fun k hk => h.2 k ?_⟩⟩
    · obtain ⟨k, hk, hterm⟩ := h.getLast?
      exact ⟨k, by simpa using hk, hterm⟩
    · rw [dropLast_append_of_ne_nil (by simp), dropLast_cons_of_ne_nil (by simp)]
      simp [hk]

theorem mem_successors_branch (cond : CmpOp) (lhs rhs : Operand) (t e : BlockId) (b : Bool) :
    (if b then t else e) ∈ (Instr.branch cond lhs rhs t e).successors := by
  simp only [Instr.successors]
  by_cases hte : t = e
  · simp [hte]
  · cases b <;> simp [hte]

namespace Func

/-- Every block of the layout ends with its only transfer of control, and jumps stay in the layout.
-/
structure Shaped (f : Func) : Prop where
  nodup : f.layout.Nodup
  entry : f.entry ∈ f.layout
  blocks : ∀ b ∈ f.layout, b < f.blocks.size
  ends : ∀ b ∈ f.layout, EndsOnce (f.code b)
  targets : ∀ b ∈ f.layout, ∀ t ∈ (f.block b).targets, t ∈ f.layout

theorem Shaped.successor (hf : f.Shaped) (hb : b ∈ f.layout) {i : Instr} {rest : List Instr}
    (hs : i :: rest <:+ f.code b) (hterm : i.isTerminator = true) {t : BlockId}
    (ht : t ∈ i.successors) : rest = [] ∧ t ∈ (f.block b).targets ∧ t ∈ f.layout := by
  obtain rfl : rest = [] := ((hf.ends b hb).of_suffix hs).1 hterm
  obtain ⟨init, hinit⟩ := hs
  have htargets : t ∈ (f.block b).targets := by rwa [EndsOnce.targets hinit.symm hterm]
  exact ⟨rfl, htargets, hf.targets b hb t htargets⟩

theorem WellFormed.shaped {p : Program} (h : f.WellFormed p) : f.Shaped where
  nodup := h.nodup
  entry := h.entry
  blocks := h.blocks
  ends := h.ends
  targets := by
    intro b hb t ht
    obtain ⟨init, last, hcode, hterm, _⟩ := (h.ends b hb).split
    rw [EndsOnce.targets hcode hterm] at ht
    exact (h.instrs b hb last (by simp [hcode])).targets t ht

/-! ## Closing blocks and searching -/

theorem closeBlocks_eq (f : Func) (l : List BlockId) (h : ∀ b ∈ l, (f.block b).isTerminated = true) :
    f.closeBlocks l = .ok f := by
  induction l with
  | nil => rfl
  | cons b l ih =>
    unfold closeBlocks
    rw [if_pos (h b mem_cons_self)]
    exact ih fun c hc => h c (mem_cons_of_mem _ hc)

def Reachable (f : Func) : BlockId → Prop :=
  Relation.ReflTransGen (fun b t => t ∈ (f.block b).targets) f.entry

/-- What holds of a search through the flow graph all along. A block that was found and is no longer
pending has all its successors among those found. -/
structure Search.Sound (f : Func) (s : Search) : Prop where
  entry : f.entry ∈ s.found
  nodup : s.found.Nodup
  layout : ∀ b ∈ s.found, b ∈ f.layout
  reached : ∀ b ∈ s.found, f.Reachable b
  pending : ∀ b ∈ s.pending, b ∈ s.found
  closed : ∀ b ∈ s.found, b ∈ s.pending ∨ ∀ t ∈ (f.block b).targets, t ∈ s.found

/-- Noting the successors of a block finds them all, and each new one is pending. -/
theorem foldlM_visitTarget (b : BlockId) (l : List BlockId) (hl : ∀ t ∈ l, t < f.blocks.size)
    (s : Search) (hnd : s.found.Nodup) :
    ∃ more, l.foldlM (f.visitTarget b) s = .ok ⟨more ++ s.pending, more ++ s.found⟩ ∧
      (more ++ s.found).Nodup ∧ (∀ t ∈ more, t ∈ l) ∧ ∀ t ∈ l, t ∈ more ++ s.found := by
  induction l generalizing s with
  | nil => exact ⟨[], rfl, hnd, by simp, by simp⟩
  | cons t l ih =>
    have ht : ¬f.blocks.size ≤ t := Nat.not_le.2 (hl t mem_cons_self)
    have hl' : ∀ u ∈ l, u < f.blocks.size := fun u hu => hl u (mem_cons_of_mem _ hu)
    by_cases hfound : t ∈ s.found
    · obtain ⟨more, heq, hnd', hsub, hall⟩ := ih hl' s hnd
      refine ⟨more, ?_, hnd', fun u hu => mem_cons_of_mem _ (hsub u hu), ?_⟩
      · simp [foldlM_cons, visitTarget, ht, hfound, heq]
      · intro u hu
        rcases mem_cons.1 hu with rfl | hu
        · exact mem_append_right _ hfound
        · exact hall u hu
    · obtain ⟨more, heq, hnd', hsub, hall⟩ := ih hl' ⟨t :: s.pending, t :: s.found⟩
        (nodup_cons.2 ⟨hfound, hnd⟩)
      refine ⟨more ++ [t], ?_, by simpa using hnd', ?_, ?_⟩
      · simp [foldlM_cons, visitTarget, ht, hfound, heq]
      · intro u hu
        rcases mem_append.1 hu with hu | hu
        · exact mem_cons_of_mem _ (hsub u hu)
        · simp_all
      · intro u hu
        rcases mem_cons.1 hu with rfl | hu
        · simp
        · simpa using hall u hu

/-- The blocks that a search has to visit yet, and those that it may still find. -/
def Search.left (f : Func) (s : Search) : Nat :=
  s.pending.length + (f.layout.length - s.found.length)

theorem Search.Sound.visit {pending found : List BlockId}
    (hs : Search.Sound f ⟨b :: pending, found⟩) (hlt : ∀ t ∈ (f.block b).targets, t < f.blocks.size)
    (hmem : ∀ t ∈ (f.block b).targets, t ∈ f.layout) :
    ∃ s', (f.block b).targets.foldlM (f.visitTarget b) ⟨pending, found⟩ = .ok s' ∧ s'.Sound f ∧
      s'.left f < Search.left f ⟨b :: pending, found⟩ := by
  obtain ⟨more, heq, hnd, hsub, hall⟩ := foldlM_visitTarget b _ hlt ⟨pending, found⟩ hs.nodup
  have hlayout : ∀ c ∈ more ++ found, c ∈ f.layout := by
    intro c hc
    rcases mem_append.1 hc with hc | hc
    · exact hmem c (hsub c hc)
    · exact hs.layout c hc
  refine ⟨_, heq, ⟨mem_append_right _ hs.entry, hnd, hlayout, ?_, ?_, ?_⟩, ?_⟩
  · intro c hc
    rcases mem_append.1 hc with hc | hc
    · exact (hs.reached b (hs.pending b mem_cons_self)).tail (hsub c hc)
    · exact hs.reached c hc
  · intro c hc
    rcases mem_append.1 hc with hc | hc
    · exact mem_append_left _ hc
    · exact mem_append_right _ (hs.pending c (mem_cons_of_mem _ hc))
  · intro c hc
    rcases mem_append.1 hc with hc | hc
    · exact .inl (mem_append_left _ hc)
    · rcases hs.closed c hc with hc | hc
      · rcases mem_cons.1 hc with rfl | hc
        · exact .inr hall
        · exact .inl (mem_append_right _ hc)
      · exact .inr fun t ht => mem_append_right _ (hc t ht)
  · have hle : (more ++ found).length ≤ f.layout.length :=
      (subperm_of_subset hnd fun c hc => hlayout c hc).length_le
    simp only [Search.left, length_append, length_cons] at hle ⊢
    omega

theorem lt_of_foldlM_visitTarget {l : List BlockId} {s s' : Search}
    (h : l.foldlM (f.visitTarget b) s = .ok s') : ∀ t ∈ l, t < f.blocks.size := by
  induction l generalizing s with
  | nil => simp
  | cons t l ih =>
    rw [foldlM_cons] at h
    obtain ⟨s1, ht, h⟩ := Except.bind_eq_ok.1 h
    refine forall_mem_cons.2 ⟨?_, ih h⟩
    by_contra hlt
    rw [visitTarget, if_pos (Nat.le_of_not_lt hlt)] at ht
    cases ht

/-- A search with fuel for the blocks that are pending or not yet found ends with nothing pending,
unless it finds a block that jumps out of the table. -/
theorem explore_cases (hin : ∀ b ∈ f.layout, ∀ t ∈ (f.block b).targets, t < f.blocks.size → t ∈ f.layout)
    {fuel : Nat} {s : Search} (hs : s.Sound f) (hfuel : s.left f < fuel) :
    (∃ found, f.explore fuel s = .ok found ∧ Search.Sound f ⟨[], found⟩) ∨
      (∃ e, f.explore fuel s = .error e) ∧
        ∃ b ∈ f.layout, f.Reachable b ∧ ∃ t ∈ (f.block b).targets, f.blocks.size ≤ t := by
  induction fuel generalizing s with
  | zero => omega
  | succ fuel ih =>
    obtain ⟨pending, found⟩ := s
    cases pending with
    | nil => exact .inl ⟨found, rfl, hs⟩
    | cons b pending =>
      have hb := hs.pending b mem_cons_self
      by_cases hlt : ∀ t ∈ (f.block b).targets, t < f.blocks.size
      · obtain ⟨s', heq, hs', hleft⟩ :=
          hs.visit hlt fun t ht => hin b (hs.layout b hb) t ht (hlt t ht)
        simp only [explore, heq, Except.ok_bind]
        exact ih hs' (by omega)
      · refine .inr ⟨?_, b, hs.layout b hb, hs.reached b hb, by simpa using hlt⟩
        cases hvisit : (f.block b).targets.foldlM (f.visitTarget b) ⟨pending, found⟩ with
        | ok s' => exact absurd (lt_of_foldlM_visitTarget hvisit) hlt
        | error e => exact ⟨e, by simp only [explore, hvisit, Except.error_bind]⟩

/-- The search starts at the entry with fuel for all blocks. -/
theorem Search.sound_initial (hnodup : f.layout.Nodup) (hentry : f.entry ∈ f.layout)
    (hblocks : ∀ b ∈ f.layout, b < f.blocks.size) :
    Search.Sound f ⟨[f.entry], [f.entry]⟩ ∧
      Search.left f ⟨[f.entry], [f.entry]⟩ < f.blocks.size + 1 := by
  have hperm : f.layout.Subperm (List.range f.blocks.size) :=
    subperm_of_subset hnodup fun b hb => mem_range.2 (hblocks b hb)
  have hlen : f.layout.length ≤ f.blocks.size := by simpa using hperm.length_le
  have hpos : 0 < f.layout.length := length_pos_of_mem hentry
  refine ⟨⟨by simp, by simp, ?_, ?_, by simp, by simp⟩, ?_⟩
  · intro b hb
    rw [mem_singleton.1 hb]
    exact hentry
  · intro b hb
    rw [mem_singleton.1 hb]
    exact .refl
  · simp only [Search.left, length_singleton]
    omega

theorem reachable_spec (hf : f.Shaped) :
    ∃ reach, f.reachable = .ok reach ∧ Search.Sound f ⟨[], reach⟩ := by
  obtain ⟨hsound, hleft⟩ := Search.sound_initial hf.nodup hf.entry hf.blocks
  refine (explore_cases (fun b hb t ht _ => hf.targets b hb t ht) hsound hleft).resolve_right ?_
  rintro ⟨-, b, hb, -, t, ht, hle⟩
  exact absurd (hf.blocks t (hf.targets b hb t ht)) (Nat.not_lt.2 hle)

/-! ## The graph that is recorded -/

/-- The blocks that a search found, as the part of the flow graph to keep. -/
abbrev Reaches (f : Func) (reach : List BlockId) : Prop := Search.Sound f ⟨[], reach⟩

theorem computeFlow_spec (hf : f.Shaped) :
    ∃ reach, f.computeFlow = .ok (f.withFlow reach) ∧ Reaches f reach := by
  obtain ⟨reach, hreach, hs⟩ := reachable_spec hf
  refine ⟨reach, ?_, hs⟩
  simp [computeFlow, closeBlocks_eq f f.layout fun b hb => (hf.ends b hb).isTerminated, hreach]

theorem Reaches.closed_targets (h : Reaches f reach) (hb : b ∈ reach) :
    ∀ t ∈ (f.block b).targets, t ∈ reach :=
  (h.closed b hb).resolve_left (by simp)

theorem mem_reachableLayout (h : Reaches f reach) : b ∈ f.reachableLayout reach ↔ b ∈ reach := by
  have hkept : ∀ c, c ∈ f.layout.filter reach.contains ↔ c ∈ reach := by
    intro c
    simp only [List.mem_filter, contains_iff_mem]
    exact ⟨And.right, fun hc => ⟨h.layout c hc, hc⟩⟩
  simp only [reachableLayout]
  split
  · exact hkept b
  · rw [mem_cons, List.mem_filter, hkept]
    by_cases hb : b = f.entry
    · simp [hb, h.entry]
    · simp [hb]

theorem nodup_reachableLayout (hnodup : f.layout.Nodup) (reach : List BlockId) :
    (f.reachableLayout reach).Nodup := by
  have hkept : (f.layout.filter reach.contains).Nodup := hnodup.filter _
  simp only [reachableLayout]
  split
  · exact hkept
  · exact nodup_cons.2 ⟨by simp, hkept.filter _⟩

theorem instrs_withFlow (f : Func) (reach : List BlockId) (b : BlockId) :
    (f.withFlow reach).code b = f.code b := by
  simp only [code, block, withFlow, Array.getElem?_mapIdx]
  cases f.blocks[b]? <;> rfl

theorem targets_withFlow (f : Func) (reach : List BlockId) (b : BlockId) :
    ((f.withFlow reach).block b).targets = (f.block b).targets := by
  have h := instrs_withFlow f reach b
  simp only [code] at h
  simp only [Block.targets, Block.terminator?, h]

@[simp] theorem size_withFlow (f : Func) (reach : List BlockId) :
    (f.withFlow reach).blocks.size = f.blocks.size := by
  simp [withFlow]

theorem succs_withFlow (hb : b < f.blocks.size) (hr : b ∈ reach) :
    ((f.withFlow reach).block b).succs = (f.block b).targets := by
  simp [block, withFlow, successorTable, hb, hr]

theorem mem_preds_withFlow (hblocks : ∀ b ∈ f.layout, b < f.blocks.size) (h : Reaches f reach)
    {t : BlockId} : b ∈ ((f.withFlow reach).block t).preds ↔
      b ∈ reach ∧ t ∈ ((f.withFlow reach).block b).succs := by
  have hlt : ∀ b ∈ reach, b < f.blocks.size := fun b hb => hblocks b (h.layout b hb)
  by_cases ht : t < f.blocks.size
  · simp only [block, withFlow, Array.getElem?_mapIdx, Array.getElem?_eq_getElem ht, Option.map_some,
      Option.getD_some, List.mem_filter, contains_iff_mem, mem_reachableLayout h]
    exact and_congr_right fun hb => by simp [hlt b hb]
  · have hnone : (f.withFlow reach).blocks[t]? = none :=
      Array.getElem?_eq_none (by simpa using Nat.le_of_not_lt ht)
    rw [block, hnone]
    refine ⟨fun hb => (by cases hb), ?_⟩
    rintro ⟨hb, htb⟩
    rw [succs_withFlow (hlt b hb) hb] at htb
    exact absurd (hlt t (h.closed_targets hb t htb)) ht

theorem flows_withFlow (hnodup : f.layout.Nodup) (hblocks : ∀ b ∈ f.layout, b < f.blocks.size)
    (h : Reaches f reach) : (f.withFlow reach).Flows := by
  have hmem : ∀ b, b ∈ (f.withFlow reach).layout ↔ b ∈ reach := fun _ => mem_reachableLayout h
  have hlt : ∀ b ∈ reach, b < f.blocks.size := fun b hb => hblocks b (h.layout b hb)
  have hsuccs : ∀ b ∈ (f.withFlow reach).layout,
      ((f.withFlow reach).block b).succs = (f.block b).targets :=
    fun b hb => succs_withFlow (hlt b ((hmem b).1 hb)) ((hmem b).1 hb)
  have htargets : ∀ b ∈ (f.withFlow reach).layout, ∀ t ∈ (f.block b).targets, t ∈ reach :=
    fun b hb => h.closed_targets ((hmem b).1 hb)
  refine ⟨nodup_reachableLayout hnodup reach, ?_, ?_, ?_, ?_, ?_⟩
  · intro b hb
    rw [size_withFlow]
    exact hlt b ((hmem b).1 hb)
  · intro b hb
    rw [hsuccs b hb, targets_withFlow]
  · intro b hb t ht
    rw [hsuccs b hb] at ht
    exact (hmem t).2 (htargets b hb t ht)
  · exact fun b hb t ht => (mem_preds_withFlow hblocks h).2 ⟨(hmem b).1 hb, ht⟩
  · exact fun t b hb => (hmem b).2 ((mem_preds_withFlow hblocks h).1 hb).1

theorem shaped_withFlow (hf : f.Shaped) (h : Reaches f reach) : (f.withFlow reach).Shaped where
  nodup := nodup_reachableLayout hf.nodup reach
  entry := (mem_reachableLayout h).2 h.entry
  blocks := (flows_withFlow hf.nodup hf.blocks h).blocks
  ends := by
    intro b hb
    rw [instrs_withFlow]
    exact hf.ends b (h.layout b ((mem_reachableLayout h).1 hb))
  targets := by
    intro b hb t ht
    rw [targets_withFlow] at ht
    exact (mem_reachableLayout h).2
      (h.closed_targets ((mem_reachableLayout h).1 hb) t ht)

theorem mem_layout_withFlow (h : Reaches f reach) (hb : b ∈ (f.withFlow reach).layout) :
    b ∈ f.layout :=
  h.layout b ((mem_reachableLayout h).1 hb)

/-! ## Flow graphs of any code -/

/-- The layout has every block, each once, and the entry is one of the blocks. Nothing is said of the
code: blocks may be empty or go on after a transfer of control, and jumps may go anywhere. -/
structure Complete (f : Func) : Prop where
  nodup : f.layout.Nodup
  entry : f.entry < f.blocks.size
  mem_layout : ∀ b, b ∈ f.layout ↔ b < f.blocks.size

theorem closeBlocks_frame {f' : Func} {l : List BlockId} (h : f.closeBlocks l = .ok f') :
    f'.layout = f.layout ∧ f'.entry = f.entry ∧ f'.blocks.size = f.blocks.size := by
  induction l generalizing f with
  | nil =>
    cases h
    exact ⟨rfl, rfl, rfl⟩
  | cons b l ih =>
    rw [closeBlocks.eq_def] at h
    dsimp only at h
    split at h
    · exact ih h
    · split at h
      · cases h
      · obtain ⟨hlayout, hentry, hsize⟩ := ih h
        exact ⟨hlayout, hentry, hsize.trans (Array.size_modify ..)⟩

theorem Complete.closed {f' : Func} (hf : f.Complete) {l : List BlockId}
    (h : f.closeBlocks l = .ok f') : f'.Complete := by
  obtain ⟨hlayout, hentry, hsize⟩ := closeBlocks_frame h
  refine ⟨hlayout ▸ hf.nodup, by rw [hentry, hsize]; exact hf.entry, fun b => ?_⟩
  rw [hlayout, hsize]
  exact hf.mem_layout b

/-- The search succeeds unless a block that can be reached jumps out of the table. -/
theorem Complete.reachable_cases (hf : f.Complete) :
    (∃ reach, f.reachable = .ok reach ∧ Reaches f reach) ∨
      (∃ e, f.reachable = .error e) ∧
        ∃ b ∈ f.layout, f.Reachable b ∧ ∃ t ∈ (f.block b).targets, f.blocks.size ≤ t := by
  obtain ⟨hsound, hleft⟩ := Search.sound_initial hf.nodup ((hf.mem_layout _).2 hf.entry)
    fun b => (hf.mem_layout b).1
  exact explore_cases (fun _ _ t _ ht => (hf.mem_layout t).2 ht) hsound hleft

/-- **The edges of a flow graph that was computed are those of the code**, whatever the code is. -/
theorem flows_of_computeFlow {g : Func} (hf : f.Complete) (h : f.computeFlow = .ok g) :
    g.Flows ∧ g.entry ∈ g.layout := by
  obtain ⟨f', hclose, h⟩ := Except.bind_eq_ok.1 h
  obtain ⟨reach, hreach, h⟩ := Except.bind_eq_ok.1 h
  cases h
  have hf' := hf.closed hclose
  obtain ⟨found, hfound, hreaches⟩ | ⟨⟨e, he⟩, -⟩ := hf'.reachable_cases
  · obtain rfl : found = reach := Except.ok.inj (hfound.symm.trans hreach)
    exact ⟨flows_withFlow hf'.nodup (fun b => (hf'.mem_layout b).1) hreaches,
      (mem_reachableLayout hreaches).2 hreaches.entry⟩
  · cases he.symm.trans hreach

end Func

end MxStar.IR
