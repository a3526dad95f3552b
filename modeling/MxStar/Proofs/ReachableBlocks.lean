import MxStar.Proofs.FlowGraph

/-!
The flow graph has exactly the blocks that can be reached.

A block without a transfer of control falls into the next one of the layout (`Func.Follows`), and
closing the blocks turns this into jumps (`closeBlocks_spec`), so that the blocks that the search finds
are those that can be reached in this sense. Computing the graph a second time changes nothing
(`computeFlow_withFlow`).
-/
namespace MxStar.IR.Func

open List

variable {f f' : Func} {b t : BlockId} {reach : List BlockId}

def Follows (f : Func) (b t : BlockId) : Prop :=
  t ∈ (f.block b).targets ∨ (f.block b).isTerminated = false ∧ [b, t] <:+: f.layout

def CanReach (f : Func) : BlockId → Prop := Relation.ReflTransGen f.Follows f.entry

/-! ## Closing blocks -/

theorem targets_push_jump (b : Block) (t : BlockId) :
    (b.push (.jump t)).isTerminated = true ∧ (b.push (.jump t)).targets = [t] := by
  have hlast : (b.push (.jump t)).terminator? = some (.jump t) := by
    rw [Block.terminator?, Block.push, getLast?_concat]
    rfl
  rw [Block.isTerminated, Block.targets, hlast]
  exact ⟨rfl, rfl⟩

theorem targets_of_not_isTerminated {b : Block} (h : b.isTerminated = false) : b.targets = [] := by
  rw [Block.isTerminated, Option.isSome_eq_false_iff, Option.isNone_iff_eq_none] at h
  rw [Block.targets, h]
  rfl

theorem infix_cons_of_ne {c : BlockId} {l : List BlockId} (h : c ≠ b) :
    [c, t] <:+: b :: l ↔ [c, t] <:+: l := by
  rw [infix_cons_iff, or_iff_right]
  exact fun hp => h (cons_prefix_cons.1 hp).1

/-- Closing fails at the last block alone. -/
theorem closeBlocks_error_iff {l : List BlockId} (hnd : l.Nodup) :
    (∃ e, f.closeBlocks l = .error e) ↔
      ∃ b, l.getLast? = some b ∧ (f.block b).isTerminated = false := by
  induction l generalizing f with
  | nil => simp [closeBlocks]
  | cons b l ih =>
    obtain ⟨hb, hnd⟩ := nodup_cons.1 hnd
    rw [closeBlocks.eq_def]
    dsimp only
    split
    · next hterm =>
      rw [ih hnd]
      cases l with
      | nil => simp [hterm]
      | cons c l => rw [getLast?_cons_cons]
    · next hterm =>
      cases l with
      | nil => simpa using hterm
      | cons c l =>
        rw [ih hnd, getLast?_cons_cons]
        refine exists_congr fun d => and_congr_right fun hd => ?_
        rw [pushInstr, block_modifyBlock, if_neg]
        exact fun h => hb (h.1 ▸ mem_of_mem_getLast? hd)

/-- A block that is closed goes where control went, or to the block after it. -/
theorem closeBlocks_spec {l : List BlockId} (hnd : l.Nodup) (hl : ∀ b ∈ l, b < f.blocks.size)
    (h : f.closeBlocks l = .ok f') : (∀ b, b ∉ l → f'.block b = f.block b) ∧
      ∀ b ∈ l, (f'.block b).isTerminated = true ∧ ∀ t, t ∈ (f'.block b).targets ↔
        t ∈ (f.block b).targets ∨ (f.block b).isTerminated = false ∧ [b, t] <:+: l := by
  induction l generalizing f with
  | nil =>
    cases h
    exact ⟨fun _ _ => rfl, fun _ hb => by cases hb⟩
  | cons b l ih =>
    obtain ⟨hb, hnd⟩ := nodup_cons.1 hnd
    obtain ⟨hlt, hl⟩ := forall_mem_cons.1 hl
    have hne : ∀ c ∈ l, c ≠ b := fun c hc heq => hb (heq ▸ hc)
    rw [closeBlocks.eq_def] at h
    dsimp only at h
    split at h
    · next hterm =>
      obtain ⟨hout, hin⟩ := ih hnd hl h
      refine ⟨fun c hc => hout c fun hmem => hc (mem_cons_of_mem _ hmem),
        forall_mem_cons.2 ⟨?_, fun c hc => ?_⟩⟩
      · rw [hout b hb]
        exact ⟨hterm, fun t => by simp [hterm]⟩
      · simpa only [infix_cons_of_ne (hne c hc)] using hin c hc
    · next hterm =>
      have hterm : (f.block b).isTerminated = false := by simpa using hterm
      cases l with
      | nil => cases h
      | cons next l =>
        have hpush : ∀ c, c ≠ b → (f.pushInstr b (.jump next)).block c = f.block c := by
          intro c hc
          rw [pushInstr, block_modifyBlock, if_neg fun h => hc h.1.symm]
        obtain ⟨hout, hin⟩ := ih hnd (fun c hc => by
          rw [pushInstr, size_modifyBlock]
          exact hl c hc) h
        refine ⟨fun c hc => ?_, forall_mem_cons.2 ⟨?_, fun c hc => ?_⟩⟩
        · obtain ⟨hcb, hc⟩ := not_or.1 (mt mem_cons.2 hc)
          exact (hout c hc).trans (hpush c hcb)
        · have hblock : f'.block b = (f.block b).push (.jump next) := by
            rw [hout b hb, pushInstr, block_modifyBlock, if_pos ⟨rfl, hlt⟩]
          obtain ⟨hended, htargets⟩ := targets_push_jump (f.block b) next
          rw [hblock]
          refine ⟨hended, fun t => ?_⟩
          rw [htargets, targets_of_not_isTerminated hterm, mem_singleton]
          constructor
          · rintro rfl
            exact .inr ⟨hterm, List.IsPrefix.isInfix (by simp)⟩
          · rintro (ht | ⟨-, ht⟩)
            · cases ht
            · rcases infix_cons_iff.1 ht with hp | hp
              · simpa using hp
              · exact absurd (hp.subset mem_cons_self) hb
        · simpa only [infix_cons_of_ne (hne c hc), hpush c (hne c hc)] using hin c hc

/-- Closing the blocks makes all ways explicit that control may go. -/
theorem Complete.closeBlocks_targets (hf : f.Complete) (h : f.closeBlocks f.layout = .ok f') :
    (∀ b, b < f.blocks.size → (f'.block b).isTerminated = true) ∧
      (fun b t => t ∈ (f'.block b).targets) = f.Follows := by
  obtain ⟨hout, hin⟩ := closeBlocks_spec hf.nodup (fun b => (hf.mem_layout b).1) h
  refine ⟨fun b hb => (hin b ((hf.mem_layout b).2 hb)).1, ?_⟩
  funext b t
  by_cases hb : b ∈ f.layout
  · exact propext ((hin b hb).2 t)
  · rw [hout b hb, Follows]
    refine propext (or_iff_left ?_).symm
    exact fun h => hb (h.2.subset mem_cons_self)

theorem Complete.reachable_closed (hf : f.Complete) (h : f.closeBlocks f.layout = .ok f') :
    f'.Reachable = f.CanReach := by
  rw [Reachable, (hf.closeBlocks_targets h).2, (closeBlocks_frame h).2.1]
  rfl

/-! ## The graph that is recorded -/

theorem succs_of_not_mem (hb : b ∉ reach) : ((f.withFlow reach).block b).succs = [] := by
  simp only [block, withFlow, Array.getElem?_mapIdx]
  by_cases hlt : b < f.blocks.size
  · simp [hlt, successorTable, hb]
  · simp [hlt]

theorem nodup_preds_withFlow (hnodup : f.layout.Nodup) (s : BlockId) :
    ((f.withFlow reach).block s).preds.Nodup := by
  simp only [block, withFlow, Array.getElem?_mapIdx]
  by_cases hlt : s < f.blocks.size
  · simp only [hlt, Array.getElem?_eq_getElem, Option.map_some, Option.getD_some]
    exact (nodup_reachableLayout hnodup reach).filter _
  · simp [hlt]

theorem nodup_successors (i : Instr) : i.successors.Nodup := by
  cases i with
  | branch cond lhs rhs t e =>
    simp only [Instr.successors]
    split
    · simp
    · next hne => simpa using hne
  | _ => simp [Instr.successors]

theorem nodup_targets (b : Block) : b.targets.Nodup := by
  rw [Block.targets]
  cases b.terminator? with
  | none => exact nodup_nil
  | some i => exact nodup_successors i

/-- The entry comes first, and the other blocks that were found in their order. -/
theorem exists_reachableLayout (hnodup : f.layout.Nodup) (h : Reaches f reach) :
    ∃ rest, f.reachableLayout reach = f.entry :: rest ∧ rest.Sublist f.layout ∧
      ∀ b, b ∈ rest ↔ b ≠ f.entry ∧ b ∈ reach := by
  have hkept : (f.layout.filter reach.contains).Sublist f.layout := filter_sublist
  have hnd := nodup_reachableLayout hnodup reach
  have hmem : ∀ b, b ∈ f.reachableLayout reach ↔ b ∈ reach := fun b => mem_reachableLayout h
  obtain ⟨rest, hrest, hsub⟩ : ∃ rest, f.reachableLayout reach = f.entry :: rest ∧
      rest.Sublist f.layout := by
    simp only [reachableLayout]
    split
    · next hhead =>
      obtain ⟨rest, hrest⟩ := head?_eq_some_iff.1 hhead
      exact ⟨rest, hrest, (sublist_cons_self _ _).trans (hrest ▸ hkept)⟩
    · exact ⟨_, rfl, filter_sublist.trans hkept⟩
  rw [hrest] at hnd hmem
  refine ⟨rest, hrest, hsub, fun b => ⟨fun hb => ⟨?_, (hmem b).1 (mem_cons_of_mem _ hb)⟩, ?_⟩⟩
  · rintro rfl
    exact (nodup_cons.1 hnd).1 hb
  · rintro ⟨hne, hb⟩
    exact ((mem_cons.1 ((hmem b).2 hb)).resolve_left hne)

/-! ## Computing the graph again -/

theorem explore_withFlow (f : Func) (reach : List BlockId) (fuel : Nat) (s : Search) :
    (f.withFlow reach).explore fuel s = f.explore fuel s := by
  have hvisit : (f.withFlow reach).visitTarget = f.visitTarget := by
    funext b s t
    simp only [visitTarget, size_withFlow]
    rfl
  induction fuel generalizing s with
  | zero => rfl
  | succ fuel ih =>
    unfold explore
    simp only [targets_withFlow, hvisit, ih]

theorem withFlow_withFlow (hnodup : f.layout.Nodup) (h : Reaches f reach) :
    (f.withFlow reach).withFlow reach = f.withFlow reach := by
  obtain ⟨rest, hrest, -, -⟩ := exists_reachableLayout hnodup h
  have hlayout : (f.withFlow reach).reachableLayout reach = f.reachableLayout reach := by
    have hkept : (f.withFlow reach).layout.filter reach.contains = f.reachableLayout reach :=
      filter_eq_self.2 fun b hb => contains_iff_mem.2 ((mem_reachableLayout h).1 hb)
    rw [reachableLayout, hkept, if_pos (by rw [hrest]; rfl)]
  have htable : (f.withFlow reach).successorTable reach = f.successorTable reach := by
    refine Array.ext_getElem? fun b => ?_
    simp only [successorTable, withFlow, Array.getElem?_mapIdx, Option.map_map]
    rfl
  rw [withFlow, hlayout, htable]
  simp [withFlow, Function.comp_def]

theorem isTerminated_withFlow (f : Func) (reach : List BlockId) (b : BlockId) :
    ((f.withFlow reach).block b).isTerminated = (f.block b).isTerminated := by
  have hcode : ((f.withFlow reach).block b).instrs = (f.block b).instrs := instrs_withFlow f reach b
  rw [Block.isTerminated, Block.terminator?, hcode]
  rfl

theorem computeFlow_withFlow (hf : f.Complete) (hended : ∀ b ∈ f.layout, (f.block b).isTerminated = true)
    (hreach : f.reachable = .ok reach) (h : Reaches f reach) :
    (f.withFlow reach).computeFlow = .ok (f.withFlow reach) := by
  have hclose : (f.withFlow reach).closeBlocks (f.withFlow reach).layout = .ok (f.withFlow reach) := by
    refine closeBlocks_eq _ _ fun b hb => ?_
    rw [isTerminated_withFlow]
    exact hended b (mem_layout_withFlow h hb)
  have hagain : (f.withFlow reach).reachable = .ok reach := by
    rw [reachable, explore_withFlow, size_withFlow]
    exact hreach
  simp [computeFlow, hclose, hagain, withFlow_withFlow hf.nodup h]

/-- **The flow graph is the part of the function that can be reached.** Computing it fails exactly if
the last block does not transfer control or a block that can be reached goes out of the table.
Otherwise the layout is the entry and then the other blocks that can be reached, in their order; these
are ended and have their ways as successors, each once, while other blocks have none; the predecessors
are the blocks that can be reached with this successor, each once; and the graph of the result is the
same. -/
theorem computeFlow_exact (hf : f.Complete) :
    ((∃ e, f.computeFlow = .error e) ↔
      (∃ b, f.layout.getLast? = some b ∧ (f.block b).isTerminated = false) ∨
        ∃ b t, f.CanReach b ∧ f.Follows b t ∧ f.blocks.size ≤ t) ∧
    ∀ g, f.computeFlow = .ok g →
      (∃ rest, g.layout = f.entry :: rest ∧ rest.Sublist f.layout ∧
        ∀ b, b ∈ rest ↔ b ≠ f.entry ∧ f.CanReach b) ∧
      (∀ b, f.CanReach b → (g.block b).isTerminated = true ∧
        (g.block b).succs = (g.block b).targets ∧ (g.block b).succs.Nodup ∧
        ∀ t, t ∈ (g.block b).succs ↔ f.Follows b t) ∧
      (∀ b, ¬f.CanReach b → (g.block b).succs = []) ∧
      (∀ t, (g.block t).preds.Nodup ∧
        ∀ b, b ∈ (g.block t).preds ↔ f.CanReach b ∧ t ∈ (g.block b).succs) ∧
      g.computeFlow = .ok g := by
  cases hclose : f.closeBlocks f.layout with
  | error e =>
    have hlast := (closeBlocks_error_iff hf.nodup).1 ⟨e, hclose⟩
    have herror : f.computeFlow = .error e := by rw [computeFlow, hclose]; rfl
    rw [herror]
    exact ⟨⟨fun _ => .inl hlast, fun _ => ⟨e, rfl⟩⟩, fun g h => by cases h⟩
  | ok f' =>
    have hf' := hf.closed hclose
    obtain ⟨hended, hfollows⟩ := hf.closeBlocks_targets hclose
    have hreachable := hf.reachable_closed hclose
    obtain ⟨hlayout, hentry, hsize⟩ := closeBlocks_frame hclose
    have hlast : ¬∃ b, f.layout.getLast? = some b ∧ (f.block b).isTerminated = false := by
      rw [← closeBlocks_error_iff hf.nodup, hclose]
      rintro ⟨e, he⟩
      cases he
    have hfollows' : ∀ b t, f.Follows b t ↔ t ∈ (f'.block b).targets := fun b t => by rw [← hfollows]
    rw [← hreachable, or_iff_right hlast]
    simp only [hfollows']
    rcases hf'.reachable_cases with ⟨reach, hreach, h⟩ | ⟨⟨e, he⟩, b, -, hb, t, ht, hle⟩
    · have hok : f.computeFlow = .ok (f'.withFlow reach) := by
        simp [computeFlow, hclose, hreach]
      have hmem : ∀ b, f'.Reachable b ↔ b ∈ reach := by
        refine fun b => ⟨fun hb => ?_, h.reached b⟩
        induction hb with
        | refl => exact h.entry
        | tail _ ht ih => exact h.closed_targets ih _ ht
      have hlt : ∀ b ∈ reach, b < f'.blocks.size := fun b hb => (hf'.mem_layout b).1 (h.layout b hb)
      rw [hok]
      refine ⟨⟨?_, ?_⟩, fun g hg => ?_⟩
      · rintro ⟨e, he⟩
        cases he
      · rintro ⟨b, t, hb, ht, hle⟩
        exact absurd (hsize ▸ hlt t (h.closed_targets ((hmem b).1 hb) t ht)) (Nat.not_lt.2 hle)
      · cases hg
        simp only [hmem]
        refine ⟨?_, fun b hb => ?_, fun b hb => succs_of_not_mem hb, fun t => ⟨?_, fun b => ?_⟩, ?_⟩
        · rw [← hentry, ← hlayout]
          exact exists_reachableLayout hf'.nodup h
        · have hsuccs := succs_withFlow (hlt b hb) hb
          rw [hsuccs, targets_withFlow]
          refine ⟨?_, rfl, nodup_targets _, fun _ => Iff.rfl⟩
          rw [isTerminated_withFlow]
          exact hended b (hsize ▸ hlt b hb)
        · exact nodup_preds_withFlow hf'.nodup t
        · exact mem_preds_withFlow (fun b => (hf'.mem_layout b).1) h
        · exact computeFlow_withFlow hf' (fun b hb => hended b (hsize ▸ (hf'.mem_layout b).1 hb)) hreach h
    · have herror : f.computeFlow = .error e := by simp [computeFlow, hclose, he]
      rw [herror]
      exact ⟨⟨fun _ => ⟨b, t, hb, ht, hsize ▸ hle⟩, fun _ => ⟨e, rfl⟩⟩, fun g h => by cases h⟩

/-- A loop that is entered at its second block, after a block that nothing reaches. -/
def enteredLate : Func where
  name := "late"
  label := "late"
  entry := 1
  blocks := #[⟨"dead", [.ret none], [], []⟩, ⟨"head", [], [], []⟩,
    ⟨"test", [.branch .eq (.imm 0) (.imm 1) 1 3], [], []⟩, ⟨"done", [.ret none], [], []⟩]
  layout := [0, 1, 2, 3]

theorem not_canReach_enteredLate : enteredLate.Complete ∧ ¬enteredLate.CanReach 0 := by
  have hf : enteredLate.Complete := ⟨by decide, by decide, fun _ => mem_range (n := 4)⟩
  refine ⟨hf, fun h => ?_⟩
  obtain ⟨rest, hlayout, -, hrest⟩ := ((computeFlow_exact hf).2 _ rfl).1
  cases hlayout
  exact absurd ((hrest 0).2 ⟨by decide, h⟩) (by decide)

end MxStar.IR.Func
