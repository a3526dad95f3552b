import Mathlib.Logic.Relation
import MxStar.Proofs.FlowGraph
import MxStar.Proofs.LiveSets

/-!
Liveness is exact.

`ReadAhead` has the registers that some path reads before anything on it writes them. It solves the
equations of liveness, of which the analysis finds the least solution (`readAhead_of_mem`); and what is
read ahead is found, by induction on the path (`mem_of_path`).
-/
namespace MxStar.Alloc

open IR

variable {b : BlockId} {r : Reg}

/-! ## Paths -/

/-- The instructions that control passes on a path through the flow graph. The path starts at a point
of a block, given by the code that is left in it, and goes on at the start of a successor when the block
is at its end. -/
inductive Path (f : Func) : BlockId → List Instr → List Instr → Prop
  | stop {b : BlockId} {rest : List Instr} : Path f b rest []
  | pass {b : BlockId} {i : Instr} {rest path : List Instr} (h : Path f b rest path) :
      Path f b (i :: rest) (i :: path)
  | enter {b t : BlockId} {path : List Instr} (ht : t ∈ (f.block b).succs)
      (h : Path f t (f.code t) path) : Path f b [] path

/-- Some path from a point reaches an instruction that reads the register, and no instruction before it
on the path writes the register. -/
def ReadAhead (f : Func) (r : Reg) (b : BlockId) (rest : List Instr) : Prop :=
  ∃ passed i, Path f b rest (passed ++ [i]) ∧ r ∈ uses i ∧ ∀ j ∈ passed, r ∉ defs j

def Reached (f : Func) (b : BlockId) : Prop :=
  Relation.ReflTransGen (fun b t => t ∈ (f.block b).succs) f.entry b

section ReadAhead

variable {f : Func} {r : Reg} {b : BlockId}

/-- Before an instruction, a register is read ahead if the instruction reads it, or if it does not write
it and the register is read ahead after it. -/
theorem readAhead_cons {i : Instr} {rest : List Instr} :
    ReadAhead f r b (i :: rest) ↔ (ReadAhead f r b rest ∧ r ∉ defs i) ∨ r ∈ uses i := by
  constructor
  · rintro ⟨passed, j, hpath, huse, hkeep⟩
    cases passed with
    | nil =>
      cases hpath with
      | pass _ => exact .inr huse
    | cons k passed =>
      cases hpath with
      | pass hpath =>
        obtain ⟨hi, hkeep⟩ := List.forall_mem_cons.1 hkeep
        exact .inl ⟨⟨passed, j, hpath, huse, hkeep⟩, hi⟩
  · rintro (⟨⟨passed, j, hpath, huse, hkeep⟩, hi⟩ | huse)
    · exact ⟨i :: passed, j, .pass hpath, huse, List.forall_mem_cons.2 ⟨hi, hkeep⟩⟩
    · exact ⟨[], i, .pass .stop, huse, by simp⟩

/-- At the end of a block, a register is read ahead if it is so at the start of a successor. -/
theorem readAhead_nil :
    ReadAhead f r b [] ↔ ∃ t ∈ (f.block b).succs, ReadAhead f r t (f.code t) := by
  constructor
  · rintro ⟨passed, i, hpath, huse, hkeep⟩
    generalize hp : passed ++ [i] = path at hpath
    cases hpath with
    | stop => simp at hp
    | enter ht h => exact ⟨_, ht, passed, i, hp ▸ h, huse, hkeep⟩
  · rintro ⟨t, ht, passed, i, hpath, huse, hkeep⟩
    exact ⟨passed, i, .enter ht hpath, huse, hkeep⟩

/-- Going through the code of a block finds what is read ahead, from what is so at its end. -/
theorem mem_liveAt_iff_readAhead {out : RegSet} (hout : r ∈ out ↔ ReadAhead f r b [])
    (code : List Instr) : r ∈ liveAt out code ↔ ReadAhead f r b code := by
  induction code with
  | nil => exact hout
  | cons i code ih => rw [liveAt_cons, mem_liveBefore, readAhead_cons, ih]

theorem solves_readAhead (f : Func) : Solves f fun b r => ReadAhead f r b (f.code b) := by
  intro b _ r hdemand
  -- A set with `r` in it just if `r` is read ahead at the end of the block.
  obtain ⟨out, hout⟩ : ∃ out : RegSet, r ∈ out ↔ ReadAhead f r b [] := by
    by_cases h : ReadAhead f r b []
    · exact ⟨.ofList [r], by simp [h]⟩
    · exact ⟨∅, by simp [h]⟩
  rw [← mem_liveAt_iff_readAhead hout, ← mem_summarize_iff, hout, readAhead_nil]
  exact hdemand

end ReadAhead

/-! ## The search ends -/

/-- The visits of a search, one after another until the queue is empty, and the sets found then. Nothing
bounds their number. -/
inductive Sweep.Ends (f : Func) (sums : Array Summary) : Sweep → Liveness → Prop
  | done {live : Liveness} : Ends f sums ⟨[], live⟩ live
  | visit {b : BlockId} {queue : List BlockId} {live found : Liveness}
      (h : Ends f sums (Sweep.visit f sums ⟨queue, live⟩ b) found) :
      Ends f sums ⟨b :: queue, live⟩ found

/-- The search at its start: all blocks of the layout are in the queue, and all sets are empty. -/
def Sweep.initial (f : Func) : Sweep :=
  ⟨f.layout.reverse, ⟨Array.replicate f.blocks.size ∅, Array.replicate f.blocks.size ∅⟩⟩

section Exact

variable {f : Func} (hf : f.Flows)

include hf

/-- With fuel for what is left to do, the queue is empty in the end. -/
theorem ends_run {fuel : Nat} {s : Sweep} (h : s.Sound f) (hfuel : s.potential f < fuel) :
    Sweep.Ends f (summaries f) s (Sweep.run f (summaries f) fuel s) := by
  induction fuel generalizing s with
  | zero => omega
  | succ fuel ih =>
    obtain ⟨queue, live⟩ := s
    cases queue with
    | nil => exact .done
    | cons b queue =>
      have hless := potential_visit hf h
      exact .visit (ih (h.visit hf) (by omega))

theorem ends_analyze : Sweep.Ends f (summaries f) (.initial f) (analyze f) :=
  ends_run hf (sound_initial f) (potential_initial f)

/-! ## What is found is what is read ahead -/

theorem readAhead_of_mem (h : r ∈ (analyze f).atStart b) : ReadAhead f r b (f.code b) :=
  analyze_least hf (solves_readAhead f) b r h

/-- A register that a path reads before anything on it writes the register is found live where the path
starts. -/
theorem mem_of_path {rest passed : List Instr} {i : Instr} (hpath : Path f b rest (passed ++ [i]))
    (hb : b ∈ f.layout) (huse : r ∈ uses i) (hkeep : ∀ j ∈ passed, r ∉ defs j) :
    r ∈ liveAt ((analyze f).atEnd b) rest := by
  generalize hp : passed ++ [i] = path at hpath
  induction hpath generalizing passed with
  | stop => simp at hp
  | pass _ ih =>
    rw [liveAt_cons, mem_liveBefore]
    cases passed with
    | nil =>
      cases hp
      exact .inr huse
    | cons j passed =>
      cases hp
      obtain ⟨hj, hkeep⟩ := List.forall_mem_cons.1 hkeep
      exact .inl ⟨ih hb hkeep rfl, hj⟩
  | enter ht _ ih =>
    have htl := hf.closed _ hb _ ht
    exact (mem_atEnd_iff hf hb).2 ⟨_, ht, (mem_atStart_iff hf htl).2 (ih htl hkeep hp)⟩

theorem mem_atStart_iff_readAhead (hb : b ∈ f.layout) :
    r ∈ (analyze f).atStart b ↔ ReadAhead f r b (f.code b) := by
  refine ⟨readAhead_of_mem hf, ?_⟩
  rintro ⟨passed, i, hpath, huse, hkeep⟩
  exact (mem_atStart_iff hf hb).2 (mem_of_path hf hpath hb huse hkeep)

theorem mem_atEnd_iff_readAhead (hb : b ∈ f.layout) :
    r ∈ (analyze f).atEnd b ↔ ReadAhead f r b [] := by
  rw [mem_atEnd_iff hf hb, readAhead_nil]
  exact exists_congr fun t => and_congr_right fun ht =>
    mem_atStart_iff_readAhead hf (hf.closed b hb t ht)

theorem Reached.mem_layout (hentry : f.entry ∈ f.layout) (h : Reached f b) : b ∈ f.layout := by
  induction h with
  | refl => exact hentry
  | tail _ ht ih => exact hf.closed _ ih _ ht

end Exact

/-! ## The sets after each instruction -/

theorem liveThrough_snd (out : RegSet) (code : List Instr) :
    (liveThrough out code).2 = liveAt out code := by
  induction code with
  | nil => rfl
  | cons i code ih =>
    rw [liveAt_cons, ← ih]
    rfl

/-- The set after an instruction is the one before what follows it. -/
theorem getElem?_liveThrough (out : RegSet) {code : List Instr} {k : Nat} (hk : k < code.length) :
    (liveThrough out code).1[k]? = some (liveAt out (code.drop (k + 1))) := by
  induction code generalizing k with
  | nil => simp at hk
  | cons i code ih =>
    cases k with
    | zero => simp [liveThrough, liveThrough_snd]
    | succ k => simpa [liveThrough] using ih (Nat.lt_of_succ_lt_succ hk)

theorem length_liveThrough (out : RegSet) (code : List Instr) :
    (liveThrough out code).1.length = code.length := by
  induction code with
  | nil => rfl
  | cons i code ih =>
    rw [List.length_cons, ← ih]
    rfl

/-- **Liveness is exact.** Once the flow graph of a function is computed, the search for the live sets
comes to its end; and at the start of every block that can be reached, at its end and after each of its
instructions the sets have just the registers that some path from there reads before anything writes
them. -/
theorem liveness_exact {f g : Func} (hf : f.Complete) (h : f.computeFlow = .ok g) :
    Sweep.Ends g (summaries g) (.initial g) (analyze g) ∧
    ∀ b, Reached g b → ∀ r,
      (r ∈ (analyze g).atStart b ↔ ReadAhead g r b (g.code b)) ∧
      (r ∈ (analyze g).atEnd b ↔ ReadAhead g r b []) ∧
      ((analyze g).after g b).length = (g.code b).length ∧
      ∀ k after, ((analyze g).after g b)[k]? = some after →
        (r ∈ after ↔ ReadAhead g r b ((g.code b).drop (k + 1))) := by
  obtain ⟨hflows, hentry⟩ := Func.flows_of_computeFlow hf h
  refine ⟨ends_analyze hflows, fun b hb r => ?_⟩
  have hmem := hb.mem_layout hflows hentry
  refine ⟨mem_atStart_iff_readAhead hflows hmem, mem_atEnd_iff_readAhead hflows hmem,
    length_liveThrough _ _, fun k after hafter => ?_⟩
  have hk : k < (g.code b).length := by
    rw [← length_liveThrough ((analyze g).atEnd b)]
    exact (List.getElem?_eq_some_iff.1 hafter).1
  rw [Liveness.after, getElem?_liveThrough _ hk] at hafter
  cases hafter
  exact mem_liveAt_iff_readAhead (mem_atEnd_iff_readAhead hflows hmem) _

/-- A loop that counts up to a bound. The first block falls into the loop, and nothing leads to the last
one. -/
def counting : Func where
  name := "count"
  label := "count"
  params := [0]
  blocks := #[
    { name := "entry", instrs := [.move (.vreg 1) (.imm 0)] },
    { name := "cond", instrs := [.branch .lt (.vreg 1) (.vreg 0) 2 3] },
    { name := "body", instrs := [.binary (.vreg 1) .add (.vreg 1) (.imm 1), .jump 1] },
    { name := "end", instrs := [.ret (some (.vreg 1))] },
    { name := "dead", instrs := [.jump 1] }]
  layout := [0, 1, 2, 3, 4]
  hints := #["n", "i"]

def countingFlow : Func :=
  { counting with
    blocks := #[
      { name := "entry", instrs := [.move (.vreg 1) (.imm 0), .jump 1], succs := [1] },
      { name := "cond", instrs := [.branch .lt (.vreg 1) (.vreg 0) 2 3], preds := [0, 2], succs := [2, 3] },
      { name := "body", instrs := [.binary (.vreg 1) .add (.vreg 1) (.imm 1), .jump 1], preds := [1],
        succs := [1] },
      { name := "end", instrs := [.ret (some (.vreg 1))], preds := [1] },
      { name := "dead", instrs := [.jump 1] }]
    layout := [0, 1, 2, 3] }

/-- The bound is read around the loop, and the counter is not read before its first write. -/
theorem liveness_exact_counting :
    counting.Complete ∧ counting.computeFlow = .ok countingFlow ∧ Reached countingFlow 2 ∧
      Sweep.Ends countingFlow (summaries countingFlow) (.initial countingFlow) (analyze countingFlow) ∧
      ReadAhead countingFlow (.virt 0) 2 [] ∧
      ¬ReadAhead countingFlow (.virt 1) 0 (countingFlow.code 0) := by
  have hcomplete : counting.Complete := by
    refine ⟨by decide, by decide, fun b => ?_⟩
    change b ∈ List.range 5 ↔ b < 5
    exact List.mem_range
  have hflow : counting.computeFlow = .ok countingFlow := by decide
  have hcond : Reached countingFlow 1 := .single (by decide)
  have hbody : Reached countingFlow 2 := hcond.tail (by decide)
  obtain ⟨hends, hexact⟩ := liveness_exact hcomplete hflow
  refine ⟨hcomplete, hflow, hbody, hends, ?_, ?_⟩
  · exact (hexact 2 hbody (.virt 0)).2.1.1 (SortedSet.contains_iff.1 (by decide))
  · rw [← (hexact 0 .refl (.virt 1)).1, ← SortedSet.contains_iff]
    decide

end MxStar.Alloc
