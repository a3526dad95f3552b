import MxStar.Proofs.Actions
import MxStar.Proofs.Settled
import MxStar.Proofs.SpillCode

/-!
Functions with spilled registers.

`Spilled slots f g` says that `g` is `f` with the registers of `slots` spilled. Spilling keeps the
calling convention explicit (`Spilled.settled`): the blocks end as before, the new registers are in
range, and physical registers are read and written at the same points, because loads and stores of
slots go through virtual registers.
-/
namespace MxStar.Alloc

open IR Interp List

variable {τ : VReg → VReg} {q : PhysReg} {i j : Instr} {out : RegSet} {o : Operand} {b : BlockId}

/-! ## Renaming virtual registers -/

theorem renameVReg_of_keep (h : ∀ v, o = .vreg v → τ v = v) : renameVReg τ o = o := by
  cases o with
  | vreg v => rw [renameVReg, h v rfl]
  | _ => rfl

theorem renameVReg_eq_phys : renameVReg τ o = .phys q ↔ o = .phys q := by
  cases o <;> simp [renameVReg]

theorem map_eq_self {α : Type} {l : List α} {h : α → α} (hl : ∀ a ∈ l, h a = a) : l.map h = l := by
  rw [map_congr_left hl, map_id']

theorem mapOperands_eq_self {σ : Operand → Operand} (h : ∀ o ∈ i.operands, σ o = o) :
    i.mapOperands σ = i := by
  cases i with
  | load dst a | store a src => cases a <;> simp_all [Instr.mapOperands, Instr.operands, Instr.dst?,
      Instr.sources, Address.operands, Address.mapOperands]
  | call dst callee args n =>
    have hargs : args.map σ = args := map_eq_self fun a ha => h a (mem_append_right _ ha)
    cases dst with
    | none => rw [Instr.mapOperands, hargs, Option.map_none]
    | some d =>
      rw [Instr.mapOperands, hargs, Option.map_some, h d (mem_append_left _ (by simp [Instr.dst?]))]
  | ret v => cases v <;> simp_all [Instr.mapOperands, Instr.operands, Instr.dst?, Instr.sources]
  | _ => simp_all [Instr.mapOperands, Instr.operands, Instr.dst?, Instr.sources]

theorem isTerminator_mapOperands (σ : Operand → Operand) (i : Instr) :
    (i.mapOperands σ).isTerminator = i.isTerminator := by
  cases i <;> rfl

theorem isCall_mapOperands (σ : Operand → Operand) (i : Instr) :
    (i.mapOperands σ).isCall = i.isCall := by
  cases i <;> rfl

theorem successors_mapOperands (σ : Operand → Operand) (i : Instr) :
    (i.mapOperands σ).successors = i.successors := by
  cases i <;> rfl

theorem operands_mapOperands (σ : Operand → Operand) (i : Instr) :
    (i.mapOperands σ).operands = i.operands.map σ := by
  cases i with
  | load dst a => cases a <;> rfl
  | store a src => cases a <;> rfl
  | call dst callee args n =>
    cases dst <;>
      simp [Instr.mapOperands, Instr.operands, Instr.dst?, Instr.sources]
  | ret v => cases v <;> rfl
  | _ => rfl

/-! ## Physical registers in spilled code -/

theorem phys_mem_uses : .phys q ∈ uses i ↔ .phys q ∈ i.sources := by
  rw [mem_uses]
  constructor
  · rintro ⟨o, ho, hr⟩
    rw [Operand.eq_of_reg?.2] at hr
    exact hr ▸ ho
  · exact fun h => ⟨_, h, rfl⟩

theorem phys_mem_defs_mapOperands :
    .phys q ∈ defs (i.mapOperands (renameVReg τ)) ↔ .phys q ∈ defs i := by
  have hreg : ∀ o : Operand, (renameVReg τ o).reg? = some (.phys q) ↔ o.reg? = some (.phys q) := by
    intro o
    rw [Operand.eq_of_reg?.2, Operand.eq_of_reg?.2, renameVReg_eq_phys]
  cases i with
  | binary dst op lhs rhs =>
    cases op <;> simp [Instr.mapOperands, defs, Instr.dst?, hreg]
  | call dst callee args n =>
    cases dst <;> simp [Instr.mapOperands, defs, Instr.dst?, hreg]
  | load dst a | _ => simp [Instr.mapOperands, defs, Instr.dst?, hreg]

/-! ## What holds of the code that spilling makes -/

section SpillsTo

variable {slots : Slots} {lo hi : Nat} {i : Instr} {new : List Instr}

theorem mem_spillStore (hj : j ∈ spillStore slots τ i) :
    ∃ d, i.dst? = some (.vreg d) ∧ (slots.get? d).isSome ∧
      j = .store (slots.address d) (.vreg (τ d)) := by
  unfold spillStore at hj
  split at hj
  · next d hd =>
    split at hj
    · next hs => exact ⟨d, hd, hs, by simpa using hj⟩
    · simp at hj
  · simp at hj

/-- An operand that spilling leaves or adds: a new register, or an operand that is not spilled. -/
def Unspilled (slots : Slots) (lo hi : Nat) (i : Instr) (o : Operand) : Prop :=
  (∃ v, o = .vreg v ∧ lo ≤ v ∧ v < hi) ∨ o ∈ i.operands ∧ slots.ofOperand? o = none

/-- Each new instruction loads from the slot of a spilled register, stores there, or is the instruction
itself. -/
theorem SpillsTo.cases_mem (h : SpillsTo slots lo hi i new) (hj : j ∈ new) :
    (∃ o k, k < slots.base + slots.spilled.size ∧ Unspilled slots lo hi i o ∧
      ((∃ t, o = .vreg t) ∨ ∃ v, i = .move o (.vreg v)) ∧ j = .load o (.slot k)) ∨
    (∃ o k, k < slots.base + slots.spilled.size ∧ Unspilled slots lo hi i o ∧ Encodable o ∧
      j = .store (.slot k) o) ∨
    ∃ τ, Renames slots lo hi i τ ∧ j = i.mapOperands (renameVReg τ) := by
  cases h with
  | @store d k src heq hd hsrc hstorable =>
    rw [mem_singleton] at hj
    refine .inr (.inl ⟨src, k, (Slots.get?_range hd).2, .inr ⟨?_, hsrc⟩, ?_, hj⟩)
    · simp [heq, Instr.operands, Instr.sources]
    · cases src with
      | vreg | phys => trivial
      | imm w => exact hstorable
      | static => cases hstorable
  | @load dst v k heq hdst hv =>
    rw [mem_singleton] at hj
    refine .inl ⟨dst, k, (Slots.get?_range hv).2, .inr ⟨?_, hdst⟩, .inr ⟨v, heq⟩, hj⟩
    simp [heq, Instr.operands, Instr.dst?]
  | @general τ loads hτ hnd hloads =>
    have hplace : ∀ v, .vreg v ∈ i.operands → (slots.get? v).isSome →
        ∃ k, slots.address v = .slot k ∧ k < slots.base + slots.spilled.size ∧
          Unspilled slots lo hi i (.vreg (τ v)) := by
      intro v ho hs
      obtain ⟨k, hk⟩ := Option.isSome_iff_exists.1 hs
      exact ⟨k, by rw [Slots.address, hk, Option.getD_some], (Slots.get?_range hk).2,
        .inl ⟨τ v, rfl, hτ.fresh v ho hs⟩⟩
    rcases mem_append.1 hj with hj | hj
    · obtain ⟨v, hv, rfl⟩ := mem_map.1 hj
      obtain ⟨ho, hs⟩ := (hloads v).1 hv
      obtain ⟨k, heq, hk, hun⟩ := hplace v (mem_operands_of_source ho) hs
      exact .inl ⟨_, k, hk, hun, .inl ⟨_, rfl⟩, heq ▸ rfl⟩
    · rcases mem_cons.1 hj with rfl | hj
      · exact .inr (.inr ⟨τ, hτ, rfl⟩)
      · obtain ⟨d, hd, hs, rfl⟩ := mem_spillStore hj
        obtain ⟨k, heq, hk, hun⟩ := hplace d (mem_operands_of_dst hd) hs
        exact .inr (.inl ⟨_, k, hk, hun, trivial, heq ▸ rfl⟩)

theorem SpillsTo.mem_operands (h : SpillsTo slots lo hi i new) (hj : j ∈ new)
    (ho : o ∈ j.operands) : Unspilled slots lo hi i o := by
  obtain ⟨o', k, -, hun, -, rfl⟩ | ⟨o', k, -, hun, -, rfl⟩ | ⟨τ, hτ, rfl⟩ := h.cases_mem hj
  · rw [mem_singleton.1 ho]
    exact hun
  · rw [mem_singleton.1 ho]
    exact hun
  · rw [operands_mapOperands] at ho
    obtain ⟨o', ho', rfl⟩ := mem_map.1 ho
    cases o' with
    | vreg v =>
      cases hs : slots.get? v with
      | some k => exact .inl ⟨τ v, rfl, hτ.fresh v ho' (by simp [hs])⟩
      | none =>
        rw [renameVReg, hτ.keep v hs]
        exact .inr ⟨ho', hs⟩
    | _ => exact .inr ⟨ho', rfl⟩

theorem Routed.no_vreg (h : Routed i) (hi : i.isCall = true ∨ ∃ v, i = .ret v) (v : VReg) :
    .vreg v ∉ i.operands := by
  intro ho
  cases i with
  | call dst callee args n =>
    obtain ⟨rfl, hargs⟩ := h.calls dst callee args n rfl
    obtain ⟨q, hq⟩ := hargs _ (by simpa [Instr.operands, Instr.dst?, Instr.sources] using ho)
    cases hq
  | ret v' =>
    cases v' with
    | none => simp [Instr.operands, Instr.dst?, Instr.sources] at ho
    | some o =>
      obtain ⟨q, rfl⟩ := h.returns o rfl
      simp [Instr.operands, Instr.dst?, Instr.sources] at ho
  | _ => simp [Instr.isCall] at hi

theorem mapOperands_of_no_vreg (h : ∀ v, .vreg v ∉ i.operands) : i.mapOperands (renameVReg τ) = i :=
  mapOperands_eq_self fun o ho => renameVReg_of_keep (by rintro v rfl; exact absurd ho (h v))

theorem SpillsTo.eq_singleton (h : SpillsTo slots lo hi i new)
    (hno : ∀ v, .vreg v ∈ i.operands → slots.get? v = none) : new = [i] := by
  cases h with
  | store heq hd hsrc hstorable =>
    rename_i d _ _
    subst heq
    rw [hno d (by simp [Instr.operands, Instr.dst?])] at hd
    cases hd
  | load heq hdst hv =>
    rename_i dst v _
    subst heq
    rw [hno v (by simp [Instr.operands, Instr.sources])] at hv
    cases hv
  | general hτ hnd hloads =>
    rename_i τ loads
    obtain rfl : loads = [] := eq_nil_iff_forall_not_mem.2 fun v hv => by
      obtain ⟨hsource, hsome⟩ := (hloads v).1 hv
      rw [hno v (mem_operands_of_source hsource)] at hsome
      cases hsome
    have hstore : spillStore slots τ i = [] := by
      unfold spillStore
      split
      · next d hd =>
        rw [hno d (mem_operands_of_dst hd)]
        rfl
      · rfl
    have hsame : i.mapOperands (renameVReg τ) = i := mapOperands_eq_self fun o ho =>
      renameVReg_of_keep fun v hv => hτ.keep v (hno v (hv ▸ ho))
    rw [hsame, hstore]
    rfl

theorem abides_of_simple (hphys : ∀ q, .phys q ∈ j.operands → q ∈ PhysReg.callerSaved)
    (hdiv : ∀ dst op l r, j = .binary dst op l r → op = .div ∨ op = .mod → ∃ q, dst = .phys q)
    (hcall : j.isCall = false) (hterm : j.isTerminator = false) : Abides j := by
  refine ⟨⟨hdiv, ?_, ?_⟩, hphys⟩
  · rintro dst callee args n rfl
    simp [Instr.isCall] at hcall
  · rintro v rfl
    simp [Instr.isTerminator] at hterm

theorem SpillsTo.abides (h : SpillsTo slots lo hi i new) (hi : Abides i) :
    ∀ j ∈ new, Abides j := by
  intro j hj
  have hphys : ∀ q, .phys q ∈ j.operands → q ∈ PhysReg.callerSaved := by
    intro q hq
    obtain ⟨v, hv, _⟩ | ⟨ho, _⟩ := h.mem_operands hj hq
    · cases hv
    · exact hi.phys q ho
  obtain ⟨o, k, -, -, -, rfl⟩ | ⟨o, k, -, -, -, rfl⟩ | ⟨τ, -, rfl⟩ := h.cases_mem hj
  · exact abides_of_simple hphys (by simp) rfl rfl
  · exact abides_of_simple hphys (by simp) rfl rfl
  · by_cases hcr : i.isCall = true ∨ ∃ v, i = .ret v
    · rw [mapOperands_of_no_vreg (hi.no_vreg hcr)]
      exact hi
    · refine ⟨⟨?_, ?_, ?_⟩, hphys⟩
      · intro dst op l r heq hop
        cases i with
        | binary dst' op' l' r' =>
          cases heq
          obtain ⟨q, rfl⟩ := hi.divides _ _ _ _ rfl hop
          exact ⟨q, rfl⟩
        | _ => simp [Instr.mapOperands] at heq
      · intro dst callee args n heq
        exact absurd (.inl (by rw [← isCall_mapOperands (renameVReg τ), heq]; rfl)) hcr
      · intro v heq
        cases i with
        | ret v' => exact absurd (.inr ⟨v', rfl⟩) hcr
        | _ => simp [Instr.mapOperands] at heq

theorem SpillsTo.call_mem (h : SpillsTo slots lo hi i new) (hi : Abides i) {dst : Option Operand}
    {callee : Callee} {args : List Operand} {n : Nat} (hj : .call dst callee args n ∈ new) :
    i = .call dst callee args n := by
  obtain ⟨o, k, -, -, -, heq⟩ | ⟨o, k, -, -, -, heq⟩ | ⟨τ, -, heq⟩ := h.cases_mem hj
  · cases heq
  · cases heq
  · have hcall : i.isCall = true := by rw [← isCall_mapOperands (renameVReg τ), ← heq]; rfl
    rw [mapOperands_of_no_vreg (hi.no_vreg (.inl hcall))] at heq
    exact heq.symm

/-- A block ends where it ended, and goes to the same blocks. -/
theorem SpillsTo.not_isTerminator (h : SpillsTo slots lo hi i new) (hi : i.isTerminator = false) :
    ∀ j ∈ new, j.isTerminator = false := by
  intro j hj
  obtain ⟨o, k, -, -, -, rfl⟩ | ⟨o, k, -, -, -, rfl⟩ | ⟨τ, -, rfl⟩ := h.cases_mem hj
  · rfl
  · rfl
  · rw [isTerminator_mapOperands, hi]

theorem SpillsTo.endsOnce (h : SpillsTo slots lo hi i new) (hi : i.isTerminator = true) :
    EndsOnce new ∧ ∀ j ∈ new.getLast?, j.successors = i.successors := by
  cases h with
  | store heq => subst heq; cases hi
  | load heq => subst heq; cases hi
  | general hτ hnd hloads =>
    rename_i τ loads
    have hstore : spillStore slots τ i = [] := by
      cases i with
      | jump | branch | ret => rfl
      | _ => cases hi
    rw [hstore]
    refine ⟨⟨⟨_, getLast?_concat, by rw [isTerminator_mapOperands, hi]⟩, ?_⟩, ?_⟩
    · intro j hj
      rw [dropLast_concat] at hj
      obtain ⟨v, _, rfl⟩ := mem_map.1 hj
      rfl
    · intro j hj
      rw [getLast?_concat] at hj
      cases hj
      exact successors_mapOperands _ _

/-- Loads and stores of slots through virtual registers do not touch physical ones. -/
theorem phys_mem_liveAt_loads {loads : List VReg} :
    .phys q ∈ liveAt out (loads.map fun v => .load (.vreg (τ v)) (slots.address v)) ↔
      .phys q ∈ out := by
  induction loads with
  | nil => exact Iff.rfl
  | cons v loads ih =>
    rw [map_cons, liveAt_cons, mem_liveBefore, ih]
    simp [defs, uses, Instr.dst?, Instr.sources, Slots.address, Address.operands, Operand.reg?]

theorem phys_mem_liveAt_spillStore :
    .phys q ∈ liveAt out (spillStore slots τ i) ↔ .phys q ∈ out := by
  unfold spillStore
  split
  · split
    · simp [defs, uses, Instr.dst?, Instr.sources, Slots.address, Address.operands, Operand.reg?]
    · exact Iff.rfl
  · exact Iff.rfl

/-- The same physical registers are live before an instruction and before its spilled code. -/
theorem SpillsTo.phys_mem_liveAt (h : SpillsTo slots lo hi i new) :
    .phys q ∈ liveAt out new ↔ .phys q ∈ liveBefore i out := by
  cases h with
  | store heq | load heq =>
    subst heq
    simp [mem_uses, defs, Instr.dst?, Instr.sources, Address.operands, Operand.reg?]
  | general hτ hnd hloads =>
    rename_i τ loads
    rw [liveAt_append, phys_mem_liveAt_loads, liveAt_cons, mem_liveBefore, mem_liveBefore,
      phys_mem_liveAt_spillStore, phys_mem_defs_mapOperands, phys_mem_uses, phys_mem_uses,
      sources_mapOperands]
    simp [renameVReg_eq_phys]

end SpillsTo

/-! ## Spilled functions -/

/-- The second function is the first one with some registers spilled. Its parameters may be others: the
entry block binds them. -/
structure Spilled (slots : Slots) (f g : Func) : Prop where
  label : g.label = f.label
  base : slots.base = f.slots
  frame : g.slots = f.slots + slots.spilled.size
  entry : g.entry = f.entry
  layout : g.layout = f.layout
  vregs : f.vregCount ≤ g.vregCount
  size : g.blocks.size = f.blocks.size
  block : ∀ b, g.block b = { f.block b with instrs := g.code b }
  code : ∀ b ∈ f.layout,
    Replaced (SpillsTo slots f.vregCount g.vregCount) (f.code b) (g.code b)

theorem fst_spillRegs (f : Func) (spills unspillable : SortedSet VReg) :
    (spillRegs f spills unspillable).1 =
      f.layout.foldl (expandBlock (spillInstr ⟨f.slots, spills⟩))
        { f with slots := f.slots + spills.size } := rfl

theorem spilled_spillRegs {f : Func} (hf : f.Shaped) (spills unspillable : SortedSet VReg) :
    Spilled ⟨f.slots, spills⟩ f (spillRegs f spills unspillable).1 := by
  obtain ⟨heq, hsize, hvregs, hcode, _, hblock⟩ :=
    expandBlocks_spec (grows_spillInstr ⟨f.slots, spills⟩) f.layout
      { f with slots := f.slots + spills.size } hf.nodup hf.blocks
  rw [fst_spillRegs]
  exact {
    label := by rw [heq]
    base := rfl
    frame := by rw [heq]
    entry := by rw [heq]
    layout := by rw [heq]
    vregs := hvregs
    size := hsize
    block := hblock
    code := fun b hb => (hcode b hb).mono fun _ _ => spillsTo_of_expands }

theorem params_spillRegs {f : Func} (hf : f.Shaped) (spills unspillable : SortedSet VReg) :
    (spillRegs f spills unspillable).1.params = f.params := by
  obtain ⟨heq, _⟩ := expandBlocks_spec (grows_spillInstr ⟨f.slots, spills⟩) f.layout
    { f with slots := f.slots + spills.size } hf.nodup hf.blocks
  rw [fst_spillRegs, heq]

theorem phys_mem_liveAt_spilled {slots : Slots} {lo hi : Nat} {code code' : List Instr}
    (h : Replaced (SpillsTo slots lo hi) code code') :
    .phys q ∈ liveAt ∅ code' ↔ .phys q ∈ liveAt ∅ code := by
  induction h with
  | nil => exact Iff.rfl
  | cons h _ ih =>
    rw [liveAt_append, h.phys_mem_liveAt, liveAt_cons, mem_liveBefore, mem_liveBefore, ih]

section Spilled

variable {slots : Slots} {f g : Func} (h : Spilled slots f g) {n : Nat} (hf : Settled n f)

include h

theorem Spilled.exists_of_mem (hb : b ∈ f.layout) (hj : j ∈ g.code b) :
    ∃ i ∈ f.code b, ∃ new, SpillsTo slots f.vregCount g.vregCount i new ∧ j ∈ new :=
  (h.code b hb).exists_of_mem hj

theorem Spilled.ends (hb : b ∈ f.layout) (hends : EndsOnce (f.code b)) :
    EndsOnce (g.code b) ∧ (g.block b).targets = (f.block b).targets := by
  obtain ⟨hg, hsucc⟩ := (h.code b hb).endsOnce (fun _ _ _ hs => hs.endsOnce)
    (fun _ _ _ hs => hs.not_isTerminator) hends
  exact ⟨hg, EndsOnce.targets_congr hends hg hsucc⟩

theorem Spilled.shaped (hf : f.Shaped) : g.Shaped := by
  have hends := fun b (hb : b ∈ f.layout) => h.ends hb (hf.ends b hb)
  refine ⟨?_, ?_, ?_, ?_, ?_⟩
  · exact h.layout ▸ hf.nodup
  · rw [h.layout, h.entry]
    exact hf.entry
  · intro b hb
    rw [h.size]
    exact hf.blocks b (h.layout ▸ hb)
  · exact fun b hb => (hends b (h.layout ▸ hb)).1
  · intro b hb t ht
    rw [(hends b (h.layout ▸ hb)).2] at ht
    rw [h.layout]
    exact hf.targets b (h.layout ▸ hb) t ht

theorem Spilled.abiding (hf : Abiding f) : Abiding g := by
  have hends := fun b (hb : b ∈ f.layout) => h.ends hb (hf.shaped.ends b hb)
  have hsuccs : ∀ b, (g.block b).succs = (f.block b).succs := fun b => by rw [h.block]
  have hpreds : ∀ b, (g.block b).preds = (f.block b).preds := fun b => by rw [h.block]
  refine {
    shaped := h.shaped hf.shaped
    flows := ⟨?_, ?_, ?_, ?_, ?_, ?_⟩
    regs := ?_, abides := ?_ }
  · exact h.layout ▸ hf.flows.nodup
  · intro b hb
    rw [h.size]
    exact hf.flows.blocks b (h.layout ▸ hb)
  · intro b hb
    rw [hsuccs, (hends b (h.layout ▸ hb)).2]
    exact hf.flows.succs b (h.layout ▸ hb)
  · intro b hb t ht
    rw [h.layout]
    exact hf.flows.closed b (h.layout ▸ hb) t (hsuccs b ▸ ht)
  · intro b hb t ht
    rw [hpreds]
    exact hf.flows.preds b (h.layout ▸ hb) t (hsuccs b ▸ ht)
  · intro t b hb
    rw [h.layout]
    exact hf.flows.preds_mem t b (hpreds t ▸ hb)
  · intro b hb j hj v hv
    obtain ⟨i, hi, new, hs, hj⟩ := h.exists_of_mem (h.layout ▸ hb) hj
    obtain ⟨u, hu, _, hlt⟩ | ⟨ho, _⟩ := hs.mem_operands hj hv
    · cases hu
      exact hlt
    · exact Nat.lt_of_lt_of_le (hf.regs b (h.layout ▸ hb) i hi v ho) h.vregs
  · intro b hb j hj
    obtain ⟨i, hi, new, hs, hj⟩ := h.exists_of_mem (h.layout ▸ hb) hj
    exact hs.abides (hf.abides b (h.layout ▸ hb) i hi) j hj

include hf

theorem Spilled.settled : Settled n g := by
  refine { h.abiding hf.toAbiding with entered := ?_, quiet := ?_, opening := ?_ }
  · intro b hb
    rw [h.entry, (h.ends (h.layout ▸ hb) (hf.shaped.ends b (h.layout ▸ hb))).2]
    exact hf.entered b (h.layout ▸ hb)
  · intro b hb hne q hq
    rw [phys_mem_liveAt_spilled (h.code b (h.layout ▸ hb))] at hq
    exact hf.quiet b (h.layout ▸ hb) (h.entry ▸ hne) q hq
  · intro q hq
    rw [h.entry, phys_mem_liveAt_spilled (h.code _ hf.shaped.entry)] at hq
    exact hf.opening q hq

theorem Spilled.call_mem (hb : b ∈ g.layout) {dst : Option Operand} {callee : Callee}
    {args : List Operand} {k : Nat} (hj : .call dst callee args k ∈ g.code b) :
    .call dst callee args k ∈ f.code b := by
  obtain ⟨i, hi, new, hs, hj⟩ := h.exists_of_mem (h.layout ▸ hb) hj
  exact hs.call_mem (hf.abides b (h.layout ▸ hb) i hi) hj ▸ hi

end Spilled

end MxStar.Alloc
