import MxStar.Proofs.ConventionCode
import MxStar.Proofs.Openings

/-!
Functions in which the calling convention is made explicit.

`Conventional f g` says what `g` has of `f` then: a new entry that binds the parameters, and for each block
that can be reached the code of `ConventionCode`. Every function of good shape has such a `g`
(`exists_conventional`).
-/
namespace MxStar.IR.Func

open List

/-! ## A new entry -/

section AddEntry

variable (f : Func) (name : String) (code : List Instr)

theorem block_addEntry (b : BlockId) :
    (f.addEntry name code).block b =
      if b = f.blocks.size then { name := name, instrs := code ++ [.jump f.entry] }
      else f.block b := by
  have hblock : ∀ c, (f.addBlock name).block c =
      if c = f.blocks.size then { name := name } else f.block c := by
    intro c
    simp only [addBlock, block, Array.getElem?_push]
    split <;> simp_all
  have hsize : f.blocks.size < (f.addBlock name).blocks.size := by simp [addBlock]
  change ((f.addBlock name).setCode f.blocks.size (code ++ [.jump f.entry])).block b = _
  rw [block_setCode _ _ _ _ hsize, hblock]
  by_cases hb : b = f.blocks.size
  · simp [hb]
  · simp [hb, Ne.symm hb]

theorem code_addEntry (b : BlockId) :
    (f.addEntry name code).code b =
      if b = f.blocks.size then code ++ [.jump f.entry] else f.code b := by
  rw [Func.code, block_addEntry]
  split <;> rfl

theorem size_addEntry : (f.addEntry name code).blocks.size = f.blocks.size + 1 := by
  simp [addEntry, setEntry, addBlock]

theorem layout_addEntry (hf : ∀ b ∈ f.layout, b < f.blocks.size) :
    (f.addEntry name code).layout = f.blocks.size :: f.layout := by
  have hfilter : f.layout.filter (fun b => decide (b ≠ f.blocks.size)) = f.layout :=
    filter_eq_self.2 fun b hb => decide_eq_true (Nat.ne_of_lt (hf b hb))
  simp only [addEntry, setEntry, setCode, modifyBlock, addBlock, filter_append, hfilter]
  simp

variable {f}

theorem shaped_addEntry (hf : f.Shaped) (hcode : ∀ i ∈ code, i.isTerminator = false) :
    (f.addEntry name code).Shaped where
  nodup := by
    rw [layout_addEntry f name code hf.blocks]
    exact nodup_cons.2 ⟨fun h => Nat.lt_irrefl _ (hf.blocks _ h), hf.nodup⟩
  entry := by
    rw [layout_addEntry f name code hf.blocks]
    exact mem_cons_self
  blocks := by
    rw [layout_addEntry f name code hf.blocks, size_addEntry]
    exact forall_mem_cons.2
      ⟨Nat.lt_succ_self _, fun b hb => Nat.lt_succ_of_lt (hf.blocks b hb)⟩
  ends := by
    intro b hb
    rw [code_addEntry]
    split
    · exact ⟨⟨.jump f.entry, by simp, rfl⟩, by simpa using hcode⟩
    · next hne =>
      rw [layout_addEntry f name code hf.blocks] at hb
      exact hf.ends b ((mem_cons.1 hb).resolve_left hne)
  targets := by
    intro b hb t ht
    rw [layout_addEntry f name code hf.blocks] at hb ⊢
    refine mem_cons_of_mem _ ?_
    rw [block_addEntry] at ht
    split at ht
    · have htargets : Block.targets { name := name, instrs := code ++ [.jump f.entry] } =
        (Instr.jump f.entry).successors := EndsOnce.targets rfl rfl
      rw [htargets] at ht
      rw [mem_singleton.1 ht]
      exact hf.entry
    · next hne => exact hf.targets b ((mem_cons.1 hb).resolve_left hne) t ht

end AddEntry

end MxStar.IR.Func

namespace MxStar.Alloc

open IR Interp List

variable {f g : Func} {p : Program}

/-! ## One function -/

/-- The convention is made explicit in `g`, which has the blocks of `f` that can be reached. -/
structure Conventional (f g : Func) : Prop where
  name : g.name = f.name
  label : g.label = f.label
  params : g.params = f.params
  slots : g.slots = f.slots
  vregs : f.vregCount ≤ g.vregCount
  shaped : g.Shaped
  flows : g.Flows
  start : f.entry ≠ g.entry
  opening : g.code g.entry = bindings f.params.zipIdx ++ [.jump f.entry]
  layout : ∀ b ∈ g.layout, b ≠ g.entry → b ∈ f.layout
  fresh : g.entry ∉ f.layout
  code : ∀ b ∈ g.layout, b ≠ g.entry →
    Replaced (Conforms f.vregCount g.vregCount) (f.code b) (g.code b)

theorem isTerminator_bindings (params : List (VReg × Nat)) :
    ∀ i ∈ bindings params, i.isTerminator = false := by
  intro i hi
  obtain ⟨⟨v, k⟩, _, rfl⟩ := mem_map.1 hi
  exact (sources_bindParam v k).1.1

theorem endsOnce_conforms {lo hi : Nat} {b b' : Block}
    (h : Replaced (Conforms lo hi) b.instrs b'.instrs) (hends : EndsOnce b.instrs) :
    EndsOnce b'.instrs ∧ b'.targets = b.targets := by
  obtain ⟨hb', hsucc⟩ := h.endsOnce (fun _ _ _ hc => hc.endsOnce)
    (fun _ _ _ hc hi j hj => (hc.part j hj).not_isTerminator hi) hends
  exact ⟨hb', EndsOnce.targets_congr hends hb' hsucc⟩

/-- The blocks that can be reached, each with the code that conforms. -/
structure Expanded (f g : Func) : Prop where
  name : g.name = f.name
  label : g.label = f.label
  params : g.params = f.params
  slots : g.slots = f.slots
  entry : g.entry = f.entry
  size : g.blocks.size = f.blocks.size
  vregs : f.vregCount ≤ g.vregCount
  shaped : g.Shaped
  layout : ∀ b ∈ g.layout, b ∈ f.layout
  code : ∀ b ∈ g.layout, Replaced (Conforms f.vregCount g.vregCount) (f.code b) (g.code b)

theorem expanded_expandFunc (hf : f.Shaped) {reach : List BlockId} (hreach : Func.Reaches f reach) :
    Expanded f (expandFunc expandConvention (f.withFlow reach)) := by
  have hf1 := Func.shaped_withFlow hf hreach
  obtain ⟨heq, hsize, hvregs, hcode, _, hblock⟩ := expandBlocks_spec grows_expandConvention
    (f.withFlow reach).layout (f.withFlow reach) hf1.nodup hf1.blocks
  have hlayout : (expandFunc expandConvention (f.withFlow reach)).layout =
    (f.withFlow reach).layout := (congrArg Func.layout heq :)
  have hreplaced : ∀ b ∈ (f.withFlow reach).layout,
      Replaced (Conforms f.vregCount (expandFunc expandConvention (f.withFlow reach)).vregCount)
        ((f.withFlow reach).code b) ((expandFunc expandConvention (f.withFlow reach)).code b) :=
    fun b hb => (hcode b hb).mono fun _ _ => conforms_of_expands
  have hentry := (congrArg Func.entry heq :)
  refine {
    name := (congrArg Func.name heq :)
    label := (congrArg Func.label heq :)
    params := (congrArg Func.params heq :)
    slots := (congrArg Func.slots heq :)
    entry := hentry
    size := hsize.trans (Func.size_withFlow ..)
    vregs := hvregs
    shaped := {
      nodup := hlayout ▸ hf1.nodup
      entry := ?_
      blocks := ?_
      ends := ?_
      targets := ?_ }
    layout := ?_
    code := ?_ }
  · rw [hlayout]
    exact hentry ▸ hf1.entry
  · intro b hb
    exact hsize ▸ hf1.blocks b (hlayout ▸ hb)
  · intro b hb
    rw [hlayout] at hb
    exact (endsOnce_conforms (hreplaced b hb) (hf1.ends b hb)).1
  · intro b hb t ht
    rw [hlayout] at hb ⊢
    rw [(endsOnce_conforms (hreplaced b hb) (hf1.ends b hb)).2] at ht
    exact hf1.targets b hb t ht
  · intro b hb
    exact Func.mem_layout_withFlow hreach (hlayout ▸ hb)
  · intro b hb
    have h := hreplaced b (hlayout ▸ hb)
    rwa [Func.instrs_withFlow] at h

/-- A new entry that binds the parameters, and the flow graph with it. -/
theorem exists_bindParams {f2 : Func} (hf : f.Shaped) (hexp : Expanded f f2) :
    ∃ g, (bindParams f2).computeFlow = .ok g ∧ Conventional f g := by
  have hf3 : (bindParams f2).Shaped :=
    Func.shaped_addEntry "params" _ hexp.shaped (isTerminator_bindings f2.params.zipIdx)
  obtain ⟨reach, hflow, hreach⟩ := Func.computeFlow_spec hf3
  have hcode : ∀ b, (bindParams f2).code b =
      if b = f2.blocks.size then bindings f2.params.zipIdx ++ [.jump f2.entry] else f2.code b :=
    Func.code_addEntry f2 "params" _
  have hmem : ∀ b ∈ ((bindParams f2).withFlow reach).layout, b ≠ f2.blocks.size →
      b ∈ f2.layout := by
    intro b hb hne
    have hb' := Func.mem_layout_withFlow hreach hb
    rw [bindParams, Func.layout_addEntry _ _ _ hexp.shaped.blocks] at hb'
    exact (mem_cons.1 hb').resolve_left hne
  have hfresh : ∀ b ∈ f.layout, b ≠ f2.blocks.size := by
    rintro b hb rfl
    exact Nat.lt_irrefl _ (hexp.size ▸ hf.blocks _ hb)
  refine ⟨(bindParams f2).withFlow reach, hflow, {
    name := hexp.name
    label := hexp.label
    params := hexp.params
    slots := hexp.slots
    vregs := hexp.vregs
    shaped := Func.shaped_withFlow hf3 hreach
    flows := Func.flows_withFlow hf3.nodup hf3.blocks hreach
    start := hfresh _ hf.entry
    opening := ?_
    layout := fun b hb hne => hexp.layout b (hmem b hb hne)
    fresh := fun h => hfresh _ h rfl
    code := fun b hb hne => ?_ }⟩
  · rw [Func.instrs_withFlow, ← hexp.params, ← hexp.entry]
    exact (hcode f2.blocks.size).trans (if_pos rfl)
  · rw [Func.instrs_withFlow, (hcode b).trans (if_neg hne)]
    exact hexp.code b (hmem b hb hne)

/-- **Making the convention explicit succeeds** on functions of good shape. -/
theorem exists_conventional (hf : f.Shaped) :
    ∃ g, applyConvention f = .ok g ∧ Conventional f g := by
  obtain ⟨reach, hflow, hreach⟩ := Func.computeFlow_spec hf
  obtain ⟨g, hg, hfg⟩ := exists_bindParams hf (expanded_expandFunc hf hreach)
  refine ⟨g, ?_, hfg⟩
  rw [applyConvention, hflow]
  exact hg

/-! ## The convention is explicit -/

theorem phys_mem_liveAt_conforms {lo hi : Nat} {out : RegSet} {code code' : List Instr}
    (h : Replaced (Conforms lo hi) code code') (hcode : ∀ i ∈ code, ∀ o ∈ i.operands, NoPhys o)
    {q : PhysReg} (hq : .phys q ∈ liveAt out code') : .phys q ∈ out := by
  induction h with
  | nil => exact hq
  | cons h _ ih =>
    obtain ⟨hi, hcode⟩ := forall_mem_cons.1 hcode
    exact ih hcode (h.phys_mem_liveAt hi hq)

theorem phys_mem_liveAt_bindings {params : List (VReg × Nat)} {start : BlockId} {q : PhysReg}
    (hq : .phys q ∈ liveAt ∅ (bindings params ++ [.jump start])) :
    ∃ x ∈ params, PhysReg.params[x.2]? = some q := by
  induction params with
  | nil =>
    rcases phys_mem_liveAt_cons hq with hq | hq
    · simp [Instr.sources] at hq
    · simp at hq
  | cons x params ih =>
    rcases phys_mem_liveAt_cons hq with hq | hq
    · refine ⟨x, mem_cons_self, ?_⟩
      simp only [bindParam] at hq
      split at hq
      · next r hr => simpa [Instr.sources, hr, eq_comm] using hq
      · simp [Instr.sources, Address.operands] at hq
    · obtain ⟨y, hy, heq⟩ := ih hq.1
      exact ⟨y, mem_cons_of_mem _ hy, heq⟩

theorem abides_bindParam (v : VReg) (i : Nat) : Abides (bindParam v i) := by
  unfold bindParam
  split
  · next r hr =>
    refine ⟨⟨by simp, by simp, by simp⟩, ?_⟩
    simp only [Instr.operands, Instr.dst?, Instr.sources, Option.toList_some, cons_append,
      nil_append, mem_cons, reduceCtorEq, Operand.phys.injEq, false_or, not_mem_nil,
      or_false]
    rintro q rfl
    exact params_subset_callerSaved (mem_of_getElem? hr)
  · exact ⟨⟨by simp, by simp, by simp⟩,
      by simp [Instr.operands, Instr.dst?, Instr.sources, Address.operands]⟩

theorem vreg_mem_bindParam {u v : VReg} {i : Nat} (h : .vreg v ∈ (bindParam u i).operands) :
    v = u := by
  unfold bindParam at h
  split at h
  · simpa [Instr.operands, Instr.dst?, Instr.sources] using h
  · simpa [Instr.operands, Instr.dst?, Instr.sources, Address.operands] using h

theorem abides_jump (t : BlockId) : Abides (.jump t) :=
  ⟨⟨by simp, by simp, by simp⟩, by simp [Instr.operands, Instr.dst?, Instr.sources]⟩

theorem mem_opening (h : Conventional f g) {j : Instr} (hj : j ∈ g.code g.entry) :
    (∃ v ∈ f.params, ∃ i < f.params.length, j = bindParam v i) ∨ j = .jump f.entry := by
  rw [h.opening, mem_append, mem_singleton] at hj
  rcases hj with hj | hj
  · obtain ⟨⟨v, i⟩, hv, rfl⟩ := mem_map.1 hj
    obtain ⟨hi, hv⟩ := mem_zipIdx' hv
    exact .inl ⟨v, hv ▸ getElem_mem _, i, hi, rfl⟩
  · exact .inr hj

/-- What holds of the moves of parameters and of the code for each instruction holds of the whole
function. -/
theorem Conventional.every {P : Instr → Prop} (h : Conventional f g)
    (hbind : ∀ v ∈ f.params, ∀ i < f.params.length, P (bindParam v i)) (hjump : P (.jump f.entry))
    (hcode : ∀ b ∈ f.layout, ∀ i ∈ f.code b, ∀ new, Conforms f.vregCount g.vregCount i new →
      ∀ j ∈ new, P j) : g.Every P := by
  intro b hb j hj
  by_cases hbe : b = g.entry
  · subst hbe
    rcases mem_opening h hj with ⟨v, hv, i, hi, rfl⟩ | rfl
    · exact hbind v hv i hi
    · exact hjump
  · obtain ⟨i, hi, new, hnew, hj⟩ := (h.code b hb hbe).exists_of_mem hj
    exact hcode b (h.layout b hb hbe) i hi new hnew j hj

theorem Conventional.routed (h : Conventional f g) : g.Every Routed :=
  h.every (fun v _ i _ => (abides_bindParam v i).toRouted) (abides_jump _).toRouted
    fun _ _ _ _ _ hnew j hj => (hnew.part j hj).routed

theorem Conventional.phys (h : Conventional f g)
    (hno : f.Every fun i => ∀ o ∈ i.operands, NoPhys o) :
    g.Every fun i => ∀ q, .phys q ∈ i.operands → q ∈ PhysReg.callerSaved := by
  refine h.every (fun v _ i _ => (abides_bindParam v i).phys) (abides_jump _).phys ?_
  intro b hb i hi new hnew j hj q hq
  refine hnew.operands (Q := fun o => ∀ q, o = .phys q → q ∈ PhysReg.callerSaved) ?_ ?_ ?_ ?_ j hj
    _ hq q rfl
  · simp
  · simp
  · rintro - q hq _ ⟨⟩
    exact hq
  · exact fun o ho q heq => absurd heq (hno b hb i hi o ho q)

theorem Conventional.abiding (h : Conventional f g) (hparams : ∀ v ∈ f.params, v < f.vregCount)
    (hregs : f.Every fun i => ∀ v, .vreg v ∈ i.operands → v < f.vregCount)
    (hno : f.Every fun i => ∀ o ∈ i.operands, NoPhys o) : Abiding g where
  shaped := h.shaped
  flows := h.flows
  regs := by
    refine h.every ?_ (by simp [Instr.operands, Instr.dst?, Instr.sources]) ?_
    · intro u hu i _ v hv
      rw [vreg_mem_bindParam hv]
      exact Nat.lt_of_lt_of_le (hparams u hu) h.vregs
    · intro b hb i hi new hnew j hj v hv
      refine hnew.operands (Q := fun o => ∀ v, o = .vreg v → v < g.vregCount) ?_ ?_ ?_ ?_ j hj _ hv v
        rfl
      · rintro t _ ht _ ⟨⟩
        exact ht
      · simp
      · simp
      · rintro o ho u rfl
        exact Nat.lt_of_lt_of_le (hregs b hb i hi u ho) h.vregs
  abides := fun b hb j hj => ⟨h.routed b hb j hj, h.phys hno b hb j hj⟩

theorem Conventional.entered (h : Conventional f g) (hf : f.Shaped) :
    ∀ b ∈ g.layout, g.entry ∉ (g.block b).targets := by
  intro b hb ht
  by_cases hbe : b = g.entry
  · subst hbe
    rw [EndsOnce.targets h.opening rfl] at ht
    exact h.start (mem_singleton.1 ht).symm
  · have hbf := h.layout b hb hbe
    rw [(endsOnce_conforms (h.code b hb hbe) (hf.ends b hbf)).2] at ht
    exact h.fresh (hf.targets b hbf _ ht)

/-- **The convention is explicit** in what comes of a well-formed function without physical
registers. -/
theorem Conventional.settled (h : Conventional f g) (hf : f.WellFormed p)
    (hno : f.Every fun i => ∀ o ∈ i.operands, NoPhys o) : Settled f.params.length g where
  toAbiding := h.abiding hf.params (fun b hb i hi => (hf.instrs b hb i hi).regs) hno
  entered := h.entered hf.shaped
  quiet := by
    intro b hb hbe q hq
    simpa using phys_mem_liveAt_conforms (h.code b hb hbe) (hno b (h.layout b hb hbe)) hq
  opening := by
    intro q hq
    rw [h.opening] at hq
    obtain ⟨⟨v, i⟩, hv, hi⟩ := phys_mem_liveAt_bindings hq
    obtain ⟨hlt, heq⟩ := List.getElem?_eq_some_iff.1 hi
    have hi' : i < f.params.length := (mem_zipIdx' hv).1
    exact mem_take_iff_getElem.2 ⟨i, Nat.lt_min.2 ⟨hi', hlt⟩, heq⟩

/-! ## Programs -/

def NoPhysRegs (p : Program) : Prop :=
  ∀ f ∈ p.functions, f.Every fun i => ∀ o ∈ i.operands, NoPhys o

def arity (p : Program) (id : FuncId) : Nat := (p.functions[id]?.map (·.params.length)).getD 0

theorem arity_eq {id : FuncId} (hf : p.functions[id]? = some f) : arity p id = f.params.length := by
  rw [arity, hf]
  rfl

/-- **Making the convention explicit succeeds** on programs whose functions have a good shape. -/
theorem exists_conventionalProgram (hp : ∀ f ∈ p.functions, f.Shaped) :
    ∃ gs, conventional p = .ok (withFunctions p gs) ∧
      List.Forall₂ Conventional p.functions.toList gs := by
  have heach : ∀ f ∈ p.functions.toList, ∃ g, applyConvention f = .ok g ∧ Conventional f g :=
    fun f hf => exists_conventional (hp f (by simpa using hf))
  obtain ⟨gs, hgs, hrel⟩ := exists_mapM_eq_ok heach
  refine ⟨gs, ?_, hrel⟩
  rw [conventional, Program.mapFunctionsM, hgs]
  rfl

theorem settledProgram_conventional (hp : p.WellFormed) (hno : NoPhysRegs p) {gs : List Func}
    (hgs : List.Forall₂ Conventional p.functions.toList gs) :
    SettledProgram (arity p) (withFunctions p gs) := by
  intro id g hg
  obtain ⟨f, hf, hfg⟩ := forall₂_getElem? hgs.flip (functions_withFunctions.1 hg)
  rw [Array.getElem?_toList] at hf
  have hmem : f ∈ p.functions := Array.mem_of_getElem? hf
  have hfp := hp f hmem
  have hset := hfg.settled hfp (hno f hmem)
  rw [arity_eq hf]
  refine ⟨hset, fun b hb dst callee args n hj => ?_⟩
  by_cases hbe : b = g.entry
  · subst hbe
    rcases mem_opening hfg hj with ⟨v, _, i, _, heq⟩ | heq
    · have hcall := (sources_bindParam v i).1.2
      rw [← heq] at hcall
      cases hcall
    · cases heq
  · obtain ⟨i, hi, new, hnew, hj⟩ := (hfg.code b hb hbe).exists_of_mem hj
    obtain ⟨dst', args', n', rfl, hlen⟩ := (hnew.part _ hj).eq_call
    obtain ⟨f', hf', hargs⟩ :=
      (hfp.instrs b (hfg.layout b hb hbe) _ hi).calls dst' callee args' n' rfl
    rw [arity_eq hf', ← hargs, hlen, Nat.min_comm]

theorem routedProgram_conventional {gs : List Func}
    (hgs : List.Forall₂ Conventional p.functions.toList gs) :
    RoutedProgram (withFunctions p gs) := by
  intro id g hg
  obtain ⟨f, _, hfg⟩ := forall₂_getElem? hgs.flip (functions_withFunctions.1 hg)
  exact ⟨hfg.shaped, hfg.routed⟩

theorem opens_conventional (h : Conventional f g) : Opens g :=
  ⟨f.entry, by rw [h.opening, h.params]⟩

end MxStar.Alloc
