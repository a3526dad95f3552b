import MxStar.Proofs.StackBalance

/-!
The form of allocated functions.

Selection of machine instructions relies on where the stages before it put dividends, divisors and
shifted values (`Arranged`), on the registers of an allocated function being those of the palette and
of the convention, and on nothing jumping to its entry (`Emittable`).
-/
namespace MxStar.Alloc

open IR

variable {f g : Func} {palette : List PhysReg} {i : Instr}

/-! ## Arranged instructions -/

/-- What the convention arranges for the machine. -/
def Arranged : Instr → Prop
  | .binary dst op lhs rhs =>
    (op = .div ∨ op = .mod →
      dst = .phys (divisionResult op) ∧ lhs = .phys .rax ∧ ∃ v, rhs = .vreg v) ∧
    (op = .shl ∨ op = .shr → lhs = dst)
  | .ret (some v) => v = .phys .rax
  | _ => True

theorem arranged_binary {dst lhs rhs : Operand} {op : BinOp}
    (h : op ≠ .div ∧ op ≠ .mod ∧ op ≠ .shl ∧ op ≠ .shr) : Arranged (.binary dst op lhs rhs) := by
  obtain ⟨hdiv, hmod, hshl, hshr⟩ := h
  exact ⟨fun hop => (hop.elim hdiv hmod).elim, fun hop => (hop.elim hshl hshr).elim⟩

theorem arranged_shift {dst rhs : Operand} {op : BinOp} (hop : op = .shl ∨ op = .shr) :
    Arranged (.binary dst op dst rhs) := by
  refine ⟨fun hdiv => ?_, fun _ => rfl⟩
  rcases hop with rfl | rfl <;> simp at hdiv

theorem Part.arranged {j : Instr} (h : Part i j) (hops : ∀ o ∈ i.operands, NoPhys o) :
    Arranged j := by
  cases h with
  | setup h =>
    cases h with
    | move => trivial
    | add => exact arranged_binary (by decide)
  | divide hop hreg hsrc =>
    rename_i op divisor
    have hdivisor : ∃ v, divisor = .vreg v := by
      rcases hsrc with hsrc | hsrc
      · cases divisor with
        | vreg v => exact ⟨v, rfl⟩
        | phys q => exact absurd rfl (hops _ (mem_operands_of_source hsrc) q)
        | imm | static => cases hreg
      · exact hsrc
    refine ⟨fun _ => ⟨rfl, rfl, hdivisor⟩, fun hshift => ?_⟩
    rcases hop with rfl | rfl <;> simp at hshift
  | shift hop => exact arranged_shift hop
  | binary hop => exact arranged_binary hop
  | ret => exact rfl
  | same hi => rcases hi with ⟨s, rfl⟩ | ⟨t, rfl⟩ | rfl <;> trivial
  | _ => trivial

theorem arranged_renameVReg (τ : VReg → VReg) (h : Arranged i) :
    Arranged (i.mapOperands (renameVReg τ)) := by
  cases i with
  | binary dst op lhs rhs =>
    refine ⟨fun hop => ?_, fun hop => congrArg (renameVReg τ) (h.2 hop)⟩
    obtain ⟨rfl, rfl, v, rfl⟩ := h.1 hop
    exact ⟨rfl, rfl, τ v, rfl⟩
  | ret v =>
    cases v with
    | none => trivial
    | some v =>
      have hv : v = .phys .rax := h
      rw [hv]
      exact rfl
  | _ => trivial

theorem SpillsTo.arranged {slots : Slots} {lo hi : Nat} {new : List Instr}
    (h : SpillsTo slots lo hi i new) (hi : Arranged i) : ∀ j ∈ new, Arranged j := by
  intro j hj
  obtain ⟨_, _, -, -, -, rfl⟩ | ⟨_, _, -, -, -, rfl⟩ | ⟨τ, -, rfl⟩ := h.cases_mem hj
  · trivial
  · trivial
  · exact arranged_renameVReg τ hi

/-! ## Functions before colouring -/

/-- A function in which the convention is explicit, as far as selection is concerned. -/
structure Prepared (f : Func) : Prop where
  stacked : Stacked f
  entered : ∀ b ∈ f.layout, f.entry ∉ (f.block b).targets
  regs : f.Every fun i => ∀ q, .phys q ∈ i.operands → q ∈ PhysReg.callerSaved
  arranged : f.Every Arranged

theorem Conventional.prepared (h : Conventional f g) (hf : f.Shaped)
    (hpush : f.Every fun i => ∀ v, i ≠ .push v)
    (hno : f.Every fun i => ∀ o ∈ i.operands, NoPhys o) : Prepared g where
  stacked := h.stacked hpush
  entered := h.entered hf
  regs := h.phys hno
  arranged := by
    refine h.every (fun v _ i _ => ?_) trivial fun b hb i hi new hnew j hj =>
      (hnew.part j hj).arranged (hno b hb i hi)
    rw [bindParam]
    split <;> trivial

theorem Spilled.prepared {slots : Slots} (h : Spilled slots f g) (hf : Prepared f) : Prepared g where
  stacked := h.stacked hf.stacked
  entered := by
    intro b hb
    have hbf : b ∈ f.layout := h.layout ▸ hb
    rw [h.entry, (h.ends hbf (hf.stacked.shaped.ends b hbf)).2]
    exact hf.entered b hbf
  regs := by
    intro b hb j hj q hq
    obtain ⟨i, hi, new, hs, hj⟩ := h.exists_of_mem (h.layout ▸ hb) hj
    obtain ⟨u, hu, _⟩ | ⟨ho, _⟩ := hs.mem_operands hj hq
    · cases hu
    · exact hf.regs b (h.layout ▸ hb) i hi q ho
  arranged := by
    intro b hb j hj
    obtain ⟨i, hi, new, hs, hj⟩ := h.exists_of_mem (h.layout ▸ hb) hj
    exact hs.arranged (hf.arranged b (h.layout ▸ hb) i hi) j hj

/-! ## Allocated functions -/

/-- What selection relies on: a division has its operands where the machine expects them and leaves
its divisor alone, a shift is in place, and a value is returned in its register. -/
def InPlace : Instr → Prop
  | .binary dst op lhs rhs =>
    (op = .div ∨ op = .mod →
      dst = .phys (divisionResult op) ∧ lhs = .phys .rax ∧ rhs ≠ .phys .rax ∧ rhs ≠ .phys .rdx) ∧
    (op = .shl ∨ op = .shr → lhs = dst)
  | .ret (some v) => v = .phys .rax
  | _ => True

/-- A function whose registers are allocated. -/
structure Emittable (f : Func) : Prop where
  stacked : Stacked f
  entered : ∀ b ∈ f.layout, f.entry ∉ (f.block b).targets
  regs : f.Every fun i => ∀ q, .phys q ∈ i.operands → q ≠ .rsp ∧ q ≠ .rbp
  inPlace : f.Every InPlace

theorem mem_allocatable_of_callerSaved {q : PhysReg} (h : q ∈ PhysReg.callerSaved) :
    q ∈ PhysReg.allocatable := by
  revert q
  decide

theorem ne_pointers_of_allocatable {q : PhysReg} (h : q ∈ PhysReg.allocatable) :
    q ≠ .rsp ∧ q ≠ .rbp := by
  revert q
  decide

theorem inPlace_colorOperand {c : Coloring} (hc : Coloured f g c) {b : BlockId} (hb : b ∈ f.layout)
    (hi : i ∈ f.code b) (h : Arranged i) : InPlace (i.mapOperands (colorOperand c)) := by
  cases i with
  | binary dst op lhs rhs =>
    refine ⟨fun hop => ?_, fun hop => congrArg (colorOperand c) (h.2 hop)⟩
    obtain ⟨rfl, rfl, v, rfl⟩ := h.1 hop
    obtain ⟨q, hq⟩ := hc.total b hb _ hi v (by simp [Instr.operands, Instr.sources])
    have hcolor : colorOperand c (.vreg v) = .phys q := colorOperand_of_reg? rfl hq
    obtain ⟨pre, post, hsplit⟩ := List.append_of_mem hi
    have hapart : ∀ r, (.vreg v, .phys r) ∈
        shapePairs (.binary (.phys (divisionResult op)) op (.phys .rax) (.vreg v)) → q ≠ r := by
      intro r hr hqr
      have hclash : Clash (.binary (.phys (divisionResult op)) op (.phys .rax) (.vreg v))
          (liveAt ((analyze f).atEnd b) post) (.virt v) (.phys r) := .inr ⟨_, hr, rfl, rfl⟩
      exact hc.apart b hb _ post ⟨pre, hsplit.symm⟩ _ _ hclash (by simp) (.inl ⟨v, rfl⟩) r
        (hqr ▸ hq) rfl
    have hpairs : shapePairs (.binary (.phys (divisionResult op)) op (.phys .rax) (.vreg v)) =
        [(.vreg v, .phys .rax), (.vreg v, .phys .rdx)] := by
      rcases hop with rfl | rfl <;> rfl
    rw [hpairs] at hapart
    refine ⟨rfl, rfl, ?_, ?_⟩
    · exact fun h => hapart .rax (by simp) (Operand.phys.inj (hcolor.symm.trans h))
    · exact fun h => hapart .rdx (by simp) (Operand.phys.inj (hcolor.symm.trans h))
  | ret v =>
    cases v with
    | none => trivial
    | some v =>
      have hv : v = .phys .rax := h
      rw [hv]
      exact rfl
  | _ => trivial

theorem emittable_applyColoring (hf : Prepared f) (hpal : ∀ q ∈ palette, q ∈ PhysReg.allocatable)
    {unspillable : SortedSet VReg} {c : Coloring}
    (hc : color (.build f (analyze f)) palette unspillable = .ok c) (hu : uncoloured c f = []) :
    Emittable (applyColoring c f) := by
  have hcol := coloured_applyColoring hf.stacked.shaped hpal hc hu
  have hlayout := layout_applyColoring hf.stacked.shaped c
  -- Every instruction is one of the function before, with other operands.
  have hmem : ∀ {b j}, b ∈ (applyColoring c f).layout → j ∈ (applyColoring c f).code b →
      b ∈ f.layout ∧ ∃ i ∈ f.code b, i.mapOperands (colorOperand c) = j := by
    intro b j hb hj
    rw [hlayout] at hb
    rw [hcol.code b hb] at hj
    exact ⟨hb, List.mem_map.1 hj⟩
  refine ⟨stacked_applyColoring hf.stacked c, ?_, ?_, ?_⟩
  · intro b hb
    rw [hlayout] at hb
    rw [hcol.entry, (ends_applyColoring hf.stacked.shaped c hb).2]
    exact hf.entered b hb
  · intro b hb j hj q hq
    obtain ⟨hb, i, hi, rfl⟩ := hmem hb hj
    rw [operands_mapOperands] at hq
    obtain ⟨o, ho, hoq⟩ := List.mem_map.1 hq
    refine ne_pointers_of_allocatable ?_
    cases o with
    | phys q' =>
      cases hoq
      exact mem_allocatable_of_callerSaved (hf.regs b hb i hi q ho)
    | vreg v =>
      obtain ⟨q', hq'⟩ := hcol.total b hb i hi v ho
      have hcolor : colorOperand c (.vreg v) = .phys q' := colorOperand_of_reg? rfl hq'
      rw [hcolor] at hoq
      cases hoq
      exact hcol.palette v q hq'
    | imm | static => cases hoq
  · intro b hb j hj
    obtain ⟨hb, i, hi, rfl⟩ := hmem hb hj
    exact inPlace_colorOperand hcol hb hi (hf.arranged b hb i hi)

theorem emittable_allocateFrom (hpal : ∀ q ∈ palette, q ∈ PhysReg.allocatable) {fuel : Nat}
    {unspillable : SortedSet VReg} {stats stats' : Stats} (hf : Prepared f)
    (h : allocateFrom palette fuel f unspillable stats = .ok (g, stats')) : Emittable g :=
  allocateFrom_induct (fun _ hs hf => hs.prepared hf)
    (fun _ hc hu hf => emittable_applyColoring hf hpal hc hu) hf.stacked.shaped hf h

/-- **What comes out of register allocation has the form that selection relies on.** -/
theorem emittable_allocated {p q r : Program} (hp : ∀ f ∈ p.functions, f.Shaped) (hpush : NoPush p)
    (hno : NoPhysRegs p) (hq : conventional p = .ok q)
    (hpal : ∀ x ∈ palette, x ∈ PhysReg.allocatable) {stats : List Stats}
    (hr : allocated palette q = .ok (r, stats)) (hf : f ∈ r.functions) : Emittable f := by
  obtain ⟨f0, g, stats', hf0, hconv, halloc⟩ := exists_source hp hq hr hf
  exact emittable_allocateFrom hpal (hconv.prepared (hp f0 hf0) (hpush f0 hf0) (hno f0 hf0)) halloc

end MxStar.Alloc
