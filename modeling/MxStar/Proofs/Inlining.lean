import MxStar.Proofs.InlinedRuns

/-!
Inlining keeps results.

One splice keeps the results of every call, if the code of the program is portable, and the program with the
copy is portable again (`portableProgram_spliced`). So all splices of a chain keep results.
-/
namespace MxStar.Pass

open IR Interp Alloc List

variable {i : Instr}

variable {p q : Program} {s : Site} {g : Func} {fid : FuncId}

/-! ## The code of a splice -/

theorem Spliced.mem_code (h : Spliced s g) {b : BlockId} (hi : i ∈ g.code b) :
    (∃ b', i ∈ s.caller.code b') ∨ i ∈ s.copy.enter s.args ∨
      ∃ b', ∃ j ∈ s.callee.code b', i ∈ s.copy.instr s.dst j := by
  have hcode := s.code
  by_cases hblock : b = s.block
  · rw [hblock, h.head] at hi
    rcases mem_append.1 hi with hi | hi
    · refine .inl ⟨s.block, ?_⟩
      rw [hcode]
      exact mem_append_left _ hi
    · exact .inr (.inl hi)
  by_cases hold : b < s.caller.blocks.size
  · rw [h.other b hold hblock] at hi
    exact .inl ⟨b, hi⟩
  by_cases hjoin : b = s.copy.join
  · rw [hjoin, h.joined] at hi
    refine .inl ⟨s.block, ?_⟩
    rw [hcode]
    exact mem_append_right _ (mem_cons_of_mem _ hi)
  by_cases hcopy : ∃ c ∈ s.copy.order, s.copy.target c = b
  · obtain ⟨c, hc, rfl⟩ := hcopy
    rw [h.copied c hc] at hi
    obtain ⟨j, hj, hij⟩ := mem_flatMap.1 hi
    exact .inr (.inr ⟨c, j, hj, hij⟩)
  · have hnone : ∀ c ∈ s.copy.order, s.copy.target c ≠ b := fun c hc hcb => hcopy ⟨c, hc, hcb⟩
    rw [h.empty b (Nat.le_of_not_lt hold) hjoin hnone] at hi
    cases hi

theorem mem_instr {j : Instr} (h : i ∈ s.copy.instr s.dst j) :
    ((∀ v, j ≠ .ret v) ∧ i = image s.caller.vregCount s.copy.target j) ∨ i = .jump s.copy.join ∨
      ∃ d v, s.dst = some d ∧ j = .ret (some v) ∧ i = .move d (shift s.caller.vregCount v) := by
  by_cases hj : ∃ v, j = .ret v
  · obtain ⟨v, rfl⟩ := hj
    cases v with
    | none =>
      cases hdst : s.dst <;> rw [hdst] at h <;> exact .inr (.inl (mem_singleton.1 h))
    | some v =>
      cases hdst : s.dst with
      | none =>
        rw [hdst] at h
        exact .inr (.inl (mem_singleton.1 h))
      | some d =>
        have hpair : i ∈ [.move d (shift s.caller.vregCount v), .jump s.copy.join] := by
          rw [hdst] at h
          rw [← operand_copy]
          exact h
        rcases mem_cons.1 hpair with hi | hi
        · exact .inr (.inr ⟨d, v, rfl, rfl, hi⟩)
        · exact .inr (.inl (mem_singleton.1 hi))
  · have hne : ∀ v, j ≠ .ret v := fun v hv => hj ⟨v, hv⟩
    rw [instr_copy hne] at h
    exact .inl ⟨hne, mem_singleton.1 h⟩

theorem mem_enter (h : i ∈ s.copy.enter s.args) :
    (∃ t, i = .jump t) ∨ ∃ v a, a ∈ s.args ∧ i = .move (.vreg v) a := by
  rcases mem_append.1 h with h | h
  · obtain ⟨⟨v, a⟩, hmem, rfl⟩ := mem_map.1 h
    exact .inr ⟨_, a, (of_mem_zip hmem).2, rfl⟩
  · exact .inl ⟨_, mem_singleton.1 h⟩

/-- A copy has no returns, so the caller gives values if it did before. -/
theorem Spliced.givesValues (h : Spliced s g) (hf : GivesValues s.caller) : GivesValues g := by
  intro b hb
  obtain ⟨b', hold⟩ | henter | ⟨b', j, -, hcopy⟩ := h.mem_code hb
  · exact hf b' hold
  · obtain ⟨t, ht⟩ | ⟨v, a, -, ha⟩ := mem_enter henter
    · cases ht
    · cases ha
  · obtain ⟨hne, himage⟩ | hjump | ⟨d, v, -, -, hmove⟩ := mem_instr hcopy
    · cases j with
      | ret v => exact hne v rfl
      | _ => cases himage
    · cases hjump
    · cases hmove

/-! ## Portable programs -/

/-- Calls of a program are calls of another whose functions take and give as much. -/
theorem Portable.transfer (h : Portable p i)
    (hq : ∀ (id : FuncId) (f : Func), p.functions[id]? = some f → ∃ f', q.functions[id]? = some f' ∧
      f'.params = f.params ∧ (GivesValues f → GivesValues f')) : Portable q i := by
  refine ⟨h.noPhys, h.noStack, fun dst id args n hi => ?_⟩
  obtain ⟨f, hf, hlen, hgives⟩ := h.calls dst id args n hi
  obtain ⟨f', hf', hparams, hkeeps⟩ := hq id f hf
  exact ⟨f', hf', hparams ▸ hlen, fun hdst => hkeeps (hgives hdst)⟩

theorem portable_jump (b : BlockId) : Portable p (.jump b) :=
  ⟨forall_operands_jump, ⟨fun _ h => (nomatch h), fun _ h => (nomatch h), fun _ h => (nomatch h)⟩,
    fun _ _ _ _ h => nomatch h⟩

theorem portable_move {d v : Operand} (hd : NoPhys d) (hv : NoPhys v) : Portable p (.move d v) :=
  ⟨forall_operands_move.2 ⟨hd, hv⟩,
    ⟨fun _ h => (nomatch h), fun _ h => (nomatch h), fun _ h => (nomatch h)⟩,
    fun _ _ _ _ h => nomatch h⟩

theorem noPhys_shift {base : VReg} {o : Operand} (h : NoPhys o) : NoPhys (shift base o) :=
  fun r hr => h r (renameVReg_eq_phys.1 hr)

theorem Portable.image (h : Portable p i) (base : VReg) (t : BlockId → BlockId) :
    Portable p (image base t i) := by
  have hoperands : (Pass.image base t i).operands = (i.mapOperands (shift base)).operands := by
    rw [Pass.image]
    cases i.mapOperands (shift base) <;> rfl
  refine ⟨?_, ?_, fun dst id args n hi => ?_⟩
  · intro o ho
    rw [hoperands, operands_mapOperands] at ho
    obtain ⟨o', ho', rfl⟩ := mem_map.1 ho
    exact noPhys_shift (h.noPhys o' ho')
  · have hstack := noStack_mapOperands h.noStack (shift base)
    rw [Pass.image]
    generalize i.mapOperands (shift base) = j at hstack ⊢
    cases j with
    | jump | branch => constructor <;> intro _ h <;> cases h
    | _ => exact hstack
  · cases i with
    | call dst' callee args' n' =>
      cases hi
      obtain ⟨f, hf, hlen, hgives⟩ := h.calls dst' id args' n rfl
      refine ⟨f, hf, (length_map _).trans hlen, fun hdst => hgives ?_⟩
      rwa [Option.isSome_map] at hdst
    | _ => cases hi

/-- **A program stays portable** when a call in it is inlined. -/
theorem portableProgram_spliced (h : PortableSplice p q s g fid) : PortableProgram q := by
  have hq : ∀ (id : FuncId) (f : Func), p.functions[id]? = some f →
      ∃ f', q.functions[id]? = some f' ∧ f'.params = f.params ∧ (GivesValues f → GivesValues f') := by
    intro id f hf
    rw [h.functions]
    by_cases hid : id = fid
    · subst hid
      obtain rfl : s.caller = f := Option.some.inj (h.caller.symm.trans hf)
      exact ⟨g, if_pos rfl, h.spliced.params, h.spliced.givesValues⟩
    · exact ⟨f, (if_neg hid).trans hf, rfl, fun hgives => hgives⟩
  intro f hf
  obtain ⟨id, hid⟩ := Array.getElem?_of_mem hf
  rw [h.functions] at hid
  split at hid
  · cases hid
    refine ⟨fun v hv => ?_, fun b i hi => ?_⟩
    · rw [h.spliced.params] at hv
      rw [h.spliced.vregs]
      exact Nat.lt_of_lt_of_le (h.callerPortable.params v hv) (Nat.le_add_right _ _)
    · obtain ⟨hdst, hargs⟩ := forall_operands_call.1 h.site.noPhys
      obtain ⟨b', hold⟩ | henter | ⟨b', j, hj, hcopy⟩ := h.spliced.mem_code hi
      · exact (h.callerPortable.instrs b' i hold).transfer hq
      · obtain ⟨t, rfl⟩ | ⟨v, a, ha, rfl⟩ := mem_enter henter
        · exact portable_jump t
        · exact portable_move (noPhys_vreg v) (hargs a ha)
      · have hportable := h.calleePortable.instrs b' j hj
        obtain ⟨-, rfl⟩ | rfl | ⟨d, v, hd, rfl, rfl⟩ := mem_instr hcopy
        · exact (hportable.image _ _).transfer hq
        · exact portable_jump _
        · refine portable_move (hdst d hd) (noPhys_shift ?_)
          exact forall_operands_ret.1 hportable.noPhys v rfl
  · have hportable := h.portable f (Array.mem_of_getElem? hid)
    exact ⟨hportable.params, fun b i hi => (hportable.instrs b i hi).transfer hq⟩

/-! ## Inlining -/

theorem keepsResults_inlines (h : Relation.ReflTransGen Inlines p q) (hp : PortableProgram p) :
    PortableProgram q ∧ KeepsResults p q := by
  induction h with
  | refl => exact ⟨hp, .refl p⟩
  | tail _ hlast ih =>
    obtain ⟨hportable, hkeeps⟩ := ih
    obtain ⟨s, g, fid, hspliced⟩ := hlast
    have hsplice : PortableSplice _ _ s g fid := ⟨hspliced, hportable⟩
    exact ⟨portableProgram_spliced hsplice, hkeeps.trans (keepsResults_spliced hsplice)⟩

/-- **Inlining keeps results.** Whatever its limits, a call that returns a value with some output
returns the same value with the same output after inlining. -/
theorem callEnds_inlineCalls (hp : PortableProgram p) (limits : InlineLimits) {id : FuncId}
    {args : List Word} {input : String} {o : Outcome} (h : CallEnds p id args input (.ok o)) :
    CallEnds (inlineCalls limits p) id args input (.ok o) :=
  (keepsResults_inlines (inlines_inlineCalls limits p) hp).2 id args input o h

/-- A program that counts down to zero by calling a function with two returns in a loop. -/
def countdown : Program where
  functions := #[{
    name := "pred"
    label := "pred"
    params := [0]
    blocks := #[
      { name := "entry", instrs := [.branch .lt (.vreg 0) (.imm 1) 1 2] },
      { name := "zero", instrs := [.ret (some (.imm 0))] },
      { name := "less", instrs := [.binary (.vreg 1) .sub (.vreg 0) (.imm 1), .ret (some (.vreg 1))] }]
    layout := [0, 1, 2]
    hints := #["n", "m"] }, {
    name := "count"
    label := "count"
    params := [0]
    blocks := #[
      { name := "entry", instrs := [.branch .gt (.vreg 0) (.imm 0) 1 2] },
      { name := "body", instrs := [.call (some (.vreg 0)) (.func 0) [.vreg 0] 0, .jump 0] },
      { name := "done", instrs := [.ret (some (.vreg 0))] }]
    layout := [0, 1, 2]
    hints := #["n"] }]

theorem portable_countdown : PortableProgram countdown := by
  -- All instructions are those of one of the six blocks.
  have hcode : ∀ {P : Instr → Prop}, (∀ f ∈ countdown.functions.toList, ∀ block ∈ f.blocks.toList,
      ∀ i ∈ block.instrs, P i) → ∀ f ∈ countdown.functions, ∀ b, ∀ i ∈ f.code b, P i := by
    intro P h f hf b i hi
    obtain ⟨block, hblock, hmem⟩ := Func.mem_code hi
    exact h f hf.val block hblock.val i hmem
  have hgives : ∀ f ∈ countdown.functions, GivesValues f := fun f hf b hb =>
    hcode (P := fun i => i ≠ .ret none) (by decide) f hf b _ hb rfl
  have hcall : ∀ f ∈ countdown.functions, ∀ b, ∀ i ∈ f.code b, ∀ dst id args n,
      i = .call dst (.func id) args n → i = .call (some (.vreg 0)) (.func 0) [.vreg 0] 0 := by
    refine hcode (P := fun i => ∀ dst id args n, i = .call dst (.func id) args n → _) ?_
    simp [countdown]
  intro f hf
  refine ⟨by revert f; decide, fun b i hi => ⟨?_, ?_, ?_⟩⟩
  · refine hcode (P := fun i => ∀ o ∈ i.operands, NoPhys o) ?_ f hf b i hi
    simp [countdown, Instr.operands, Instr.dst?, Instr.sources, NoPhys, or_imp, forall_and]
  · refine hcode (P := NoStack) ?_ f hf b i hi
    simp [countdown, noStack_iff, Instr.address?]
  · intro dst id args n hi'
    cases hi'.symm.trans (hcall f hf b i hi dst id args n hi')
    exact ⟨_, rfl, rfl, fun _ => hgives _ (Array.getElem_mem _)⟩

theorem callEnds_inlineCalls_countdown :
    CallEnds countdown 1 [2] "" (.ok ⟨0, ""⟩) ∧
      CallEnds (inlineCalls {} countdown) 1 [2] "" (.ok ⟨0, ""⟩) := by
  have hcall : CallEnds countdown 1 [2] "" (.ok ⟨0, ""⟩) := ⟨20, by decide +kernel⟩
  exact ⟨hcall, callEnds_inlineCalls portable_countdown {} hcall⟩

end MxStar.Pass
