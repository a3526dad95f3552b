import MxStar.Proofs.SpillRounds

/-!
What colouring ends with, for every function, palette and set of registers that may not be spilled.

Colours never conflict, and a failure names registers to spill (`coloring_respects_interference`). Success
may leave registers out, if spilling would help none of them (`uncoloured_only_stranded`,
`color_leaves_out`).
-/
namespace MxStar.Alloc

open IR

variable {f : Func}

theorem regsInRange_of_instrs
    (h : ∀ i ∈ f.instrs, ∀ o ∈ i.operands, ∀ v ∈ o.vreg?, v < f.vregCount) : RegsInRange f :=
  fun _ hb i hi v hv => h i (List.mem_flatMap.2 ⟨_, hb, hi⟩) (.vreg v) hv v rfl

/-! ## Colours do not conflict -/

theorem mem_nodes_of_edge (hf : RegsInRange f) {u v : VReg}
    (h : (Interference.build f (analyze f)).Edge u (.virt v)) :
    v ∈ (Interference.build f (analyze f)).nodes := by
  obtain ⟨b, hb, i, hi, hv⟩ := occurs_of_edge h
  exact Interference.mem_nodes_build.2 ⟨hf b hb i hi v hv, b, hb, i, hi, hv⟩

/-- **Colours never conflict.** All registers that occur are taken out of the graph, each once. Where
colouring succeeds, a colour is from the palette, is not forbidden to its register, and no neighbour has it.
Where it fails, it names at least one register; those that it names occur and may be spilled. -/
theorem coloring_respects_interference {f : Func} (hf : RegsInRange f) (palette : List PhysReg)
    (unspillable : SortedSet VReg) :
    let g := Interference.build f (analyze f)
    ((takenOut g palette unspillable).Perm g.nodes ∧ (takenOut g palette unspillable).Nodup) ∧
    (∀ c, color g palette unspillable = .ok c → ∀ v q, c.get? v = some q →
      v ∈ g.nodes ∧ q ∈ palette ∧ q ∉ g.banned v ∧ ∀ n ∈ g.neighbours v, c.get? n ≠ some q) ∧
    ∀ spills, color g palette unspillable = .error spills →
      (∃ v, v ∈ spills) ∧ ∀ v ∈ spills, v ∈ g.nodes ∧ v ∉ unspillable := by
  intro g
  refine ⟨⟨perm_takenOut .., (pending_takenOut ..).nodup⟩, fun c hc v q hq => ?_, fun spills hs => ?_⟩
  · have hvalid := color_valid hc
    exact ⟨mem_nodes_of_ok hc hq, hvalid.palette v q hq,
      fun hbanned => hvalid.apart v (.phys q) q hbanned hq rfl, fun n hn => hvalid.apart v (.virt n) q hn hq⟩
  · obtain ⟨hne, hspills⟩ := color_spills hs
    refine ⟨hne, fun v hv => ?_⟩
    obtain ⟨hspillable, u, hu, rfl | hedge⟩ := hspills v hv
    · exact ⟨hu, hspillable⟩
    · exact ⟨mem_nodes_of_edge hf hedge, hspillable⟩

/-- Three registers that are live together: two colours are not enough, and the register named may be
spilled; three colours are enough, and differ. -/
theorem coloring_respects_crowded :
    let g := Interference.build crowded (analyze crowded)
    RegsInRange crowded ∧ takenOut g [.rax, .rcx] ∅ = [2, 1, 0] ∧
    (color g [.rax, .rcx] ∅ = .error ⟨[0]⟩ ∧ 0 ∈ g.nodes ∧ 0 ∉ (∅ : SortedSet VReg)) ∧
    color g [.rax, .rcx, .rbx] ∅ = .ok ⟨#[some .rbx, some .rcx, some .rax]⟩ ∧
    ∀ n ∈ g.neighbours 0, Coloring.get? ⟨#[some .rbx, some .rcx, some .rax]⟩ n ≠ some .rbx := by
  intro g
  have hf : RegsInRange crowded := regsInRange_of_instrs (by decide)
  have hfails : color g [.rax, .rcx] ∅ = .error ⟨[0]⟩ := by decide +kernel
  have hcolors : color g [.rax, .rcx, .rbx] ∅ = .ok ⟨#[some .rbx, some .rcx, some .rax]⟩ := by
    decide +kernel
  obtain ⟨-, -, hspills⟩ := coloring_respects_interference hf [.rax, .rcx] ∅
  obtain ⟨-, hapart, -⟩ := coloring_respects_interference hf [.rax, .rcx, .rbx] ∅
  exact ⟨hf, by decide +kernel, ⟨hfails, (hspills _ hfails).2 0 List.mem_cons_self⟩, hcolors,
    (hapart _ hcolors 0 .rbx rfl).2.2.2⟩

/-! ## Registers that are left out -/

theorem FailedRounds.ongoing {palette : List PhysReg} {n : Nat} {g : Func}
    {unspillable unspillable' : SortedSet VReg} {rounds : List Round}
    (h : FailedRounds palette f unspillable rounds g unspillable') (hf : Ongoing n f unspillable) :
    Ongoing n g unspillable' := by
  induction h with
  | none => exact hf
  | more _ _ ih => exact ih (hf.spill _)

theorem of_mem_uncoloured {c : Coloring} {v : VReg} (h : v ∈ uncoloured c f) :
    c.get? v = none ∧ ∃ b ∈ f.layout, ∃ i ∈ f.code b, .vreg v ∈ i.operands := by
  obtain ⟨o, ho, hv⟩ := List.mem_filterMap.1 h
  obtain ⟨i, hi, ho⟩ := List.mem_flatMap.1 ho
  obtain ⟨b, hb, hi⟩ := List.mem_flatMap.1 hi
  obtain ⟨hreg, hnone⟩ := Option.filter_eq_some_iff.1 hv
  refine ⟨Option.isNone_iff_eq_none.1 hnone, b, hb, i, hi, ?_⟩
  cases o with
  | vreg u =>
    cases hreg
    exact ho
  | _ => cases hreg

/-- An allocation that fails does so in a round whose colouring succeeds, on a register that was taken for
spilling and has all colours around it. -/
theorem allocate_error (hf : RegsInRange f) {palette : List PhysReg} {e : CompileError}
    (he : allocate palette f = .error e) : ∃ rounds h taken c v,
      FailedRounds palette f ∅ rounds h taken ∧
      color (.build h (analyze h)) palette taken = .ok c ∧ e = .fault (.uncoloured v h.name) ∧
      v ∈ (Interference.build h (analyze h)).nodes ∧ f.vregCount ≤ v ∧ c.get? v = none ∧
      freeColors (.build h (analyze h)) palette c v = [] := by
  obtain ⟨rounds, h, taken, c, hrounds, hc, heq⟩ := allocateFrom_eq palette {} (ongoing_initial hf)
    (Nat.lt_succ_of_le (card_remaining_le f.vregCount f))
  have hon := hrounds.ongoing (ongoing_initial hf)
  rw [allocate, heq, settle] at he
  split at he
  · next v hv =>
    cases he
    obtain ⟨hnone, b, hb, i, hi, ho⟩ := of_mem_uncoloured (List.mem_of_getLast? hv)
    have hnode : v ∈ (Interference.build h (analyze h)).nodes :=
      Interference.mem_nodes_build.2 ⟨hon.regs b hb i hi v ho, b, hb, i, hi, ho⟩
    obtain ⟨hfree, htaken, -⟩ := stranded_of_ok hc hnode hnone
    exact ⟨rounds, h, taken, c, v, hrounds, hc, rfl, hnode, ((hon.taken v).1 htaken).1, hnone, hfree⟩
  · cases he

/-- **Colouring leaves only stranded registers out.** Putting the registers back gives colours to some of
them, and those without one have all colours of the palette around them. Colouring succeeds just if each
register left out is stranded: neither it nor a neighbour of it may be spilled. So an allocation that fails
does so on a register that was taken for spilling, which the colouring of its last round left out. -/
theorem uncoloured_only_stranded {f : Func} (hf : RegsInRange f) (palette : List PhysReg)
    (unspillable : SortedSet VReg) :
    let g := Interference.build f (analyze f)
    let c := (putBack g palette unspillable).1
    ((∀ v ∈ g.nodes, c.get? v = none → freeColors g palette c v = []) ∧
      ((color g palette unspillable = .ok c ∧
          ∀ v ∈ g.nodes, c.get? v = none → Stranded g unspillable v) ∨
        ∃ spills, color g palette unspillable = .error spills ∧
          ∃ v ∈ g.nodes, c.get? v = none ∧ ¬Stranded g unspillable v)) ∧
    ∀ e, allocate palette f = .error e → ∃ rounds h taken c v,
      FailedRounds palette f ∅ rounds h taken ∧
      color (.build h (analyze h)) palette taken = .ok c ∧ e = .fault (.uncoloured v h.name) ∧
      v ∈ (Interference.build h (analyze h)).nodes ∧ f.vregCount ≤ v ∧ c.get? v = none ∧
      freeColors (.build h (analyze h)) palette c v = [] := by
  intro g c
  obtain ⟨hfree, -, hends⟩ := color_cases g palette unspillable
  exact ⟨⟨hfree, hends⟩, fun e he => allocate_error hf he⟩

/-- A function that returns a constant through a register. -/
def constant : Func where
  name := "constant"
  label := "constant"
  blocks := #[{ name := "entry", instrs := [.move (.vreg 0) (.imm 1), .ret (some (.vreg 0))] }]
  layout := [0]
  hints := #["a"]

theorem allocate_constant : allocate [] constant = .error (.fault (.uncoloured 1 "constant")) := rfl

/-- Without colours, the register that the spilled constant goes through is left out. -/
theorem uncoloured_only_stranded_constant : RegsInRange constant ∧ ∃ rounds h taken c v,
    FailedRounds [] constant ∅ rounds h taken ∧ color (.build h (analyze h)) [] taken = .ok c ∧
    CompileError.fault (.uncoloured 1 "constant") = .fault (.uncoloured v h.name) ∧
    v ∈ (Interference.build h (analyze h)).nodes ∧ constant.vregCount ≤ v ∧ c.get? v = none ∧
    freeColors (.build h (analyze h)) [] c v = [] := by
  have hf : RegsInRange constant := regsInRange_of_instrs (by decide)
  exact ⟨hf, (uncoloured_only_stranded hf [] ∅).2 _ allocate_constant⟩

/-- Colouring succeeds although a register that occurs has no colour, and allocation then fails on such a
register and not for want of rounds. -/
theorem color_leaves_out :
    color (.build constant (analyze constant)) [] ⟨[0]⟩ = .ok ⟨#[none]⟩ ∧
    0 ∈ (Interference.build constant (analyze constant)).nodes ∧
    allocate [] constant = .error (.fault (.uncoloured 1 "constant")) :=
  ⟨by decide +kernel, by decide +kernel, allocate_constant⟩

end MxStar.Alloc
