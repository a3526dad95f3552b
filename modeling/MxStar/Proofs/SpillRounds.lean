import Mathlib.Data.Finset.Card
import MxStar.Proofs.SpillSegments
import MxStar.Proofs.TotalColorings

/-!
The rounds of allocation.

Nothing is assumed of the function but that its registers are in range; the palette may be any list. The
registers that a failing round spills occur, and none of them was taken for spilling (`Ongoing.color_error`).
So no register is spilled twice (`FailedRounds.spec`), and allocation ends with a round that colours
(`allocateFrom_eq`).
-/
namespace MxStar.Alloc

open IR List

variable {u v : VReg} {f : Func}

/-! ## Registers that occur -/

theorem virt_of_reg? {o : Operand} (h : o.reg? = some (.virt v)) : o = .vreg v :=
  (Operand.eq_of_reg?.1 v).1 h

/-- The operands that the machine wants apart are operands, but for rax and rdx. -/
theorem vreg_of_shapePairs {i : Instr} {x : Operand × Operand} (hx : x ∈ shapePairs i)
    (hv : x.1 = .vreg v ∨ x.2 = .vreg v) : .vreg v ∈ i.operands := by
  cases i with
  | binary dst op lhs rhs =>
    simp only [shapePairs] at hx
    simp only [Instr.operands, Instr.dst?, Instr.sources, Option.toList_some, cons_append,
      nil_append, mem_cons]
    grind
  | _ => cases hx

/-- Of two virtual registers that an instruction keeps apart, each is an operand or is live after it, and
one is an operand. -/
theorem Clash.virt_cases {i : Instr} {after : RegSet} (h : Clash i after (.virt u) (.virt v)) :
    .vreg u ∈ i.operands ∧ (.vreg v ∈ i.operands ∨ .virt v ∈ after) := by
  obtain ⟨hu, hv, -⟩ | ⟨x, hx, hu, hv⟩ := h
  · exact ⟨mem_operands_of_dst (virt_mem_defs.1 hu), .inr hv⟩
  · exact ⟨vreg_of_shapePairs hx (.inl (virt_of_reg? hu)),
      .inl (vreg_of_shapePairs hx (.inr (virt_of_reg? hv)))⟩

theorem occurs_of_edge (h : (Interference.build f (analyze f)).Edge u (.virt v)) :
    ∃ b ∈ f.layout, Occurs v (f.code b) := by
  obtain ⟨-, b, hb, i, post, hsuffix, x, y, hclash, -, hjoin⟩ := Interference.edge_build_iff.1 h
  have hi : i ∈ f.code b := hsuffix.subset mem_cons_self
  obtain ⟨rfl, rfl⟩ | ⟨rfl, rfl⟩ := hjoin
  · obtain ⟨-, hoperand | hlive⟩ := hclash.virt_cases
    · exact ⟨b, hb, i, hi, hoperand⟩
    · obtain ⟨c, hc, j, hj, o, ho, hreg⟩ :=
        exists_source_of_live hb ((suffix_cons _ _).trans hsuffix) hlive
      exact ⟨c, hc, j, hj, virt_of_reg? hreg ▸ mem_operands_of_source ho⟩
  · exact ⟨b, hb, i, hi, hclash.virt_cases.1⟩

theorem code_setCode_of_le {c : BlockId} (hc : f.blocks.size ≤ c) (code : List Instr)
    (b : BlockId) : (f.setCode c code).code b = f.code b := by
  have hsame : f.blocks.modify c (fun block => { block with instrs := code }) = f.blocks := by
    ext k hk hk'
    · simp
    · have hne : c ≠ k := Nat.ne_of_gt (Nat.lt_of_lt_of_le hk' hc)
      simp [Array.getElem_modify, hne]
  rw [Func.code, Func.block, Func.setCode, Func.modifyBlock, hsame]
  rfl

/-- A block that is spilled has the registers that it had and that are not spilled, and registers taken
for it. -/
theorem occurs_expandBlock {slots : Slots} {c b : BlockId}
    (h : Occurs v ((expandBlock (spillInstr slots) f c).code b)) :
    (Occurs v (f.code b) ∧ (b = c → slots.get? v = none)) ∨
      f.vregCount ≤ v ∧ v < (expandBlock (spillInstr slots) f c).vregCount := by
  have hcode : (expandBlock (spillInstr slots) f c).code b =
      (f.setCode c (expandCode (spillInstr slots) (f.code c) f.hints).1).code b := rfl
  rw [hcode] at h
  by_cases hlt : c < f.blocks.size
  · rw [Func.code_setCode f c b _ hlt] at h
    split at h
    · next hbc =>
      subst hbc
      have hreplaced := (expandCode_replaced (grows_spillInstr slots) (f.code c) f.hints).mono
        fun _ _ => spillsTo_of_expands
      exact (Occurs.of_spilled hreplaced h).imp_left fun ⟨hocc, hnone⟩ => ⟨hocc, fun _ => hnone⟩
    · next hbc => exact .inl ⟨h, fun heq => absurd heq.symm hbc⟩
  · -- A block that does not exist has no code, before and after.
    rw [code_setCode_of_le (Nat.le_of_not_lt hlt)] at h
    refine .inl ⟨h, fun hbc => ?_⟩
    obtain ⟨i, hi, -⟩ := h
    rw [hbc, Func.code, Func.block, Array.getElem?_eq_none (Nat.le_of_not_lt hlt)] at hi
    cases hi

theorem occurs_expandBlocks (slots : Slots) : ∀ (l : List BlockId) (f : Func),
    (l.foldl (expandBlock (spillInstr slots)) f).layout = f.layout ∧
    f.vregCount ≤ (l.foldl (expandBlock (spillInstr slots)) f).vregCount ∧
    ∀ b v, Occurs v ((l.foldl (expandBlock (spillInstr slots)) f).code b) →
      (Occurs v (f.code b) ∧ (b ∈ l → slots.get? v = none)) ∨
        f.vregCount ≤ v ∧ v < (l.foldl (expandBlock (spillInstr slots)) f).vregCount
  | [], f => ⟨rfl, Nat.le_refl _, fun b v h => .inl ⟨h, by simp⟩⟩
  | c :: l, f => by
    have hgrow : f.vregCount ≤ (expandBlock (spillInstr slots) f c).vregCount :=
      expandCode_grows (grows_spillInstr slots) (f.code c) f.hints
    obtain ⟨hlayout, hgrow', hocc⟩ := occurs_expandBlocks slots l (expandBlock (spillInstr slots) f c)
    refine ⟨hlayout, Nat.le_trans hgrow hgrow', fun b v h => ?_⟩
    obtain ⟨h, hkept⟩ | ⟨hlo, hhi⟩ := hocc b v h
    · obtain ⟨h, hkept'⟩ | ⟨hlo, hhi⟩ := occurs_expandBlock h
      · exact .inl ⟨h, fun hb => (mem_cons.1 hb).elim hkept' hkept⟩
      · exact .inr ⟨hlo, Nat.lt_of_lt_of_le hhi hgrow'⟩
    · exact .inr ⟨Nat.le_trans hgrow hlo, hhi⟩

/-- **What was spilled does not occur any more**: the code has registers that it had and that were not
spilled, and registers that were taken. -/
theorem occurs_spillRegs {spills unspillable : SortedSet VReg} {b : BlockId} (hb : b ∈ f.layout)
    (h : Occurs v ((spillRegs f spills unspillable).1.code b)) :
    (Occurs v (f.code b) ∧ v ∉ spills) ∨
      f.vregCount ≤ v ∧ v < (spillRegs f spills unspillable).1.vregCount := by
  have hocc := (occurs_expandBlocks ⟨f.slots, spills⟩ f.layout
    { f with slots := f.slots + spills.size }).2.2 b v h
  refine hocc.imp_left fun ⟨hocc, hkept⟩ => ⟨hocc, fun hspilled => ?_⟩
  have hsome : ((Slots.mk f.slots spills).get? v).isSome := Slots.isSome_get?_iff.2 hspilled
  rw [hkept hb] at hsome
  cases hsome

def remaining (n : Nat) (f : Func) : Finset VReg :=
  (Finset.range n).filter fun v => ∃ b ∈ f.layout, Occurs v (f.code b)

theorem mem_remaining {n : Nat} :
    v ∈ remaining n f ↔ v < n ∧ ∃ b ∈ f.layout, Occurs v (f.code b) := by
  rw [remaining, Finset.mem_filter, Finset.mem_range]

theorem card_remaining_le (n : Nat) (f : Func) : (remaining n f).card ≤ n :=
  calc (remaining n f).card
      ≤ (Finset.range n).card := Finset.card_filter_le _ _
    _ = n := Finset.card_range _

/-! ## One round -/

def RegsInRange (f : Func) : Prop :=
  ∀ b ∈ f.layout, ∀ i ∈ f.code b, ∀ v, .vreg v ∈ i.operands → v < f.vregCount

/-- A function between two rounds, where `n` is the number of its registers at the start: the registers
that may not be spilled are all that were taken since. -/
structure Ongoing (n : Nat) (f : Func) (unspillable : SortedSet VReg) : Prop where
  grown : n ≤ f.vregCount
  regs : RegsInRange f
  taken : ∀ v, v ∈ unspillable ↔ n ≤ v ∧ v < f.vregCount

theorem ongoing_initial (h : RegsInRange f) : Ongoing f.vregCount f ∅ where
  grown := Nat.le_refl _
  regs := h
  taken := by
    intro v
    simp only [SortedSet.not_mem_empty, false_iff, not_and, Nat.not_lt]
    exact id

section Round

variable {n : Nat} {f : Func} {palette : List PhysReg} {spills unspillable : SortedSet VReg}

/-- **A round that fails names registers of the start that occur.** -/
theorem Ongoing.color_error (h : Ongoing n f unspillable)
    (hcolor : color (.build f (analyze f)) palette unspillable = .error spills) :
    (∃ v, v ∈ spills) ∧ ∀ v ∈ spills, v ∈ remaining n f := by
  obtain ⟨hne, hspills⟩ := color_spills hcolor
  refine ⟨hne, fun v hv => ?_⟩
  obtain ⟨hspill, u, hu, huv⟩ := hspills v hv
  obtain ⟨b, hb, hocc⟩ : ∃ b ∈ f.layout, Occurs v (f.code b) := by
    obtain rfl | hedge := huv
    · exact (Interference.mem_nodes_build.1 hu).2
    · exact occurs_of_edge hedge
  refine mem_remaining.2 ⟨?_, b, hb, hocc⟩
  obtain ⟨i, hi, hmem⟩ := hocc
  by_contra hle
  exact hspill ((h.taken v).2 ⟨Nat.not_lt.1 hle, h.regs b hb i hi v hmem⟩)

/-- The registers that may not be spilled are all that were taken, after spilling as before. -/
theorem mem_insertMany_taken {m k : Nat} (hn : n ≤ m) (hk : m ≤ k)
    (h : ∀ v, v ∈ unspillable ↔ n ≤ v ∧ v < m) :
    u ∈ unspillable.insertMany ((List.range k).drop m) ↔ n ≤ u ∧ u < k := by
  have htaken : u ∈ (List.range k).drop m ↔ m ≤ u ∧ u < k := by
    rw [range_eq_range', drop_range', mem_range'_1]
    constructor
    · rintro ⟨hlo, hhi⟩
      exact ⟨by simpa using hlo, Nat.lt_of_lt_of_le hhi (by omega)⟩
    · rintro ⟨hlo, hhi⟩
      exact ⟨by simpa using hlo, Nat.lt_of_lt_of_le hhi (by omega)⟩
  rw [SortedSet.mem_insertMany, htaken, h]
  constructor
  · rintro (⟨hlo, hhi⟩ | ⟨hlo, hhi⟩)
    · exact ⟨Nat.le_trans hn hlo, hhi⟩
    · exact ⟨hlo, Nat.lt_of_lt_of_le hhi hk⟩
  · rintro ⟨hlo, hhi⟩
    exact (Nat.lt_or_ge u m).elim (fun hlt => .inr ⟨hlo, hlt⟩) fun hge => .inl ⟨hge, hhi⟩

theorem Ongoing.spill (h : Ongoing n f unspillable) (spills : SortedSet VReg) :
    Ongoing n (spillRegs f spills unspillable).1 (spillRegs f spills unspillable).2 := by
  obtain ⟨hlayout, hgrow, -⟩ := occurs_expandBlocks ⟨f.slots, spills⟩ f.layout
    { f with slots := f.slots + spills.size }
  refine ⟨Nat.le_trans h.grown hgrow, fun b hb i hi v hv => ?_,
    fun v => mem_insertMany_taken h.grown hgrow h.taken⟩
  have hb : b ∈ f.layout := hlayout ▸ hb
  obtain ⟨⟨j, hj, hv⟩, -⟩ | ⟨-, hlt⟩ := occurs_spillRegs hb ⟨i, hi, hv⟩
  · exact Nat.lt_of_lt_of_le (h.regs b hb j hj v hv) hgrow
  · exact hlt

/-- Of the registers of the start, those that were not spilled are left. -/
theorem Ongoing.remaining_spill (h : Ongoing n f unspillable)
    (hv : v ∈ remaining n (spillRegs f spills unspillable).1) : v ∈ remaining n f ∧ v ∉ spills := by
  have hlayout := (occurs_expandBlocks ⟨f.slots, spills⟩ f.layout
    { f with slots := f.slots + spills.size }).1
  obtain ⟨hlt, b, hb, hocc⟩ := mem_remaining.1 hv
  have hb : b ∈ f.layout := hlayout ▸ hb
  obtain ⟨hocc, hkept⟩ | ⟨hle, -⟩ := occurs_spillRegs hb hocc
  · exact ⟨mem_remaining.2 ⟨hlt, b, hb, hocc⟩, hkept⟩
  · exact absurd (Nat.le_trans h.grown hle) (Nat.not_le.2 hlt)

/-- **Every round that fails leaves fewer registers of the start.** -/
theorem Ongoing.card_remaining_lt (h : Ongoing n f unspillable)
    (hcolor : color (.build f (analyze f)) palette unspillable = .error spills) :
    (remaining n (spillRegs f spills unspillable).1).card < (remaining n f).card := by
  obtain ⟨⟨v, hv⟩, hspills⟩ := h.color_error hcolor
  refine Finset.card_lt_card (Finset.ssubset_iff_of_subset
    (fun u hu => (h.remaining_spill hu).1) |>.2 ⟨v, hspills v hv, fun hv' => ?_⟩)
  exact (h.remaining_spill hv').2 hv

end Round

/-! ## All rounds -/

/-- A round that fails: the function as it is then, and the registers to spill. -/
structure Round where
  func : Func
  spills : SortedSet VReg

/-- The rounds that fail, one after another, from a function and the registers that may not be spilled to
what they are after the last of these rounds. -/
inductive FailedRounds (palette : List PhysReg) :
    Func → SortedSet VReg → List Round → Func → SortedSet VReg → Prop
  | none {f : Func} {unspillable : SortedSet VReg} : FailedRounds palette f unspillable [] f unspillable
  | more {f g : Func} {unspillable unspillable' spills : SortedSet VReg} {rounds : List Round}
      (hcolor : color (.build f (analyze f)) palette unspillable = .error spills)
      (hrest : FailedRounds palette (spillRegs f spills unspillable).1
        (spillRegs f spills unspillable).2 rounds g unspillable') :
      FailedRounds palette f unspillable (⟨f, spills⟩ :: rounds) g unspillable'

/-- Each failing round spills registers of the start that occur in its function, none of them spilled
before; so there are at most as many rounds as such registers at the start. -/
theorem FailedRounds.spec {palette : List PhysReg} {n : Nat} {g : Func}
    {unspillable unspillable' : SortedSet VReg} {rounds : List Round}
    (h : FailedRounds palette f unspillable rounds g unspillable') (hf : Ongoing n f unspillable) :
    (∀ r ∈ rounds, (∃ v, v ∈ r.spills) ∧ ∀ v ∈ r.spills, v ∈ remaining n r.func ∧ v ∈ remaining n f) ∧
    rounds.Pairwise (fun r r' => ∀ v ∈ r.spills, v ∉ r'.spills) ∧
    rounds.length ≤ (remaining n f).card := by
  induction h with
  | none => exact ⟨by simp, .nil, Nat.zero_le _⟩
  | more hcolor _ ih =>
    obtain ⟨hrounds, hpairwise, hlen⟩ := ih (hf.spill _)
    obtain ⟨hne, hspills⟩ := hf.color_error hcolor
    refine ⟨forall_mem_cons.2 ⟨⟨hne, fun v hv => ⟨hspills v hv, hspills v hv⟩⟩, ?_⟩,
      .cons ?_ hpairwise, ?_⟩
    · intro r hr
      obtain ⟨hne, hr⟩ := hrounds r hr
      exact ⟨hne, fun v hv => ⟨(hr v hv).1, (hf.remaining_spill (hr v hv).2).1⟩⟩
    · intro r hr v hv hv'
      exact (hf.remaining_spill ((hrounds r hr).2 v hv').2).2 hv
    · have hless := hf.card_remaining_lt hcolor
      rw [length_cons]
      omega

/-- What a round that colours makes of a function. -/
def settle (c : Coloring) (f : Func) (stats : Stats) : Except CompileError (Func × Stats) :=
  match (uncoloured c f).getLast? with
  | some v => .error (.fault (.uncoloured v f.name))
  | none => .ok (applyColoring c f, { stats with slots := f.slots })

/-- **Allocation ends with a round that colours**, after some rounds that fail, if it may take more
rounds than registers of the start occur. -/
theorem allocateFrom_eq (palette : List PhysReg) {n : Nat} : ∀ {fuel : Nat} {f : Func}
    {unspillable : SortedSet VReg} (stats : Stats), Ongoing n f unspillable →
    (remaining n f).card < fuel →
    ∃ rounds g unspillable' c, FailedRounds palette f unspillable rounds g unspillable' ∧
      color (.build g (analyze g)) palette unspillable' = .ok c ∧
      allocateFrom palette fuel f unspillable stats =
        settle c g { stats with
          rounds := stats.rounds + rounds.length + 1
          spilled := stats.spilled + (rounds.map fun r => r.spills.size).sum }
  | 0, _, _, _, _, hfuel => absurd hfuel (Nat.not_lt_zero _)
  | fuel + 1, f, unspillable, stats, hf, hfuel => by
    rw [allocateFrom]
    dsimp only
    cases hcolor : color (.build f (analyze f)) palette unspillable with
    | ok c => exact ⟨[], f, unspillable, c, .none, hcolor, rfl⟩
    | error spills =>
      have hspills : ¬ spills.isEmpty = true := by
        obtain ⟨⟨v, hv⟩, -⟩ := hf.color_error hcolor
        exact fun hempty => SortedSet.isEmpty_iff.1 hempty v hv
      dsimp only
      rw [if_neg hspills]
      have hless := hf.card_remaining_lt hcolor
      have hfuel' : (remaining n (spillRegs f spills unspillable).1).card < fuel := by omega
      obtain ⟨rounds, g, unspillable', c, hrounds, hc, heq⟩ := allocateFrom_eq palette
        ⟨stats.rounds + 1, stats.spilled + spills.size, stats.slots⟩ (hf.spill spills) hfuel'
      refine ⟨⟨f, spills⟩ :: rounds, g, unspillable', c, .more hcolor hrounds, hc, heq.trans ?_⟩
      congr 2
      · simp only [length_cons]
        omega
      · simp only [map_cons, sum_cons]
        omega

/-- **Spilling is bounded by the registers of the start.** Allocation never runs out of rounds, whatever
the palette. Each round that fails spills some registers, all of which were there at the start and occur
in the function as it is in that round, and none of which was spilled in an earlier round; so there are at
most as many such rounds as there were registers, and one more that colours. -/
theorem spilling_bounded (palette : List PhysReg) {f : Func} (hf : RegsInRange f) :
    (∀ name rounds, allocate palette f ≠ .error (.allocationExhausted name rounds)) ∧
    (∀ rounds g unspillable, FailedRounds palette f ∅ rounds g unspillable →
      (∀ r ∈ rounds, (∃ v, v ∈ r.spills) ∧ ∀ v ∈ r.spills,
        v < f.vregCount ∧ ∃ b ∈ r.func.layout, Occurs v (r.func.code b)) ∧
      rounds.Pairwise (fun r r' => ∀ v ∈ r.spills, v ∉ r'.spills) ∧
      rounds.length ≤ f.vregCount) ∧
    ∀ g stats, allocate palette f = .ok (g, stats) →
      ∃ rounds h unspillable, FailedRounds palette f ∅ rounds h unspillable ∧
        stats.rounds = rounds.length + 1 ∧ stats.rounds ≤ f.vregCount + 1 := by
  have hon := ongoing_initial hf
  have hbound : ∀ {rounds g unspillable}, FailedRounds palette f ∅ rounds g unspillable →
      rounds.length ≤ f.vregCount := fun hrounds =>
    Nat.le_trans (hrounds.spec hon).2.2 (card_remaining_le f.vregCount f)
  obtain ⟨rounds, h, unspillable, c, hrounds, -, heq⟩ := allocateFrom_eq palette {} hon
    (Nat.lt_succ_of_le (card_remaining_le f.vregCount f))
  rw [allocate, heq, settle]
  refine ⟨fun name k => ?_, fun rounds g unspillable hrounds => ?_, fun g stats hok => ?_⟩
  · split <;> simp
  · obtain ⟨hspec, hpairwise, -⟩ := hrounds.spec hon
    refine ⟨fun r hr => ⟨(hspec r hr).1, fun v hv => ?_⟩, hpairwise, hbound hrounds⟩
    exact mem_remaining.1 ((hspec r hr).2 v hv).1
  · split at hok
    · cases hok
    · cases hok
      have hlen := hbound hrounds
      exact ⟨rounds, h, unspillable, hrounds, by simp, by simp only; omega⟩

/-- A function with more live registers than the palette below has colours. -/
def crowded : Func where
  name := "crowded"
  label := "crowded"
  blocks := #[{
    name := "entry"
    instrs := [.move (.vreg 0) (.imm 1), .move (.vreg 1) (.imm 2),
      .binary (.vreg 2) .add (.vreg 0) (.vreg 1), .binary (.vreg 2) .mul (.vreg 2) (.vreg 0),
      .ret (some (.vreg 2))] }]
  layout := [0]
  hints := #["a", "b", "c"]

/-- Of three registers that are live together one is spilled, and the second of four rounds colours. -/
theorem spilling_bounded_crowded :
    RegsInRange crowded ∧
    FailedRounds [.rax, .rcx] crowded ∅ [⟨crowded, ⟨[0]⟩⟩] (spillRegs crowded ⟨[0]⟩ ∅).1
      (spillRegs crowded ⟨[0]⟩ ∅).2 ∧
    [0].length ≤ crowded.vregCount ∧
    ∃ g, allocate [.rax, .rcx] crowded = .ok (g, ⟨2, 1, 1⟩) ∧ 2 ≤ crowded.vregCount + 1 := by
  have hregs : RegsInRange crowded := by
    have hoperands : ∀ i ∈ crowded.code 0, ∀ o ∈ i.operands, ∀ v ∈ o.vreg?, v < 3 := by decide
    intro b hb i hi v hv
    obtain rfl := List.mem_singleton.1 hb
    exact hoperands i hi _ hv v rfl
  have hrounds : FailedRounds [.rax, .rcx] crowded ∅ [⟨crowded, ⟨[0]⟩⟩]
      (spillRegs crowded ⟨[0]⟩ ∅).1 (spillRegs crowded ⟨[0]⟩ ∅).2 := .more (by decide +kernel) .none
  obtain ⟨-, hfails, hends⟩ := spilling_bounded [.rax, .rcx] hregs
  have hstats : (allocate [.rax, .rcx] crowded).toOption.map (·.2) = some ⟨2, 1, 1⟩ := by decide +kernel
  obtain ⟨⟨g, stats⟩, hok, rfl⟩ := Option.map_eq_some_iff.1 hstats
  rw [Except.toOption_eq_some] at hok
  obtain ⟨-, -, -, -, -, hle⟩ := hends g _ hok
  exact ⟨hregs, hrounds, (hfails _ _ _ hrounds).2.2, g, hok, hle⟩

end MxStar.Alloc
