import MxStar.Proofs.ChosenInstrs
import MxStar.Proofs.Compilations
import MxStar.Proofs.MachineArithmetic
import MxStar.Tree.Sample

/-!
Machine code that can be encoded.

An immediate or a displacement has 32 bits, signed; only a move to a register has room for a whole word.
Selection checks nothing of the kind, so the operands have to be right before (`Alloc.Legal`). Making the
convention explicit sees to that (`Part.legal`), allocation keeps it, and what is selected for a legal
instruction is encodable (`Chosen.isEncodable`).
-/
namespace MxStar.Asm

open IR (fitsImm32)

def Mem.isEncodable : Mem → Bool
  | .base _ disp => fitsImm32 disp
  | .label _ => true

def Arg.isEncodable : Arg → Bool
  | .reg _ => true
  | .imm w => fitsImm32 w
  | .mem m => m.isEncodable

/-- Whether the machine has an encoding of the instruction. -/
def Instr.isEncodable : Instr → Bool
  | .mov (.reg _) (.imm _) => true
  | .mov (.reg _) src => src.isEncodable
  | .mov (.mem m) (.reg _) => m.isEncodable
  | .mov (.mem m) (.imm w) => m.isEncodable && fitsImm32 w
  | .mov _ _ => false
  | .lea _ m => m.isEncodable
  | .push src | .alu _ _ src | .cmp _ src => src.isEncodable
  | .shift _ _ count => count.all (· < 64)
  | .idiv r => r ≠ .rax && r ≠ .rdx
  | _ => true

end MxStar.Asm

namespace MxStar.Alloc

open IR List

variable {new pre : List Instr} {incoming outgoing : Nat} {f g : Func} {o : Operand} {slots : Slots}

/-! ## Legal instructions -/

/-- What a frame has: slots, words for arguments that come in, and for those of calls. -/
structure Extent where
  slots : Nat
  incoming : Nat
  outgoing : Nat

/-- The address has a displacement that fits, or is within the frame. -/
def LegalAddress (x : Extent) : Address → Prop
  | .base _ offset => fitsImm32 offset = true
  | .static _ => True
  | .slot k => k < x.slots
  | .incoming k => k < x.incoming

/-- The operands of an instruction are where the machine can encode them. -/
def Legal (x : Extent) : Instr → Prop
  | .binary _ op l r =>
    op ≠ .div ∧ op ≠ .mod ∧ op ≠ .shl ∧ op ≠ .shr → Encodable l ∧ Encodable r
  | .compare _ _ _ r | .branch _ _ r _ _ | .push r => Encodable r
  | .load _ a => LegalAddress x a
  | .store a src => LegalAddress x a ∧ Encodable src
  | .call _ _ _ n => n ≤ x.outgoing
  | .unary .. | .move .. | .jump _ | .ret _ => True

def Reassigns (σ : Operand → Operand) : Prop :=
  ∀ o, σ o = o ∨ (∃ v, o = .vreg v) ∧ (σ o).isReg = true

theorem reassigns_renameVReg (τ : VReg → VReg) : Reassigns (renameVReg τ) := by
  intro o
  cases o with
  | vreg v => exact .inr ⟨⟨v, rfl⟩, rfl⟩
  | phys | imm | static => exact .inl rfl

theorem reassigns_colorOperand (c : Coloring) : Reassigns (colorOperand c) := by
  intro o
  cases o with
  | vreg v =>
    cases hq : c.get? v with
    | none => exact .inl (by simp [colorOperand, hq])
    | some q => exact .inr ⟨⟨v, rfl⟩, by simp [colorOperand, hq, Operand.isReg, Operand.reg?]⟩
  | phys | imm | static => exact .inl rfl

theorem encodable_of_isReg (h : o.isReg = true) : Encodable o := by
  cases o with
  | vreg | phys => trivial
  | imm | static => cases h

theorem Reassigns.encodable {σ : Operand → Operand} (hσ : Reassigns σ) (h : Encodable o) :
    Encodable (σ o) := by
  rcases hσ o with heq | ⟨-, hreg⟩
  · rw [heq]
    exact h
  · exact encodable_of_isReg hreg

/-- Other operands of the same kinds, in a frame with more slots. -/
theorem LegalAddress.mapOperands (σ : Operand → Operand) {x : Extent} {slots : Nat}
    (hslots : x.slots ≤ slots) {a : Address} (h : LegalAddress x a) :
    LegalAddress { x with slots := slots } (a.mapOperands σ) := by
  cases a with
  | base | static | incoming => exact h
  | slot k => exact Nat.lt_of_lt_of_le h hslots

theorem Legal.mapOperands {σ : Operand → Operand} (hσ : Reassigns σ)
    {x : Extent} {slots : Nat} (hslots : x.slots ≤ slots) {i : Instr} (h : Legal x i) :
    Legal { x with slots := slots } (i.mapOperands σ) := by
  cases i with
  | binary dst op l r => exact fun hop => ⟨hσ.encodable (h hop).1, hσ.encodable (h hop).2⟩
  | compare | branch | push => exact hσ.encodable h
  | load => exact LegalAddress.mapOperands σ hslots h
  | store => exact ⟨h.1.mapOperands σ hslots, hσ.encodable h.2⟩
  | call => exact h
  | unary | move | jump | ret => trivial

/-! ## The calling convention -/

section Convention

variable {x : Extent} {lo hi : Nat}

theorem isReg_of_dst {K : Known} {i : Instr} (hi : i.Within K) (ho : i.dst? = some o) :
    o.isReg = true := by
  have hwritable : ∀ {o : Operand}, o.Writable K → o.isReg = true := by
    intro o h
    cases o with
    | vreg => rfl
    | phys | imm | static => cases h
  cases i with
  | binary | unary | compare | move | load =>
    cases ho
    exact hwritable hi.1
  | call => exact hwritable (hi.1 o ho)
  | _ => cases ho

/-- The words of the arguments on the stack, with their padding, are no more than the arguments. -/
theorem stackWords_le (args : List Operand) :
    stackWords (args.drop PhysReg.params.length) ≤ args.length := by
  have hparams : PhysReg.params.length = 6 := rfl
  rw [stackWords, length_drop]
  omega

theorem encodable_side {K : Known} {i : Instr} {dst : Operand} (hi : i.Within K)
    (hdst : i.dst? = some dst) (h : o = dst ∨ Encodable o) : Encodable o := by
  rcases h with rfl | h
  · exact encodable_of_isReg (isReg_of_dst hi hdst)
  · exact h

/-- **The code that stands for an instruction is legal**, whatever constants the instruction has. -/
theorem Part.legal {K : Known} {i j : Instr} (h : Part i j) (hi : i.Within K)
    (hargs : ∀ dst callee args n, i = .call dst callee args n → args.length ≤ x.outgoing) :
    Legal x j := by
  have haddress : ∀ {a a' : Address}, Formed a a' → a.Within K → LegalAddress x a' := by
    intro a a' hformed ha
    cases hformed with
    | base _ hoffset => exact hoffset
    | same hfixed =>
      cases a with
      | base => cases hfixed
      | static => trivial
      | slot | incoming => cases ha
  cases h with
  | setup h =>
    cases h with
    | move => trivial
    | add _ hb => exact fun _ => ⟨trivial, encodable_of_isReg hb⟩
  | push _ hv => exact hv
  | divide hop => exact fun hne => (hop.elim hne.1 hne.2.1).elim
  | shift hop => exact fun hne => (hop.elim hne.2.2.1 hne.2.2.2).elim
  | binary _ hdst hl hr => exact fun _ => ⟨encodable_side hi hdst hl, encodable_side hi hdst hr⟩
  | compare _ _ hr | branch _ _ hr => exact hr
  | load heq ha =>
    subst heq
    exact haddress ha hi.2
  | store heq ha hs =>
    subst heq
    exact ⟨haddress ha hi.1, hs⟩
  | call heq => exact Nat.le_trans (stackWords_le _) (hargs _ _ _ _ heq)
  | move | unary | ret => trivial
  | same heq =>
    rcases heq with ⟨s, rfl⟩ | ⟨t, rfl⟩ | rfl
    · cases hi
    · trivial
    · trivial

end Convention

def CallsBelow (n : Nat) (f : Func) : Prop :=
  f.Every fun i => ∀ dst callee args k, i = .call dst callee args k → args.length < n

/-- **The code of a function in which the convention is explicit is legal.** -/
theorem Conventional.legal (h : Conventional f g) {statics n : Nat} {callable : FuncId → Prop}
    (hf : f.Intact statics callable) (hcalls : CallsBelow n f) :
    g.Every (Legal ⟨g.slots, f.params.length, n⟩) := by
  refine h.every (fun v _ i hi => ?_) trivial fun b hb i hi new hnew j hj =>
    (hnew.part j hj).legal (hf.within b i hi) fun dst callee args k heq =>
      Nat.le_of_lt (hcalls b hb i hi dst callee args k heq)
  rw [bindParam]
  split
  · trivial
  · exact Nat.lt_of_le_of_lt (Nat.sub_le i _) hi

/-! ## Allocation -/

/-- What is spilled goes to slots of the frame, and only what can be stored is stored. -/
theorem SpillsTo.legal {lo hi : Nat} {i : Instr} (h : SpillsTo slots lo hi i new) {x : Extent}
    {n : Nat} (hx : x.slots ≤ n) (hslots : slots.base + slots.spilled.size ≤ n) (hi : Legal x i) :
    ∀ j ∈ new, Legal { x with slots := n } j := by
  intro j hj
  obtain ⟨o, k, hk, -, -, rfl⟩ | ⟨o, k, hk, -, ho, rfl⟩ | ⟨τ, -, rfl⟩ := h.cases_mem hj
  · exact Nat.lt_of_lt_of_le hk hslots
  · exact ⟨Nat.lt_of_lt_of_le hk hslots, ho⟩
  · exact hi.mapOperands (reassigns_renameVReg τ) hx

theorem legal_allocate {palette : List PhysReg} {stats : Stats} (hf : f.Shaped)
    (h : f.Every (Legal ⟨f.slots, incoming, outgoing⟩))
    (halloc : allocate palette f = .ok (g, stats)) :
    g.Every (Legal ⟨g.slots, incoming, outgoing⟩) :=
  every_allocate (P := fun n => Legal ⟨n, incoming, outgoing⟩)
    (fun hs hm hn h => hs.legal (x := ⟨_, incoming, outgoing⟩) hm hn h)
    (fun c _ _ h => h.mapOperands (reassigns_colorOperand c) (Nat.le_refl _)) hf h halloc

end MxStar.Alloc

namespace MxStar.Asm

open IR (Func Operand PhysReg fitsImm32)
open Alloc (Legal LegalAddress Extent)

variable {o : Operand}

/-! ## Words that fit -/

theorem fitsImm32_ofInt {z : Int} (hlo : -2147483648 ≤ z) (hhi : z ≤ 2147483647) :
    fitsImm32 (Int64.ofInt z) = true := by
  have hz : (Int64.ofInt z).toInt = z := Int64.toInt_ofInt_of_le (by omega) (by omega)
  simp only [fitsImm32, Bool.and_eq_true, decide_eq_true_eq, Int64.le_iff_toInt_le, hz]
  exact ⟨hlo, hhi⟩

theorem fitsImm32_words {n : Nat} (hn : n < 2 ^ 28) : fitsImm32 (Int64.ofNat n * 8) = true := by
  have heq : Int64.ofNat n * 8 = Int64.ofInt (n * 8) := by
    rw [Int64.ofInt_mul, Int64.ofInt_eq_ofNat]
    rfl
  rw [heq]
  exact fitsImm32_ofInt (by omega) (by omega)

theorem isEncodable_slotPlace {k : Nat} (hk : k < 2 ^ 27) : (slotPlace k).isEncodable = true := by
  have heq : -(Int64.ofNat k + 1) * 8 = Int64.ofInt (-(k + 1) * 8) := by
    rw [Int64.ofInt_mul, Int64.ofInt_neg, Int64.ofInt_add, Int64.ofInt_eq_ofNat]
    rfl
  show fitsImm32 (-(Int64.ofNat k + 1) * 8) = true
  rw [heq]
  exact fitsImm32_ofInt (by omega) (by omega)

theorem isEncodable_incomingPlace {k : Nat} (hk : k < 2 ^ 27) :
    (incomingPlace k).isEncodable = true := by
  have heq : 16 + Int64.ofNat k * 8 = Int64.ofInt (16 + k * 8) := by
    rw [Int64.ofInt_add, Int64.ofInt_mul, Int64.ofInt_eq_ofNat]
    rfl
  show fitsImm32 (16 + Int64.ofNat k * 8) = true
  rw [heq]
  exact fitsImm32_ofInt (by omega) (by omega)

/-! ## Selection -/

section Selection

variable {syms : Symbols} {f : Func} {x : Extent}

theorem isEncodable_selectArg {a : Arg} (ho : Alloc.Encodable o) (ha : selectArg o = .ok a) :
    a.isEncodable = true := by
  cases o with
  | phys => cases ha; rfl
  | imm => cases ha; exact ho
  | vreg | static => cases ha

theorem isEncodable_mov_selectArg {a : Arg} (ha : selectArg o = .ok a) (d : PhysReg) :
    (Instr.mov (.reg d) a).isEncodable = true := by
  cases o with
  | phys | imm => cases ha; rfl
  | vreg | static => cases ha

theorem isEncodable_store {a : Arg} (ho : Alloc.Encodable o) (ha : selectArg o = .ok a) {m : Mem}
    (hm : m.isEncodable = true) : (Instr.mov (.mem m) a).isEncodable = true := by
  cases o with
  | phys => cases ha; exact hm
  | imm =>
    cases ha
    exact Bool.and_eq_true_iff.2 ⟨hm, ho⟩
  | vreg | static => cases ha

theorem isEncodable_selectMem (hslots : x.slots ≤ 2 ^ 27) (hincoming : x.incoming ≤ 2 ^ 27)
    {a : IR.Address} {m : Mem} (ha : LegalAddress x a) (hm : selectMem syms a = .ok m) :
    m.isEncodable = true := by
  cases a with
  | base b offset =>
    obtain ⟨r, -, hm⟩ := Except.bind_eq_ok.1 hm
    cases hm
    exact ha
  | static s =>
    obtain ⟨label, -, hm⟩ := Except.bind_eq_ok.1 hm
    cases hm
    rfl
  | slot k =>
    cases hm
    exact isEncodable_slotPlace (Nat.lt_of_lt_of_le ha hslots)
  | incoming k =>
    cases hm
    exact isEncodable_incomingPlace (Nat.lt_of_lt_of_le ha hincoming)

theorem lt_of_shiftCount {count : Option Nat} (h : ShiftCount o count) :
    count.all (· < 64) = true := by
  cases o with
  | imm k =>
    cases h
    have hlt : Interp.position k % 64 < 64 := Nat.mod_lt _ (by decide)
    rw [Option.all_some, toNatClampNeg_and_63]
    exact decide_eq_true hlt
  | phys r =>
    obtain ⟨-, rfl⟩ := h
    rfl
  | vreg | static => cases h

/-- **What is selected for a legal instruction that is in place is encodable.** -/
theorem Chosen.isEncodable {i : IR.Instr} {j : Instr} (h : Chosen syms f i j) (hi : Legal x i)
    (hplaced : Alloc.InPlace i) (hslots : x.slots ≤ 2 ^ 27) (hincoming : x.incoming ≤ 2 ^ 27)
    (houtgoing : x.outgoing ≤ 2 ^ 27) : j.isEncodable = true := by
  cases h with
  | copy _ _ ha => exact isEncodable_mov_selectArg ha _
  | alu hop ho ha =>
    obtain ⟨hl, hr⟩ := hi hop
    rcases ho with rfl | rfl
    · exact isEncodable_selectArg hl ha
    · exact isEncodable_selectArg hr ha
  | idiv hop =>
    obtain ⟨-, -, hrax, hrdx⟩ := hplaced.1 hop
    simp only [Instr.isEncodable, Bool.and_eq_true, decide_eq_true_eq]
    exact ⟨fun h => hrax (congrArg Operand.phys h), fun h => hrdx (congrArg Operand.phys h)⟩
  | shift hcount => exact lt_of_shiftCount hcount
  | compare ha | test ha | push ha => exact isEncodable_selectArg hi ha
  | load hm => exact isEncodable_selectMem hslots hincoming hi hm
  | store hm ha => exact isEncodable_store hi.2 ha (isEncodable_selectMem hslots hincoming hi.1 hm)
  | release =>
    have hn : _ ≤ x.outgoing := hi
    exact fitsImm32_words (by omega)
  | address | neg | not | cqo | set | movzx | call | jump | taken | other | leave => rfl

end Selection

/-! ## Frames -/

theorem length_savedBy_le (body : List Line) : (savedBy body).length ≤ 5 :=
  List.length_filter_le _ _

theorem paddedSlots_le (slots saved : Nat) : paddedSlots slots saved ≤ slots + 1 := by
  rw [paddedSlots]
  omega

theorem isEncodable_prologue {slots : Nat} (hslots : slots < 2 ^ 27) (saved : List PhysReg) :
    ∀ i ∈ instrsOf (prologue slots saved), i.isEncodable = true := by
  have hwords := paddedSlots_le slots saved.length
  intro i hi
  obtain rfl | rfl | rfl | ⟨r, _, rfl⟩ := mem_prologue hi
  · rfl
  · rfl
  · show fitsImm32 (Int64.ofNat (paddedSlots slots saved.length * 8)) = true
    rw [Int64.ofNat_mul]
    exact fitsImm32_words (by omega)
  · rfl

theorem isEncodable_epilogue {slots : Nat} (hslots : slots < 2 ^ 27) {saved : List PhysReg}
    (hsaved : saved.length ≤ 5) : ∀ i ∈ instrsOf (epilogue slots saved), i.isEncodable = true := by
  have hwords := paddedSlots_le slots saved.length
  intro i hi
  obtain rfl | ⟨r, _, rfl⟩ | rfl | rfl | rfl := mem_epilogue hi
  · have heq : -Int64.ofNat (paddedSlots slots saved.length + saved.length) * 8 =
        Int64.ofInt (-(paddedSlots slots saved.length + saved.length : Nat) * 8) := by
      rw [Int64.ofInt_mul, Int64.ofInt_neg, Int64.ofInt_eq_ofNat]
      rfl
    show fitsImm32 (-Int64.ofNat (paddedSlots slots saved.length + saved.length) * 8) = true
    rw [heq]
    exact fitsImm32_ofInt (by omega) (by omega)
  · rfl
  · rfl
  · rfl
  · rfl

theorem isEncodable_routine {syms : Symbols} {f : Func} {y : Routine}
    (hy : routine syms f = .ok y) {x : Extent} (hlegal : f.Every (Legal x))
    (hplaced : f.Every Alloc.InPlace) (hx : x.slots = f.slots) (hslots : f.slots < 2 ^ 27)
    (hincoming : x.incoming ≤ 2 ^ 27) (houtgoing : x.outgoing ≤ 2 ^ 27) :
    ∀ i ∈ instrsOf y.code, i.isEncodable = true := by
  obtain ⟨body, hbody, hy⟩ := Except.bind_eq_ok.1 hy
  cases hy
  show ∀ i ∈ instrsOf (prologue _ _ ++ body ++ epilogue _ _), i.isEncodable = true
  rw [instrsOf_append, instrsOf_append, List.forall_mem_append, List.forall_mem_append]
  refine ⟨⟨isEncodable_prologue hslots _, ?_⟩,
    isEncodable_epilogue hslots (length_savedBy_le body)⟩
  intro j hj
  obtain ⟨b, hb, i, hi, hchosen⟩ := exists_chosen hbody hj
  exact hchosen.isEncodable (hlegal b hb i hi) (hplaced b hb i hi) (by omega) hincoming houtgoing

end MxStar.Asm

namespace MxStar

open IR

/-! ## Compiled programs -/

/-- Whether the functions of a program have fewer parameters than a bound and their calls fewer
arguments, and the functions after allocation have fewer slots. -/
def withinBound (n : Nat) (ir p : Program) : Bool :=
  ir.functions.all (fun f => f.params.length < n && f.instrs.all fun
    | .call _ _ args _ => args.length < n
    | _ => true) &&
  p.functions.all (·.slots < n)

theorem withinBound_eq_true {n : Nat} {ir p : Program} (h : withinBound n ir p = true) :
    (∀ f ∈ ir.functions, f.params.length < n ∧ Alloc.CallsBelow n f) ∧
      ∀ f ∈ p.functions, f.slots < n := by
  rw [withinBound, Bool.and_eq_true, Array.all_eq_true_iff_forall_mem,
    Array.all_eq_true_iff_forall_mem] at h
  refine ⟨fun f hf => ?_, fun f hf => of_decide_eq_true (h.2 f hf)⟩
  have hfunc := h.1 f hf
  rw [Bool.and_eq_true, List.all_eq_true] at hfunc
  refine ⟨of_decide_eq_true hfunc.1, fun b hb i hi dst callee args k heq => ?_⟩
  have hcall := hfunc.2 i (List.mem_flatMap.2 ⟨b, hb, hi⟩)
  subst heq
  exact of_decide_eq_true hcall

/-- **All emitted instructions can be encoded.** If functions have fewer than `2 ^ 27` parameters and
slots and calls fewer than `2 ^ 27` arguments, then no immediate is too wide but that of a move to a
register, no displacement is too wide, no move is from memory to memory, every shift is by cl or by
less than 64, and no division is by rax or rdx. -/
theorem isEncodable_of_compiles {options : Options} {tree : Tree.Program} {ir p : Program}
    {l : Asm.Listing} (h : Compiles options tree ir p l) (hbound : withinBound (2 ^ 27) ir p = true) :
    ∀ x ∈ l.routines, ∀ i ∈ Asm.instrsOf x.code, i.isEncodable = true := by
  intro x hx i hi
  obtain ⟨hir, hslots⟩ := withinBound_eq_true hbound
  obtain ⟨f, hf, y, hy, rfl⟩ := h.exists_routine hx
  obtain ⟨f0, g, stats, hf0, hconv, halloc⟩ := h.exists_source hf
  obtain ⟨hparams, hcalls⟩ := hir f0 hf0
  have hlegal := Alloc.legal_allocate hconv.shaped (hconv.legal (h.complete f0 hf0) hcalls) halloc
  obtain hi | rfl | ⟨d, s, -, rfl⟩ := (h.orderly hf hy).mem_cleanRoutine hi
  · exact Asm.isEncodable_routine hy hlegal (h.emittable hf).inPlace rfl (hslots f hf)
      (Nat.le_of_lt hparams) (Nat.le_refl _) i hi
  · rfl
  · rfl

theorem isEncodable_sample : ∃ ir p l, Compiles { inline := true } .sample ir p l ∧
    withinBound (2 ^ 27) ir p = true ∧ l.routines ≠ [] ∧
      ∀ x ∈ l.routines, ∀ i ∈ Asm.instrsOf x.code, i.isEncodable = true := by
  have hsample : (do
      let ir ← compileToIR (← Scope.ofProgram .sample) { inline := true } .sample
      let x ← assemble PhysReg.allocatable ir
      return (withinBound (2 ^ 27) ir x.1, decide (x.2.routines ≠ []))) = .ok (true, true) := by
    decide +kernel
  obtain ⟨scope, hscope, h⟩ := Except.bind_eq_ok.1 hsample
  obtain ⟨ir, hir, h⟩ := Except.bind_eq_ok.1 h
  obtain ⟨⟨p, l⟩, hl, h⟩ := Except.bind_eq_ok.1 h
  obtain ⟨hbound, hroutines⟩ := Prod.mk.inj (Except.ok.inj h)
  have hc : Compiles { inline := true } .sample ir p l := ⟨⟨scope, hscope, hir⟩, hl⟩
  exact ⟨ir, p, l, hc, hbound, of_decide_eq_true hroutines, isEncodable_of_compiles hc hbound⟩

end MxStar
