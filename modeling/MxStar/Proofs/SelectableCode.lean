import MxStar.Proofs.EncodableCode

/-!
Code for which instructions can be selected.

Selection fails where an operand that has to be a register is none, where a static or a function has no
symbol, and where the count of a shift is neither a constant nor in rcx. `Alloc.Selectable` excludes that. The
convention establishes it (`Conforms.selectable`), and allocation keeps it (`allotted_allocate`).
-/
namespace MxStar.Alloc

open IR List

variable {dst o v : Operand} {new pre : List Instr} {f g : Func} {statics : Nat}

/-! ## Selectable instructions -/

/-- The address starts from a register, or is one of a static that exists or of the frame. -/
def SelectableAddress (statics : Nat) : Address → Prop
  | .base b _ => b.isReg = true
  | .static s => s < statics
  | .slot _ | .incoming _ => True

/-- The instruction has registers, constants, statics and functions where selection wants them. -/
def Selectable (statics functions : Nat) : Instr → Prop
  | .move dst src => dst.isReg = true ∧ ∀ s, src = .static s → s < statics
  | .binary dst op l r =>
    dst.isReg = true ∧ (op = .div ∨ op = .mod → r.isReg = true) ∧
    (op = .shl ∨ op = .shr → l = dst ∧ ((∃ k, r = .imm k) ∨ r = .phys .rcx)) ∧
    (op ≠ .div ∧ op ≠ .mod ∧ op ≠ .shl ∧ op ≠ .shr → Encodable l ∧ Encodable r)
  | .unary dst _ src => dst.isReg = true ∧ Encodable src
  | .compare dst _ l r => dst.isReg = true ∧ l.isReg = true ∧ Encodable r
  | .branch _ l r _ _ => l.isReg = true ∧ Encodable r
  | .load dst a => dst.isReg = true ∧ SelectableAddress statics a
  | .store a src => SelectableAddress statics a ∧ Encodable src
  | .call _ callee _ _ => ∀ id, callee = .func id → id < functions
  | .push src => Encodable src
  | .jump _ | .ret _ => True

section Reassigned

variable {σ : Operand → Operand} (hσ : Reassigns σ)
include hσ

theorem Reassigns.isReg (h : o.isReg = true) : (σ o).isReg = true := by
  rcases hσ o with heq | ⟨-, hreg⟩
  · rw [heq]
    exact h
  · exact hreg

theorem Reassigns.eq_self (h : ∀ v, o ≠ .vreg v) : σ o = o :=
  (hσ o).resolve_right fun ⟨⟨v, hv⟩, _⟩ => h v hv

theorem SelectableAddress.mapOperands {a : Address} (h : SelectableAddress statics a) :
    SelectableAddress statics (a.mapOperands σ) := by
  cases a with
  | base b => exact hσ.isReg h
  | static | slot | incoming => exact h

theorem Selectable.mapOperands {functions : Nat} {i : Instr} (h : Selectable statics functions i) :
    Selectable statics functions (i.mapOperands σ) := by
  cases i with
  | move dst src =>
    refine ⟨hσ.isReg h.1, fun s hs => ?_⟩
    rcases hσ src with heq | ⟨-, hreg⟩
    · exact h.2 s (heq.symm.trans hs)
    · rw [hs] at hreg
      cases hreg
  | binary dst op l r =>
    obtain ⟨hdst, hdiv, hshift, halu⟩ := h
    refine ⟨hσ.isReg hdst, fun hop => hσ.isReg (hdiv hop), fun hop => ?_, fun hop => ?_⟩
    · obtain ⟨rfl, ⟨k, rfl⟩ | rfl⟩ := hshift hop
      · exact ⟨rfl, .inl ⟨k, hσ.eq_self fun _ h => by cases h⟩⟩
      · exact ⟨rfl, .inr (hσ.eq_self fun _ h => by cases h)⟩
    · exact ⟨hσ.encodable (halu hop).1, hσ.encodable (halu hop).2⟩
  | unary | branch => exact ⟨hσ.isReg h.1, hσ.encodable h.2⟩
  | compare => exact ⟨hσ.isReg h.1, hσ.isReg h.2.1, hσ.encodable h.2.2⟩
  | load => exact ⟨hσ.isReg h.1, SelectableAddress.mapOperands hσ h.2⟩
  | store => exact ⟨SelectableAddress.mapOperands hσ h.1, hσ.encodable h.2⟩
  | call => exact h
  | push => exact hσ.encodable h
  | jump | ret => trivial

end Reassigned

/-! ## The calling convention -/

section Convention

variable {K : Known} {functions lo hi : Nat}

theorem selectable_shift {count : Operand} {op : BinOp} (hop : op = .shl ∨ op = .shr)
    (hdst : dst.isReg = true) (hcount : (∃ k, count = .imm k) ∨ count = .phys .rcx) :
    Selectable K.statics functions (.binary dst op dst count) := by
  refine ⟨hdst, fun hdiv => ?_, fun _ => ⟨rfl, hcount⟩, fun hne => ?_⟩
  · rcases hop with rfl | rfl <;> simp at hdiv
  · exact (hop.elim hne.2.2.1 hne.2.2.2).elim

theorem selectable_alu {l r : Operand} {op : BinOp}
    (hop : op ≠ .div ∧ op ≠ .mod ∧ op ≠ .shl ∧ op ≠ .shr) (hdst : dst.isReg = true)
    (hl : Encodable l) (hr : Encodable r) : Selectable K.statics functions (.binary dst op l r) :=
  ⟨hdst, fun h => (h.elim hop.1 hop.2.1).elim, fun h => (h.elim hop.2.2.1 hop.2.2.2).elim,
    fun _ => ⟨hl, hr⟩⟩

/-- **Instructions can be selected for the code that stands for an instruction.** -/
theorem Conforms.selectable {i : Instr} (h : Conforms lo hi i new) (hi : i.Within K)
    (hcallable : ∀ id, K.callable id → id < functions) :
    ∀ j ∈ new, Selectable K.statics functions j := by
  intro j hj
  have hstatics : ∀ o ∈ j.operands, ∀ s, o = .static s → s < K.statics := by
    refine h.operands (by simp) (by simp) (by simp) ?_ j hj
    rintro o ho s rfl
    exact (Pass.within_operands hi _ ho).resolve_right id
  have haddress : ∀ {a a' : Address}, Formed a a' → a.Within K →
      SelectableAddress K.statics a' := by
    intro a a' hformed ha
    cases hformed with
    | base hb => exact hb
    | same hfixed =>
      cases a with
      | base => cases hfixed
      | static => exact ha
      | slot | incoming => cases ha
  cases h.part j hj with
  | setup h =>
    cases h with
    | move => exact ⟨rfl, (forall_operands_move.1 hstatics).2⟩
    | add _ hb => exact selectable_alu (by decide) rfl trivial (encodable_of_isReg hb)
  | push _ hv => exact hv
  | move hd =>
    refine ⟨?_, (forall_operands_move.1 hstatics).2⟩
    rcases hd with hd | ⟨q, rfl⟩
    · exact isReg_of_dst hi hd
    · rfl
  | divide hop hreg =>
    refine ⟨rfl, fun _ => hreg, fun hshift => ?_, fun hne => (hop.elim hne.1 hne.2.1).elim⟩
    rcases hop with rfl | rfl <;> simp at hshift
  | shift hop hd hcount => exact selectable_shift hop (isReg_of_dst hi hd) hcount
  | binary hop hd hl hr =>
    exact selectable_alu hop (isReg_of_dst hi hd) (encodable_side hi hd hl) (encodable_side hi hd hr)
  | unary hd hs => exact ⟨isReg_of_dst hi hd, hs⟩
  | compare hd hl hr => exact ⟨isReg_of_dst hi hd, hl, hr⟩
  | branch _ hl hr => exact ⟨hl, hr⟩
  | load heq ha =>
    subst heq
    exact ⟨isReg_of_dst hi rfl, haddress ha hi.2⟩
  | store heq ha hs =>
    subst heq
    exact ⟨haddress ha hi.1, hs⟩
  | call heq =>
    subst heq
    rintro id rfl
    exact hcallable id hi.2.1
  | ret => trivial
  | same heq =>
    rcases heq with ⟨s, rfl⟩ | ⟨t, rfl⟩ | rfl
    · cases hi
    · trivial
    · trivial

end Convention

theorem Conventional.selectable (h : Conventional f g) {functions : Nat}
    (hf : f.Intact statics (· < functions)) : g.Every (Selectable statics functions) := by
  refine h.every (fun v _ i _ => ?_) trivial fun b _ i hi new hnew =>
    hnew.selectable (hf.within b i hi) fun _ h => h
  rw [bindParam]
  split
  · exact ⟨rfl, fun _ h => by cases h⟩
  · exact ⟨rfl, trivial⟩

/-! ## Allocation -/

section Allocation

variable {statics functions : Nat}

/-- A spilled register has its place in the frame, and only what can be stored is stored. -/
theorem SpillsTo.selectable {slots : Slots} {lo hi : Nat} {i : Instr}
    (h : SpillsTo slots lo hi i new) (hi : Selectable statics functions i) :
    ∀ j ∈ new, Selectable statics functions j := by
  intro j hj
  obtain ⟨o, k, -, -, ho, rfl⟩ | ⟨o, k, -, -, ho, rfl⟩ | ⟨τ, -, rfl⟩ := h.cases_mem hj
  · refine ⟨?_, trivial⟩
    rcases ho with ⟨t, rfl⟩ | ⟨v, rfl⟩
    · rfl
    · exact hi.1
  · exact ⟨trivial, ho⟩
  · exact hi.mapOperands (reassigns_renameVReg τ)

theorem selectable_allocate {palette : List PhysReg} {stats : Stats} (hf : f.Shaped)
    (h : f.Every (Selectable statics functions)) (halloc : allocate palette f = .ok (g, stats)) :
    g.Every (Selectable statics functions) :=
  every_allocate (P := fun _ => Selectable statics functions) (fun hs _ _ => hs.selectable)
    (fun c _ _ => .mapOperands (reassigns_colorOperand c)) hf h halloc

end Allocation

/-- The operand is no virtual register, and a physical one only if that is allocatable. -/
def Allotted : Operand → Prop
  | .vreg _ => False
  | .phys q => q ∈ PhysReg.allocatable
  | .imm _ | .static _ => True

example : PhysReg.allocatable.length = 14 := rfl

theorem allotted_colorOperand {c : Coloring} (hphys : ∀ q, o = .phys q → q ∈ PhysReg.callerSaved)
    (hvirt : ∀ v, o = .vreg v → ∃ q ∈ PhysReg.allocatable, c.get? v = some q) :
    Allotted (colorOperand c o) := by
  cases o with
  | vreg v =>
    obtain ⟨q, hq, hc⟩ := hvirt v rfl
    have hcolor : colorOperand c (.vreg v) = .phys q := colorOperand_of_reg? rfl hc
    rw [hcolor]
    exact hq
  | phys q => exact mem_allocatable_of_callerSaved (hphys q rfl)
  | imm | static => trivial

/-- **No virtual register is left by an allocation that succeeds.** -/
theorem allotted_allocate {stats : Stats} (hf : Prepared f)
    (halloc : allocate PhysReg.allocatable f = .ok (g, stats)) :
    g.Every fun i => ∀ o ∈ i.operands, Allotted o := by
  refine allocateFrom_induct (P := Prepared) (fun _ hs hf => hs.prepared hf) ?_ hf.stacked.shaped hf
    halloc
  intro f unspillable c hshaped hc hu hf b hb j hj o ho
  have hcol := coloured_applyColoring hshaped (fun _ hq => hq) hc hu
  rw [layout_applyColoring hshaped] at hb
  rw [hcol.code b hb] at hj
  obtain ⟨i, hi, rfl⟩ := mem_map.1 hj
  rw [operands_mapOperands] at ho
  obtain ⟨o', ho', rfl⟩ := mem_map.1 ho
  refine allotted_colorOperand ?_ ?_
  · rintro q rfl
    exact hf.regs b hb i hi q ho'
  · rintro v rfl
    obtain ⟨q, hq⟩ := hcol.total b hb i hi v ho'
    exact ⟨q, hcol.palette v q hq, hq⟩

end MxStar.Alloc

namespace MxStar.Asm

open IR (Func BlockId Operand PhysReg)
open Alloc (Allotted Encodable Selectable SelectableAddress encodable_of_isReg)

variable {dst : Operand}

/-! ## Selection -/

section Selection

variable {syms : Symbols}

theorem exists_selectReg {o : Operand} (h : o.isReg = true) (ho : Allotted o) :
    ∃ r, o = .phys r ∧ selectReg o = .ok r := by
  cases o with
  | phys q => exact ⟨q, rfl, rfl⟩
  | vreg => cases ho
  | imm | static => cases h

theorem exists_selectArg {o : Operand} (h : Encodable o) (ho : Allotted o) :
    ∃ a, selectArg o = .ok a := by
  cases o with
  | phys q => exact ⟨.reg q, rfl⟩
  | imm w => exact ⟨.imm w, rfl⟩
  | vreg => cases ho
  | static => cases h

theorem exists_staticSymbol {s : IR.StaticId} (h : s < syms.statics.size) :
    ∃ label, syms.static s = .ok label :=
  ⟨syms.statics[s], by rw [Symbols.static, Array.getElem?_eq_getElem h]⟩

theorem exists_calleeSymbol {callee : IR.Callee}
    (h : ∀ id, callee = .func id → id < syms.functions.size) :
    ∃ label, syms.callee callee = .ok label := by
  cases callee with
  | func id =>
    have hid := h id rfl
    exact ⟨syms.functions[id], by rw [Symbols.callee, Array.getElem?_eq_getElem hid]⟩
  | builtin b => exact ⟨b.symbol, rfl⟩

theorem exists_selectMem {a : IR.Address} (h : SelectableAddress syms.statics.size a)
    (ha : ∀ o ∈ a.operands, Allotted o) : ∃ m, selectMem syms a = .ok m := by
  cases a with
  | base b offset =>
    obtain ⟨r, -, hr⟩ := exists_selectReg h (ha b (by simp [IR.Address.operands]))
    exact ⟨.base r offset, Except.bind_eq_ok.2 ⟨r, hr, rfl⟩⟩
  | static s =>
    obtain ⟨label, hlabel⟩ := exists_staticSymbol h
    exact ⟨.label label, Except.bind_eq_ok.2 ⟨label, hlabel, rfl⟩⟩
  | slot k => exact ⟨slotPlace k, rfl⟩
  | incoming k => exact ⟨incomingPlace k, rfl⟩

theorem exists_selectMove {src : Operand} {functions : Nat}
    (h : Selectable syms.statics.size functions (.move dst src)) (hdst : Allotted dst)
    (hsrc : Allotted src) : ∃ lines, selectMove syms dst src = .ok lines := by
  obtain ⟨d, rfl, hd⟩ := exists_selectReg h.1 hdst
  cases src with
  | static s =>
    obtain ⟨label, hlabel⟩ := exists_staticSymbol (h.2 s rfl)
    exact ⟨_, Except.bind_eq_ok.2 ⟨d, hd, Except.bind_eq_ok.2 ⟨label, hlabel, rfl⟩⟩⟩
  | vreg => cases hsrc
  | phys | imm => exact ⟨_, rfl⟩

theorem exists_selectShift {count : Operand} (op : ShiftOp) (hreg : dst.isReg = true)
    (hdst : Allotted dst) (hcount : (∃ k, count = .imm k) ∨ count = .phys .rcx) :
    ∃ lines, selectShift op dst dst count = .ok lines := by
  obtain ⟨d, rfl, hd⟩ := exists_selectReg hreg hdst
  rcases hcount with ⟨k, rfl⟩ | rfl
  · exact ⟨[plain (.shift op d (some (k &&& 63).toNatClampNeg))], by simp [selectShift, selectReg]⟩
  · exact ⟨[plain (.shift op d none)], by simp [selectShift, selectReg]⟩

theorem exists_selectAlu {lhs rhs : Operand} (op : IR.BinOp) (alu : AluOp) (hreg : dst.isReg = true)
    (hdst : Allotted dst) (hlhs : ∃ a, selectArg lhs = .ok a) (hrhs : ∃ a, selectArg rhs = .ok a) :
    ∃ lines, selectAlu op alu dst lhs rhs = .ok lines := by
  obtain ⟨d, rfl, hd⟩ := exists_selectReg hreg hdst
  obtain ⟨l, hl⟩ := hlhs
  obtain ⟨r, hr⟩ := hrhs
  rw [selectAlu, hd, hl, hr, Except.ok_bind]
  split
  · exact ⟨_, rfl⟩
  split
  · exact ⟨_, rfl⟩
  split
  · exact ⟨_, rfl⟩
  · exact ⟨_, rfl⟩

theorem exists_selectBinary {lhs rhs : Operand} {op : IR.BinOp} {statics functions : Nat}
    (h : Selectable statics functions (.binary dst op lhs rhs)) (hdst : Allotted dst)
    (hlhs : Allotted lhs) (hrhs : Allotted rhs) :
    ∃ lines, selectBinary dst op lhs rhs = .ok lines := by
  obtain ⟨hreg, hdiv, hshift, halu⟩ := h
  have hdivide : op = .div ∨ op = .mod → ∃ r, selectReg rhs = .ok r := fun hop =>
    (exists_selectReg (hdiv hop) hrhs).imp fun _ hr => hr.2
  have harith : op ≠ .div ∧ op ≠ .mod ∧ op ≠ .shl ∧ op ≠ .shr → ∀ alu,
      ∃ lines, selectAlu op alu dst lhs rhs = .ok lines := fun hop alu =>
    exists_selectAlu op alu hreg hdst (exists_selectArg (halu hop).1 hlhs)
      (exists_selectArg (halu hop).2 hrhs)
  have hinplace : op = .shl ∨ op = .shr → ∀ sop,
      ∃ lines, selectShift sop dst lhs rhs = .ok lines := by
    intro hop sop
    obtain ⟨rfl, hcount⟩ := hshift hop
    exact exists_selectShift sop hreg hdst hcount
  cases op with
  | div | mod =>
    obtain ⟨r, hr⟩ := hdivide (by decide)
    exact ⟨[plain .cqo, plain (.idiv r)], Except.bind_eq_ok.2 ⟨r, hr, rfl⟩⟩
  | shl | shr => exact hinplace (by decide) _
  | add | sub | mul | and | or | xor => exact harith (by decide) _

theorem exists_selectUnary {src : Operand} (op : IR.UnOp) (hreg : dst.isReg = true)
    (hdst : Allotted dst) (hsrc : ∃ a, selectArg src = .ok a) :
    ∃ lines, selectUnary dst op src = .ok lines := by
  obtain ⟨d, rfl, hd⟩ := exists_selectReg hreg hdst
  obtain ⟨a, ha⟩ := hsrc
  by_cases heq : src = .phys d
  · simp only [selectUnary, hd, heq, if_true]
    exact ⟨_, rfl⟩
  · simp only [selectUnary, hd, ha, heq, if_false]
    exact ⟨_, rfl⟩

/-- **Instructions can be selected for every instruction that is selectable and allotted.** -/
theorem exists_selectInstr (f : Func) (next : Option BlockId) {i : IR.Instr}
    (h : Selectable syms.statics.size syms.functions.size i)
    (hops : ∀ o ∈ i.operands, Allotted o) : ∃ lines, selectInstr syms f next i = .ok lines := by
  cases i with
  | move dst src =>
    obtain ⟨hdst, hsrc⟩ := IR.forall_operands_move.1 hops
    exact exists_selectMove h hdst hsrc
  | binary dst op lhs rhs =>
    obtain ⟨hdst, hlhs, hrhs⟩ := IR.forall_operands_binary.1 hops
    exact exists_selectBinary h hdst hlhs hrhs
  | unary dst op src =>
    obtain ⟨hdst, hsrc⟩ := IR.forall_operands_unary.1 hops
    exact exists_selectUnary op h.1 hdst (exists_selectArg h.2 hsrc)
  | compare dst cond lhs rhs =>
    obtain ⟨hdst, hlhs, hrhs⟩ := IR.forall_operands_compare.1 hops
    obtain ⟨d, -, hd⟩ := exists_selectReg h.1 hdst
    obtain ⟨l, -, hl⟩ := exists_selectReg h.2.1 hlhs
    obtain ⟨r, hr⟩ := exists_selectArg h.2.2 hrhs
    simp only [selectInstr, hd, hl, hr]
    exact ⟨_, rfl⟩
  | branch cond lhs rhs t e =>
    obtain ⟨hlhs, hrhs⟩ := IR.forall_operands_branch.1 hops
    obtain ⟨l, -, hl⟩ := exists_selectReg h.1 hlhs
    obtain ⟨r, hr⟩ := exists_selectArg h.2 hrhs
    simp only [selectInstr, selectBranch, hl, hr]
    exact ⟨_, rfl⟩
  | load dst a =>
    obtain ⟨hdst, ha⟩ := IR.forall_operands_load.1 hops
    obtain ⟨d, -, hd⟩ := exists_selectReg h.1 hdst
    obtain ⟨m, hm⟩ := exists_selectMem h.2 ha
    simp only [selectInstr, hd, hm]
    exact ⟨_, rfl⟩
  | store a src =>
    obtain ⟨ha, hsrc⟩ := IR.forall_operands_store.1 hops
    obtain ⟨m, hm⟩ := exists_selectMem h.1 ha
    obtain ⟨s, hs⟩ := exists_selectArg h.2 hsrc
    simp only [selectInstr, hm, hs]
    exact ⟨_, rfl⟩
  | call dst callee args n =>
    obtain ⟨label, hlabel⟩ := exists_calleeSymbol h
    simp only [selectInstr, hlabel]
    exact ⟨_, rfl⟩
  | push src =>
    obtain ⟨s, hs⟩ := exists_selectArg h (IR.forall_operands_push.1 hops)
    simp only [selectInstr, hs]
    exact ⟨_, rfl⟩
  | jump | ret => exact ⟨_, rfl⟩

def SelectableCode (syms : Symbols) (code : List IR.Instr) : Prop :=
  ∀ i ∈ code, Selectable syms.statics.size syms.functions.size i ∧ ∀ o ∈ i.operands, Allotted o

theorem exists_selectCode (f : Func) (next : Option BlockId) {code : List IR.Instr}
    (h : SelectableCode syms code) : ∃ lines, selectCode syms f next code = .ok lines := by
  induction code with
  | nil => exact ⟨[], rfl⟩
  | cons i rest ih =>
    obtain ⟨⟨hi, hops⟩, hrest⟩ := List.forall_mem_cons.1 h
    obtain ⟨first, hfirst⟩ := exists_selectInstr f next hi hops
    obtain ⟨lines, hlines⟩ := ih hrest
    exact ⟨first ++ lines,
      Except.bind_eq_ok.2 ⟨first, hfirst, Except.bind_eq_ok.2 ⟨lines, hlines, rfl⟩⟩⟩

theorem exists_selectBlocks {f : Func} {layout : List BlockId}
    (h : ∀ b ∈ layout, SelectableCode syms (f.code b)) :
    ∃ lines, selectBlocks syms f layout = .ok lines := by
  induction layout with
  | nil => exact ⟨[], rfl⟩
  | cons b rest ih =>
    obtain ⟨hb, hrest⟩ := List.forall_mem_cons.1 h
    obtain ⟨code, hcode⟩ := exists_selectCode f rest.head? hb
    obtain ⟨lines, hlines⟩ := ih hrest
    exact ⟨labelLine f b ++ code ++ lines,
      Except.bind_eq_ok.2 ⟨code, hcode, Except.bind_eq_ok.2 ⟨lines, hlines, rfl⟩⟩⟩

theorem exists_routine {f : Func} (h : ∀ b ∈ f.layout, SelectableCode syms (f.code b)) :
    ∃ y, routine syms f = .ok y := by
  obtain ⟨body, hbody⟩ := exists_selectBlocks h
  exact ⟨.ofBody f.label f.slots body, Except.bind_eq_ok.2 ⟨body, hbody, rfl⟩⟩

end Selection

end MxStar.Asm
