import MxStar.Proofs.AllocatedFunctions
import MxStar.Proofs.MachineArithmetic
import MxStar.Proofs.MachineStates
import MxStar.Proofs.SelectedLines

/-!
Single instructions on the machine.

The lines that selection gives for an instruction do what the interpreter does (`leads_compute`). Most put a
value into a register and change nothing else but flags (`Puts`), however their destination and operands
coincide.
-/
namespace MxStar.Asm

open IR (Word PhysReg Operand Address Func BlockId BinOp UnOp CmpOp)
open Interp (Machine Frame Memory Store value assign compute)

variable {dst lhs o rhs src : Operand} {l r w : Word} {d q : PhysReg} {next : Option BlockId}
  {f : Func} {lines : List Line} {op : BinOp} {a : Arg}

/-! ## Straight code -/

/-- The state after lines that neither call nor transfer control. -/
def execs (env : Env) : List Line → State → Option State
  | [], s => some s
  | .label _ :: rest, s => execs env rest s
  | .instr i _ :: rest, s => (exec env i s).bind (execs env rest)

theorem execs_append (env : Env) (lines rest : List Line) (s : State) :
    execs env (lines ++ rest) s = (execs env lines s).bind (execs env rest) := by
  induction lines generalizing s with
  | nil => rfl
  | cons a lines ih =>
    cases a with
    | label => exact ih s
    | instr i comment =>
      rw [List.cons_append, execs, execs, Option.bind_assoc]
      exact congrArg _ (funext ih)

/-! ## Operands -/

theorem selectArg_eq_ok (h : selectArg o = .ok a) :
    (∃ q, o = .phys q ∧ a = .reg q) ∨ ∃ w, o = .imm w ∧ a = .imm w := by
  cases o with
  | phys q =>
    cases h
    exact .inl ⟨q, rfl, rfl⟩
  | imm w =>
    cases h
    exact .inr ⟨w, rfl, rfl⟩
  | _ => cases h

def NoPointer (o : Operand) : Prop := ∀ q, o = .phys q → q ≠ .rsp ∧ q ≠ .rbp

theorem selectBinary_dst (hop : ¬(op = .div ∨ op = .mod))
    (h : selectBinary dst op lhs rhs = .ok lines) : ∃ d, dst = .phys d := by
  have hreg : ∀ {k : PhysReg → Except CompileError (List Line)},
      (do k (← selectReg dst)) = .ok lines → ∃ d, dst = .phys d := by
    intro k h
    obtain ⟨d, hd, -⟩ := Except.bind_eq_ok.1 h
    exact ⟨d, selectReg_eq_ok hd⟩
  cases op with
  | div => exact absurd (.inl rfl) hop
  | mod => exact absurd (.inr rfl) hop
  | _ => exact hreg h

section Values

variable {env : Env} {syms : Symbols} {area : Area} {m : Machine} {fr : Frame} {s t : State}
  (h : Agrees env syms area m fr s)

include h

theorem Agrees.value_reg (hq : NoPointer (.phys q)) (hw : value m fr (.phys q) = .ok w) :
    s.regs q = w :=
  h.regs q w (hq q rfl).1 (hq q rfl).2 (Interp.value_phys.1 hw)

theorem Agrees.value_arg (ho : NoPointer o) (ha : selectArg o = .ok a) (hw : value m fr o = .ok w) :
    a.value env s = w := by
  obtain ⟨q, rfl, rfl⟩ | ⟨v, rfl, rfl⟩ := selectArg_eq_ok ha
  · exact h.value_reg ho hw
  · exact Except.ok.inj hw

theorem Agrees.value_static {k : Nat} {name : String} (hname : syms.static k = .ok name)
    (hw : m.staticAddress k = .ok w) : env.label name = w := by
  simp only [Symbols.static] at hname
  simp only [Machine.staticAddress] at hw
  split at hname
  · next hs =>
    cases hname
    split at hw
    · next hm =>
      cases hw
      exact h.statics k name w hs hm
    · cases hw
  · cases hname

end Values

/-- An operand other than a register has the value that it had, whatever is put into the register. -/
theorem value_of_kept {env : Env} {s t : State} (ha : selectArg o = .ok a) (ho : o ≠ .phys d)
    (hkept : ∀ x, x ≠ d → t.regs x = s.regs x) : a.value env t = a.value env s := by
  obtain ⟨q, rfl, rfl⟩ | ⟨v, rfl, rfl⟩ := selectArg_eq_ok ha
  · apply hkept
    intro hq
    exact ho (congrArg Operand.phys hq)
  · rfl

/-! ## Lines that put a value into a register -/

/-- Lines put a value into a register and change nothing else but flags. -/
def Puts (env : Env) (lines : List Line) (s : State) (d : PhysReg) (w : Word) : Prop :=
  ∃ t, execs env lines s = some t ∧ t.regs d = w ∧ (∀ x, x ≠ d → t.regs x = s.regs x) ∧
    t.memory = s.memory

section Puts

variable {env : Env} {s : State} {d : PhysReg} {lines : List Line} {v w : Word}

theorem puts_nil : Puts env [] s d (s.regs d) := ⟨s, rfl, rfl, fun _ _ => rfl, rfl⟩

/-- An instruction that sets the register, whatever the flags, comes after lines that put a value into
it. -/
theorem Puts.concat (h : Puts env lines s d v) {i : Instr} {comment : Option String}
    (hi : ∀ t, t.regs d = v → (∀ x, x ≠ d → t.regs x = s.regs x) → t.memory = s.memory →
      ∃ flags, exec env i t = some { t.set d w with flags := flags }) :
    Puts env (lines ++ [.instr i comment]) s d w := by
  obtain ⟨t, ht, hv, hkept, hmem⟩ := h
  obtain ⟨flags, hexec⟩ := hi t hv hkept hmem
  refine ⟨{ t.set d w with flags := flags }, ?_, ?_, ?_, ?_⟩
  · rw [execs_append, ht, Option.bind_some, execs, hexec]
    rfl
  · exact t.regs_set d w
  · intro x hx
    exact (t.regs_set_of_ne w hx).trans (hkept x hx)
  · exact hmem

theorem puts_one {i : Instr} {comment : Option String}
    (hi : ∃ flags, exec env i s = some { s.set d w with flags := flags }) :
    Puts env [.instr i comment] s d w := by
  obtain ⟨flags, hexec⟩ := hi
  refine ⟨{ s.set d w with flags := flags }, ?_, s.regs_set d w, fun x hx => s.regs_set_of_ne w hx, rfl⟩
  rw [execs, hexec]
  rfl

theorem puts_move (a : Arg) : Puts env [plain (.mov (.reg d) a)] s d (a.value env s) :=
  puts_one ⟨s.flags, rfl⟩

theorem Puts.unary (h : Puts env lines s d v) (op : UnOp) :
    Puts env (lines ++ [plain (unaryInstr op d)]) s d (op.eval v) := by
  refine h.concat fun t hv _ _ => ?_
  cases op with
  | neg => exact ⟨_, by rw [unaryInstr, exec, hv]; rfl⟩
  | not => exact ⟨t.flags, by rw [unaryInstr, exec, hv]; rfl⟩

theorem Puts.alu (h : Puts env lines s d v) (op : AluOp) (ha : selectArg o = .ok a)
    (ho : o ≠ .phys d) :
    Puts env (lines ++ [plain (.alu op d a)]) s d (op.result v (a.value env s)) := by
  refine h.concat fun t hv hkept _ => ⟨op.flags (t.regs d) (a.value env t), ?_⟩
  rw [← value_of_kept ha ho hkept, ← hv]
  rfl

theorem puts_alu (op : AluOp) (a : Arg) :
    Puts env [plain (.alu op d a)] s d (op.result (s.regs d) (a.value env s)) :=
  puts_one ⟨op.flags (s.regs d) (a.value env s), rfl⟩

theorem puts_shift (op : ShiftOp) (count : Option Nat) :
    Puts env [plain (.shift op d count)] s d
      (op.result (s.regs d) (count.getD (s.regs .rcx).toUInt64.toNat % 64)) :=
  puts_one ⟨op.flags s.flags (s.regs d) (count.getD (s.regs .rcx).toUInt64.toNat % 64), rfl⟩

theorem puts_compare (cond : CmpOp) (l : PhysReg) (a : Arg) :
    Puts env [plain (.cmp l a), plain (.set cond d), plain (.movzx d d)] s d
      (if cond.eval (s.regs l) (a.value env s) then 1 else 0) := by
  let compared : State := { s with flags := .ofDifference (s.regs l) (a.value env s) }
  let byte := withLowByte (s.regs d) (cond.eval (s.regs l) (a.value env s))
  have hset : exec env (.set cond d) compared = some (compared.set d byte) := by
    show (compared.flags.holds cond).bind _ = _
    rw [show compared.flags.holds cond = _ from holds_ofDifference (s.regs l) (a.value env s) cond]
    rfl
  have hzero : exec env (.movzx d d) (compared.set d byte) =
      some ((compared.set d byte).set d (byte &&& 255)) := by
    rw [exec, State.regs_set]
  refine ⟨(compared.set d byte).set d (byte &&& 255), ?_, ?_, ?_, rfl⟩
  · show (exec env (.set cond d) compared).bind _ = _
    rw [hset]
    show (exec env (.movzx d d) (compared.set d byte)).bind _ = _
    rw [hzero]
    rfl
  · rw [State.regs_set]
    exact withLowByte_and _ _
  · intro x hx
    rw [State.regs_set_of_ne _ _ hx, State.regs_set_of_ne _ _ hx]

end Puts

theorem execs_divide (env : Env) {s : State} (hrax : s.regs .rax = l) (hq : s.regs q = r)
    (hne : q ≠ .rdx) (hr : r ≠ 0) (hfits : ¬(l = Int64.minValue ∧ r = -1)) :
    ∃ t, execs env [plain .cqo, plain (.idiv q)] s = some t ∧ t.regs .rax = l / r ∧
      t.regs .rdx = l % r ∧ (∀ x, x ≠ .rax → x ≠ .rdx → t.regs x = s.regs x) ∧
      t.memory = s.memory := by
  let extended := s.set .rdx (if l < 0 then -1 else 0)
  let divided := (extended.set .rax (l / r)).set .rdx (l % r)
  refine ⟨{ divided with flags := .undefined }, ?_, ?_, ?_, ?_, rfl⟩
  · show (exec env (.idiv q) (s.set .rdx (if s.regs .rax < 0 then -1 else 0))).bind _ = _
    rw [exec, State.regs_set, State.regs_set_of_ne _ _ hne, State.regs_set_of_ne _ _ (by decide), hrax,
      hq, divide_signExtended hr hfits]
    rfl
  · show divided.regs .rax = _
    rw [State.regs_set_of_ne _ _ (by decide), State.regs_set]
  · show divided.regs .rdx = _
    rw [State.regs_set]
  · intro x hrax hrdx
    show divided.regs x = _
    rw [State.regs_set_of_ne _ _ hrdx, State.regs_set_of_ne _ _ hrax, State.regs_set_of_ne _ _ hrdx]

/-! ## Operations -/

section Operations

variable {env : Env} {syms : Symbols} {area : Area} {m : Machine} {fr : Frame} {s : State}
  (h : Agrees env syms area m fr s)

include h

theorem puts_copy {copy : List Line} (hcopy : Copies d (.phys d) src copy) (hsrc : NoPointer src)
    (hw : value m fr src = .ok w) : Puts env copy s d w := by
  obtain ⟨rfl, rfl⟩ | ⟨-, a, ha, rfl⟩ := hcopy
  · rw [← h.value_reg hsrc hw]
    exact puts_nil
  · rw [← h.value_arg hsrc ha hw]
    exact puts_move a

/-- **Operations whatever operands coincide.** The destination may be the left operand, the right one,
both or neither. -/
theorem puts_selectAlu {alu : AluOp} (heval : ∀ l r, op.eval l r = some (alu.result l r))
    (hcomm : op.isCommutative = true → ∀ l r, alu.result l r = alu.result r l)
    (hsub : op.isCommutative = false → op = .sub)
    (hsel : selectAlu op alu (.phys d) lhs rhs = .ok lines) (hlhs : NoPointer lhs)
    (hrhs : NoPointer rhs) (hl : value m fr lhs = .ok l) (hr : value m fr rhs = .ok r)
    (hw : op.eval l r = some w) : Puts env lines s d w := by
  rw [heval] at hw
  cases hw
  obtain ⟨d', hd, hsel⟩ := Except.bind_eq_ok.1 hsel
  cases hd
  split at hsel
  · next heq =>
    obtain ⟨a, ha, hsel⟩ := Except.bind_eq_ok.1 hsel
    cases hsel
    subst heq
    rw [← h.value_reg hlhs hl, ← h.value_arg hrhs ha hr]
    exact puts_alu alu a
  split at hsel
  · next heq =>
    obtain ⟨a, ha, hsel⟩ := Except.bind_eq_ok.1 hsel
    cases hsel
    simp only [Bool.and_eq_true, decide_eq_true_eq] at heq
    obtain ⟨rfl, hop⟩ := heq
    rw [hcomm hop, ← h.value_reg hrhs hr, ← h.value_arg hlhs ha hl]
    exact puts_alu alu a
  split at hsel
  · next hne _ heq =>
    -- The difference from the register is the sum with its opposite.
    obtain ⟨a, ha, hsel⟩ := Except.bind_eq_ok.1 hsel
    cases hsel
    simp only [Bool.and_eq_true, decide_eq_true_eq] at heq
    obtain ⟨rfl, rfl⟩ := heq
    have hdiff : alu.result l r = AluOp.add.result (-s.regs d) (a.value env s) := by
      have hresult : some (l - r) = some (alu.result l r) := heval l r
      rw [← Option.some.inj hresult, h.value_reg hrhs hr, h.value_arg hlhs ha hl]
      show l - r = -r + l
      rw [Int64.sub_eq_add_neg, Int64.add_comm]
    rw [hdiff]
    exact ((puts_nil (s := s)).unary .neg).alu .add ha hne
  · next hne hncomm hnsub =>
    obtain ⟨a, ha, hsel⟩ := Except.bind_eq_ok.1 hsel
    obtain ⟨b, hb, hsel⟩ := Except.bind_eq_ok.1 hsel
    cases hsel
    have hrne : rhs ≠ .phys d := by
      intro heq
      cases hop : op.isCommutative with
      | true => simp [heq, hop] at hncomm
      | false => simp [heq, hsub hop] at hnsub
    rw [← h.value_arg hlhs ha hl, ← h.value_arg hrhs hb hr]
    exact (puts_move a).alu alu hb hrne

theorem puts_selectShift {op : ShiftOp} (hsel : selectShift op (.phys d) (.phys d) rhs = .ok lines)
    (hd : NoPointer (.phys d)) (hrhs : NoPointer rhs) (hl : value m fr (.phys d) = .ok l)
    (hr : value m fr rhs = .ok r) :
    ∃ n, Int64.ofNat n = r &&& 63 ∧ Puts env lines s d (op.result l n) := by
  obtain ⟨d', copy, count, hd', hcopy, hcount, rfl⟩ := selectShift_eq_ok hsel
  cases hd'
  obtain ⟨-, rfl⟩ | ⟨hne, -⟩ := hcopy
  · rw [← h.value_reg hd hl]
    refine ⟨_, ?_, puts_shift op count⟩
    cases rhs with
    | imm k =>
      obtain rfl : count = some (k &&& 63).toNatClampNeg := hcount
      cases hr
      exact ofNat_mod_constant _
    | phys q =>
      obtain ⟨rfl, rfl⟩ : q = .rcx ∧ count = none := hcount
      rw [← h.value_reg hrhs hr]
      exact ofNat_mod_shift _
    | vreg | static => exact hcount.elim
  · exact absurd rfl hne

end Operations

/-! ## Memory -/

section Places

variable {env : Env} {syms : Symbols} {area : Area} {m : Machine} {fr : Frame} {s : State}
  (h : Agrees env syms area m fr s) {a : Address} {place : Mem} (hplace : selectMem syms a = .ok place)
  (ha : ∀ o ∈ a.operands, NoPointer o)

include h hplace ha

theorem Agrees.address_place (hw : Interp.address m fr a = .ok w) : place.address env s = w := by
  cases a with
  | base b offset =>
    obtain ⟨q, hq, hp⟩ := Except.bind_eq_ok.1 hplace
    obtain ⟨v, hv, hsum⟩ := Except.bind_eq_ok.1 hw
    obtain rfl := selectReg_eq_ok hq
    cases hp
    obtain rfl : v + offset = w := Except.ok.inj hsum
    show s.regs q + offset = v + offset
    rw [h.value_reg (ha _ List.mem_cons_self) hv]
  | static k =>
    obtain ⟨name, hname, hp⟩ := Except.bind_eq_ok.1 hplace
    cases hp
    exact h.value_static hname hw
  | slot | incoming => cases hw

theorem Agrees.load (hfit : Fits area m fr) (hw : Interp.load m fr a = .ok w) :
    s.memory.read (place.address env s) = w := by
  have hword : (do m.memory.readWord (← Interp.address m fr a)) = .ok w →
      s.memory.read (place.address env s) = w := by
    intro hw
    obtain ⟨v, hv, hw⟩ := Except.bind_eq_ok.1 hw
    rw [h.address_place hplace ha hv]
    exact h.memory.read hw
  cases a with
  | base | static => exact hword hw
  | slot k =>
    cases hplace
    simp only [Interp.load] at hw
    split at hw
    · next v hv =>
      cases hw
      rw [h.address_slotPlace hfit (lt_size_of_slot hv)]
      exact h.slots k w hv
    · cases hw
  | incoming k =>
    cases hplace
    simp only [Interp.load] at hw
    split at hw
    · next v hv =>
      cases hw
      rw [h.address_incomingPlace hfit (List.getElem?_eq_some_iff.1 hv).1]
      exact h.incoming k w hv
    · cases hw

theorem Agrees.store (hfit : Fits area m fr) {m' : Machine} {fr' : Frame}
    (hw : Interp.store m fr a w = .ok (m', fr')) :
    Agrees env syms area m' fr' (s.store (place.address env s) w) := by
  have hword : (do
      let target ← Interp.address m fr a
      let memory ← m.memory.writeWord target w
      return ({ m with memory := memory }, fr)) = .ok (m', fr') →
      Agrees env syms area m' fr' (s.store (place.address env s) w) := by
    intro hw
    obtain ⟨v, hv, hw⟩ := Except.bind_eq_ok.1 hw
    obtain ⟨mem, hmem, hw⟩ := Except.bind_eq_ok.1 hw
    cases hw
    rw [h.address_place hplace ha hv]
    exact h.storeWord hfit hmem
  cases a with
  | base | static | incoming => exact hword hw
  | slot k =>
    cases hplace
    simp only [Interp.store] at hw
    split at hw
    · next hk =>
      cases hw
      rw [h.address_slotPlace hfit hk]
      exact h.storeSlot hfit hk
    · cases hw

end Places

/-! ## Instructions -/

/-- A division whose quotient does not overflow. -/
def QuotientFits (m : Machine) (fr : Frame) : IR.Instr → Prop
  | .binary _ op lhs rhs => op = .div ∨ op = .mod →
    ¬(value m fr lhs = .ok Int64.minValue ∧ value m fr rhs = .ok (-1))
  | _ => True

theorem QuotientFits.withCode {m : Machine} {fr : Frame} {i : IR.Instr} (h : QuotientFits m fr i)
    (code : List IR.Instr) : QuotientFits m { fr with code := code } i := by
  cases i with
  | binary =>
    simp only [QuotientFits, Interp.value_withCode]
    exact h
  | _ => trivial

/-- Lines take a state to one that agrees with a state of the interpreter. -/
def Leads (env : Env) (syms : Symbols) (area : Area) (lines : List Line) (s : State) (m : Machine)
    (fr : Frame) : Prop :=
  ∃ t, execs env lines s = some t ∧ Agrees env syms area m fr t

section Instructions

variable {env : Env} {syms : Symbols} {area : Area} {m m' : Machine} {fr fr' : Frame} {s : State}
  {lines : List Line} (h : Agrees env syms area m fr s)

include h

theorem Puts.leads (hputs : Puts env lines s d w) (hd : NoPointer (.phys d))
    (hassign : assign m fr (.phys d) w = .ok (m', fr')) : Leads env syms area lines s m' fr' := by
  obtain ⟨t, ht, hw, hkept, hmem⟩ := hputs
  cases hassign
  exact ⟨t, ht, h.write (hd d rfl) hkept hw hmem⟩

theorem leads_move (hsel : selectMove syms dst src = .ok lines) (hdst : NoPointer dst)
    (hsrc : NoPointer src) (hc : compute m fr (.move dst src) = .ok (m', fr')) :
    Leads env syms area lines s m' fr' := by
  obtain ⟨w, hw, hassign⟩ := Except.bind_eq_ok.1 hc
  obtain ⟨d, hd, hlines⟩ := Except.bind_eq_ok.1 hsel
  obtain rfl := selectReg_eq_ok hd
  split at hlines
  · next k =>
    obtain ⟨name, hname, hlines⟩ := Except.bind_eq_ok.1 hlines
    cases hlines
    have hputs : Puts env [plain (.lea d (.label name))] s d (env.label name) := puts_one ⟨s.flags, rfl⟩
    rw [h.value_static hname hw] at hputs
    exact hputs.leads h hdst hassign
  · obtain ⟨a, ha, hlines⟩ := Except.bind_eq_ok.1 hlines
    cases hlines
    have hputs : Puts env _ s d _ := puts_move a
    rw [h.value_arg hsrc ha hw] at hputs
    exact hputs.leads h hdst hassign

theorem leads_division (hop : op = .div ∨ op = .mod)
    (hplaced : Alloc.InPlace (.binary dst op lhs rhs))
    (hsel : selectBinary dst op lhs rhs = .ok lines) (hlhs : NoPointer lhs) (hrhs : NoPointer rhs)
    (hfits : QuotientFits m fr (.binary dst op lhs rhs))
    (hc : compute m fr (.binary dst op lhs rhs) = .ok (m', fr')) :
    Leads env syms area lines s m' fr' := by
  obtain ⟨rfl, rfl, -, hne⟩ := hplaced.1 hop
  obtain ⟨q, hq, hlines⟩ : ∃ q, rhs = .phys q ∧ lines = [plain .cqo, plain (.idiv q)] := by
    rcases hop with rfl | rfl
    all_goals
      obtain ⟨q, hq, hsel⟩ := Except.bind_eq_ok.1 hsel
      cases hsel
      exact ⟨q, selectReg_eq_ok hq, rfl⟩
  subst hq hlines
  obtain ⟨l, hl, hc⟩ := Except.bind_eq_ok.1 hc
  obtain ⟨r, hr, hc⟩ := Except.bind_eq_ok.1 hc
  have hdiv : (decide (op = .div) || decide (op = .mod)) = true := by simpa using hop
  rw [if_pos hdiv] at hc
  by_cases hzero : r = 0
  · simp [Interp.divide, BinOp.eval, hzero] at hc
  have hassign : Interp.divide m fr (.phys (Alloc.divisionResult op)) op l r =
      assign { m with regs := (m.regs.set .rax (some (l / r))).set .rdx (some (l % r)) } fr
        (.phys (Alloc.divisionResult op)) (if op = .div then l / r else l % r) := by
    simp [Interp.divide, BinOp.eval, hzero]
  rw [hassign] at hc
  cases hc
  have hq : q ≠ .rdx := fun heq => hne (congrArg Operand.phys heq)
  obtain ⟨t, hexec, hquot, hrem, hkept, hmem⟩ := execs_divide env (h.value_reg hlhs hl)
    (h.value_reg hrhs hr) hq hzero (fun hov => hfits hop ⟨hov.1 ▸ hl, hov.2 ▸ hr⟩)
  refine ⟨t, hexec, ?_⟩
  -- The two results, and then the one that is wanted, which is in its register already.
  have hfirst : Agrees env syms area { m with regs := m.regs.set .rax (some (l / r)) } fr
      (s.set .rax (l / r)) :=
    h.write (by decide) (fun x hx => s.regs_set_of_ne _ hx) (s.regs_set _ _) rfl
  have hboth : Agrees env syms area
      { m with regs := (m.regs.set .rax (some (l / r))).set .rdx (some (l % r)) } fr t := by
    refine hfirst.write (by decide) (fun x hx => ?_) hrem hmem
    by_cases hrax : x = .rax
    · rw [hrax, hquot, State.regs_set]
    · rw [hkept x hrax hx, State.regs_set_of_ne _ _ hrax]
  refine hboth.write ?_ (fun _ _ => rfl) ?_ rfl
  · rcases hop with rfl | rfl <;> decide
  · rcases hop with rfl | rfl
    · exact hquot
    · exact hrem

theorem leads_binary (hplaced : Alloc.InPlace (.binary dst op lhs rhs))
    (hsel : selectBinary dst op lhs rhs = .ok lines) (hdst : NoPointer dst) (hlhs : NoPointer lhs)
    (hrhs : NoPointer rhs) (hfits : QuotientFits m fr (.binary dst op lhs rhs))
    (hc : compute m fr (.binary dst op lhs rhs) = .ok (m', fr')) :
    Leads env syms area lines s m' fr' := by
  by_cases hdiv : op = .div ∨ op = .mod
  · exact leads_division h hdiv hplaced hsel hlhs hrhs hfits hc
  obtain ⟨l, hl, hc⟩ := Except.bind_eq_ok.1 hc
  obtain ⟨r, hr, hc⟩ := Except.bind_eq_ok.1 hc
  rw [if_neg (by simpa using hdiv)] at hc
  cases hw : op.eval l r with
  | none =>
    rw [hw] at hc
    cases hc
  | some w =>
    rw [hw] at hc
    obtain ⟨d, rfl⟩ := selectBinary_dst hdiv hsel
    have halu : ∀ alu : AluOp, (∀ l r, op.eval l r = some (alu.result l r)) →
        (op.isCommutative = true → ∀ l r, alu.result l r = alu.result r l) →
        (op.isCommutative = false → op = .sub) → selectAlu op alu (.phys d) lhs rhs = .ok lines →
        Leads env syms area lines s m' fr' := fun alu heval hcomm hsub hsel =>
      (puts_selectAlu h heval hcomm hsub hsel hlhs hrhs hl hr hw).leads h hdst hc
    have hshift : op = .shl ∨ op = .shr → lhs = .phys d := hplaced.2
    cases op with
    | div => exact absurd (.inl rfl) hdiv
    | mod => exact absurd (.inr rfl) hdiv
    | shl | shr =>
      obtain rfl := hshift (by decide)
      obtain ⟨n, hn, hputs⟩ := puts_selectShift h hsel hlhs hrhs hl hr
      cases hw
      rw [ShiftOp.result, hn] at hputs
      exact hputs.leads h hdst hc
    | sub => exact halu .sub (fun _ _ => rfl) (fun hcomm => by cases hcomm) (fun _ => rfl) hsel
    | add => exact halu .add (fun _ _ => rfl) (fun _ l r => Int64.add_comm l r) (by decide) hsel
    | mul => exact halu .imul (fun _ _ => rfl) (fun _ l r => Int64.mul_comm l r) (by decide) hsel
    | and => exact halu .and (fun _ _ => rfl) (fun _ l r => Int64.and_comm l r) (by decide) hsel
    | or => exact halu .or (fun _ _ => rfl) (fun _ l r => Int64.or_comm l r) (by decide) hsel
    | xor => exact halu .xor (fun _ _ => rfl) (fun _ l r => Int64.xor_comm l r) (by decide) hsel

theorem leads_unary {op : UnOp} (hsel : selectUnary dst op src = .ok lines) (hdst : NoPointer dst)
    (hsrc : NoPointer src) (hc : compute m fr (.unary dst op src) = .ok (m', fr')) :
    Leads env syms area lines s m' fr' := by
  obtain ⟨w, hw, hassign⟩ := Except.bind_eq_ok.1 hc
  obtain ⟨d, copy, hd, hcopy, rfl⟩ := selectUnary_eq_ok hsel
  obtain rfl := selectReg_eq_ok hd
  exact ((puts_copy h hcopy hsrc hw).unary op).leads h hdst hassign

theorem leads_compare {cond : CmpOp}
    (hsel : selectInstr syms f next (.compare dst cond lhs rhs) = .ok lines) (hdst : NoPointer dst)
    (hlhs : NoPointer lhs) (hrhs : NoPointer rhs)
    (hc : compute m fr (.compare dst cond lhs rhs) = .ok (m', fr')) :
    Leads env syms area lines s m' fr' := by
  obtain ⟨l, hl, hc⟩ := Except.bind_eq_ok.1 hc
  obtain ⟨r, hr, hassign⟩ := Except.bind_eq_ok.1 hc
  obtain ⟨d, hd, hlines⟩ := Except.bind_eq_ok.1 hsel
  obtain ⟨q, hq, hlines⟩ := Except.bind_eq_ok.1 hlines
  obtain ⟨a, ha, hlines⟩ := Except.bind_eq_ok.1 hlines
  cases hlines
  obtain rfl := selectReg_eq_ok hd
  obtain rfl := selectReg_eq_ok hq
  have hputs : Puts env _ s d _ := puts_compare cond q a
  rw [h.value_reg hlhs hl, h.value_arg hrhs ha hr] at hputs
  exact hputs.leads h hdst hassign

theorem leads_load {a : Address} (hfit : Fits area m fr)
    (hsel : selectInstr syms f next (.load dst a) = .ok lines) (hdst : NoPointer dst)
    (ha : ∀ o ∈ a.operands, NoPointer o) (hc : compute m fr (.load dst a) = .ok (m', fr')) :
    Leads env syms area lines s m' fr' := by
  obtain ⟨w, hw, hassign⟩ := Except.bind_eq_ok.1 hc
  obtain ⟨d, hd, hlines⟩ := Except.bind_eq_ok.1 hsel
  obtain ⟨place, hplace, hlines⟩ := Except.bind_eq_ok.1 hlines
  cases hlines
  obtain rfl := selectReg_eq_ok hd
  rw [← h.load hplace ha hfit hw] at hassign
  exact Puts.leads h (puts_one ⟨s.flags, rfl⟩) hdst hassign

theorem leads_store {a : Address} (hfit : Fits area m fr)
    (hsel : selectInstr syms f next (.store a src) = .ok lines) (ha : ∀ o ∈ a.operands, NoPointer o)
    (hsrc : NoPointer src) (hc : compute m fr (.store a src) = .ok (m', fr')) :
    Leads env syms area lines s m' fr' := by
  obtain ⟨w, hw, hstore⟩ := Except.bind_eq_ok.1 hc
  obtain ⟨place, hplace, hlines⟩ := Except.bind_eq_ok.1 hsel
  obtain ⟨v, hv, hlines⟩ := Except.bind_eq_ok.1 hlines
  cases hlines
  refine ⟨s.store (place.address env s) w, ?_, h.store hplace ha hfit hstore⟩
  rw [← h.value_arg hsrc hv hw]
  obtain ⟨q, rfl, rfl⟩ | ⟨k, rfl, rfl⟩ := selectArg_eq_ok hv <;> rfl

theorem leads_push (hfit : Fits area m' fr')
    (hsel : selectInstr syms f next (.push src) = .ok lines) (hsrc : NoPointer src)
    (hc : compute m fr (.push src) = .ok (m', fr')) : Leads env syms area lines s m' fr' := by
  obtain ⟨w, hw, hpushed⟩ := Except.bind_eq_ok.1 hc
  obtain ⟨v, hv, hlines⟩ := Except.bind_eq_ok.1 hsel
  cases hlines
  cases hpushed
  refine ⟨_, ?_, h.push hfit⟩
  rw [← h.value_arg hsrc hv hw]
  rfl

/-- **Single instructions.** The lines of an instruction that neither calls nor transfers control do
what the interpreter does. -/
theorem leads_compute {i : IR.Instr} (hi : Interp.IsSimple i)
    (hsel : selectInstr syms f next i = .ok lines) (hops : ∀ o ∈ i.operands, NoPointer o)
    (hplaced : Alloc.InPlace i) (hfits : QuotientFits m fr i) (hfit : Fits area m fr)
    (hfit' : Fits area m' fr') (hc : compute m fr i = .ok (m', fr')) :
    Leads env syms area lines s m' fr' := by
  cases i with
  | binary =>
    obtain ⟨hdst, hlhs, hrhs⟩ := IR.forall_operands_binary.1 hops
    exact leads_binary h hplaced hsel hdst hlhs hrhs hfits hc
  | unary =>
    obtain ⟨hdst, hsrc⟩ := IR.forall_operands_unary.1 hops
    exact leads_unary h hsel hdst hsrc hc
  | compare =>
    obtain ⟨hdst, hlhs, hrhs⟩ := IR.forall_operands_compare.1 hops
    exact leads_compare h hsel hdst hlhs hrhs hc
  | move =>
    obtain ⟨hdst, hsrc⟩ := IR.forall_operands_move.1 hops
    exact leads_move h hsel hdst hsrc hc
  | load =>
    obtain ⟨hdst, ha⟩ := IR.forall_operands_load.1 hops
    exact leads_load h hfit hsel hdst ha hc
  | store =>
    obtain ⟨ha, hsrc⟩ := IR.forall_operands_store.1 hops
    exact leads_store h hfit hsel ha hsrc hc
  | push => exact leads_push h hfit' hsel (IR.forall_operands_push.1 hops) hc
  | call => exact absurd hi.2 (by simp [IR.Instr.isCall])
  | jump | branch | ret => exact absurd hi.1 (by simp [IR.Instr.isTerminator])

end Instructions

end MxStar.Asm
