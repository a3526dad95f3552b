import MxStar.Alloc.Convention
import MxStar.Proofs.FlowGraph
import MxStar.Proofs.Registers
import MxStar.Proofs.Settled

/-!
The code that makes the calling convention explicit.

What comes of `expandConvention` is the description `Conforms` of the code that stands for an instruction:
operands that have to be in registers are prepared first (`Prepares`), and the values of divisions, shifts,
calls and returns go through the registers meant for them. Later modules use this description alone.
-/
namespace MxStar.Alloc

open IR List

variable {code new post pre : List Instr} {hi lo : Nat} {l lhs o r rhs v : Operand}
  {P : Operand → Prop} {i : Instr} {args : List Operand} {a a' : Address} {c cond : CmpOp}
  {op : BinOp}

/-! ## What a computation emits -/

/-- From any state on, the computation emits some code and takes some registers, such that `Q` holds
of its result, the code, and every range with these registers. -/
def Emits {α : Type} (x : Expand α) (Q : α → List Instr → Nat → Nat → Prop) : Prop :=
  ∀ s : Expansion, ∃ new, (x.run s).2.code = s.code ++ new ∧
    s.hints.size ≤ (x.run s).2.hints.size ∧
    ∀ lo hi, lo ≤ s.hints.size → (x.run s).2.hints.size ≤ hi → Q (x.run s).1 new lo hi

namespace Emits

variable {α β : Type}

theorem mono {x : Expand α} {Q R : α → List Instr → Nat → Nat → Prop} (h : Emits x Q)
    (hQR : ∀ a new lo hi, Q a new lo hi → R a new lo hi) : Emits x R := by
  intro s
  obtain ⟨new, hcode, hle, hq⟩ := h s
  exact ⟨new, hcode, hle, fun lo hi hlo hhi => hQR _ _ _ _ (hq lo hi hlo hhi)⟩

variable {R : β → List Instr → Nat → Nat → Prop}

theorem pure {b : β} (h : ∀ lo hi, lo ≤ hi → R b [] lo hi) : Emits (pure b) R := fun _ =>
  ⟨[], (append_nil _).symm, Nat.le_refl _, fun lo hi hlo hhi => h lo hi (Nat.le_trans hlo hhi)⟩

theorem emit {i : Instr} {R : Unit → List Instr → Nat → Nat → Prop}
    (h : ∀ lo hi, lo ≤ hi → R () [i] lo hi) : Emits (emit i) R := fun _ =>
  ⟨[i], rfl, Nat.le_refl _, fun lo hi hlo hhi => h lo hi (Nat.le_trans hlo hhi)⟩

/-- One computation after another: what holds of the first one may be used for the second. -/
theorem bind {x : Expand α} {f : α → Expand β} {Q : α → List Instr → Nat → Nat → Prop}
    (hx : Emits x Q) (hf : ∀ a lo pre, Emits (f a) fun b new mid hi =>
      (∀ top, mid ≤ top → Q a pre lo top) → lo ≤ mid → mid ≤ hi → R b (pre ++ new) lo hi) :
    Emits (x >>= f) R := by
  intro s
  obtain ⟨pre, hcode, hle, hq⟩ := hx s
  obtain ⟨new, hcode', hle', -⟩ := hf (x.run s).1 0 pre (x.run s).2
  refine ⟨pre ++ new, ?_, Nat.le_trans hle hle', fun lo hi hlo hhi => ?_⟩
  · rw [← append_assoc, ← hcode]
    exact hcode'
  · obtain ⟨new', hcode'', -, hr⟩ := hf (x.run s).1 lo pre (x.run s).2
    obtain rfl := append_cancel_left (hcode'.symm.trans hcode'')
    exact hr _ hi (Nat.le_refl _) hhi (hq lo · hlo) (Nat.le_trans hlo hle) (Nat.le_trans hle' hhi)

theorem emitThen {i : Instr} {f : Unit → Expand β}
    (hf : Emits (f ()) fun b new lo hi => R b (i :: new) lo hi) : Emits (Alloc.emit i >>= f) R := by
  intro s
  obtain ⟨new, hcode, hle, hr⟩ := hf { s with code := s.code ++ [i] }
  exact ⟨i :: new, hcode.trans (append_assoc ..), hle, hr⟩

theorem freshThen {hint : String} {f : VReg → Expand β}
    (hf : ∀ t, Emits (f t) fun b new mid hi => ∀ lo ≤ t, t < mid → mid ≤ hi → R b new lo hi) :
    Emits (Alloc.fresh hint >>= f) R := by
  intro s
  have hsize : (s.hints.push hint).size = s.hints.size + 1 := Array.size_push _
  obtain ⟨new, hcode, hle, hr⟩ := hf s.hints.size { s with hints := s.hints.push hint }
  refine ⟨new, hcode, Nat.le_trans (Nat.le.intro hsize.symm) hle, fun lo hi hlo hhi => ?_⟩
  exact hr _ hi (Nat.le_refl _) hhi lo hlo (hsize ▸ Nat.lt_succ_self _) (Nat.le_trans hle hhi)

end Emits

/-! ## The description -/

/-- An operand stays as it is if `P` holds of it, and otherwise its value is put into a register from a
given range. -/
inductive Prepares (P : Operand → Prop) (lo hi : Nat) (v : Operand) : Operand → List Instr → Prop
  | keep (h : P v) : Prepares P lo hi v v []
  | temp {t : VReg} (hlo : lo ≤ t) (hhi : t < hi) (h : ¬P v) :
      Prepares P lo hi v (.vreg t) [.move (.vreg t) v]

inductive PreparesAddress (lo hi : Nat) : Address → Address → List Instr → Prop
  | near {b b' : Operand} {offset : Word} {pre : List Instr} (hoffset : fitsImm32 offset = true)
      (hbase : Prepares (fun o => o.isReg = true) lo hi b b' pre) :
      PreparesAddress lo hi (.base b offset) (.base b' offset) pre
  | far {b b' : Operand} {offset : Word} {pre : List Instr} {t : VReg} {mid : Nat} (hlo : lo ≤ t)
      (hmid : t < mid) (hhi : mid ≤ hi)
      (hbase : Prepares (fun o => o.isReg = true) mid hi b b' pre) :
      PreparesAddress lo hi (.base b offset) (.base (.vreg t) 0)
        (.move (.vreg t) (.imm offset) :: pre ++ [.binary (.vreg t) .add (.vreg t) b'])
  | fixed {a : Address} (ha : a.operands = []) : PreparesAddress lo hi a a []

/-- The operands of a comparison are prepared, after an exchange if that is needed. -/
inductive PreparesComparison (lo hi : Nat) (cond : CmpOp) (lhs rhs : Operand) :
    CmpOp → Operand → Operand → List Instr → Prop
  | mk {c : CmpOp} {l r l' r' : Operand} {pre pre' : List Instr} {mid : Nat}
      (hswap : (c = cond ∧ l = lhs ∧ r = rhs) ∨ (c = cond.swap ∧ l = rhs ∧ r = lhs))
      (hlo : lo ≤ mid) (hhi : mid ≤ hi)
      (hl : Prepares (fun o => o.isReg = true) lo mid l l' pre)
      (hr : Prepares Encodable mid hi r r' pre') :
      PreparesComparison lo hi cond lhs rhs c l' r' (pre ++ pre')

inductive Pushes (hi : Nat) : Nat → List Operand → List Instr → Prop
  | nil {lo : Nat} : Pushes hi lo [] []
  | cons {lo mid : Nat} {a a' : Operand} {args : List Operand} {pre new : List Instr}
      (ha : Prepares Encodable lo mid a a' pre) (hlo : lo ≤ mid) (hhi : mid ≤ hi)
      (hargs : Pushes hi mid args new) : Pushes hi lo (a :: args) (pre ++ .push a' :: new)

def divisionResult (op : BinOp) : PhysReg := if op = .div then .rax else .rdx

theorem mem_callerSaved_divisionResult (op : BinOp) :
    divisionResult op ∈ PhysReg.callerSaved := by
  unfold divisionResult
  split <;> decide

theorem params_subset_callerSaved {q : PhysReg} (h : q ∈ PhysReg.params) :
    q ∈ PhysReg.callerSaved := by
  revert q
  decide

def argMoves (args : List (PhysReg × Operand)) : List Instr :=
  args.map fun (r, a) => .move (.phys r) a

def padding (stack : List Operand) : List Instr :=
  if stack.length % 2 = 1 then [.push (.imm 0)] else []

def stackWords (stack : List Operand) : Nat := stack.length + stack.length % 2

/-- The code that stands for an instruction, with registers taken from `lo` on and below `hi`. -/
inductive Conforms (lo hi : Nat) : Instr → List Instr → Prop
  | divide {dst lhs rhs divisor : Operand} {op : BinOp} {pre : List Instr}
      (hop : op = .div ∨ op = .mod) (hrhs : Prepares (fun o => o.isReg = true) lo hi rhs divisor pre) :
      Conforms lo hi (.binary dst op lhs rhs)
        (pre ++ [.move (.phys .rax) lhs,
          .binary (.phys (divisionResult op)) op (.phys .rax) divisor,
          .move dst (.phys (divisionResult op))])
  | shiftBy {dst lhs : Operand} {op : BinOp} {k : Word} (hop : op = .shl ∨ op = .shr) :
      Conforms lo hi (.binary dst op lhs (.imm k))
        ((if dst ≠ lhs then [.move dst lhs] else []) ++ [.binary dst op dst (.imm (k &&& 63))])
  | shift {dst lhs rhs : Operand} {op : BinOp} (hop : op = .shl ∨ op = .shr) :
      Conforms lo hi (.binary dst op lhs rhs)
        (.move (.phys .rcx) rhs :: (if dst ≠ lhs then [.move dst lhs] else []) ++
          [.binary dst op dst (.phys .rcx)])
  | binary {dst lhs rhs l r : Operand} {op : BinOp} {pre pre' : List Instr} {mid : Nat}
      (hop : op ≠ .div ∧ op ≠ .mod ∧ op ≠ .shl ∧ op ≠ .shr) (hlo : lo ≤ mid) (hhi : mid ≤ hi)
      (hl : Prepares (fun o => o = dst ∨ Encodable o) lo mid lhs l pre)
      (hr : Prepares (fun o => o = dst ∨ Encodable o) mid hi rhs r pre') :
      Conforms lo hi (.binary dst op lhs rhs) (pre ++ pre' ++ [.binary dst op l r])
  | unary {dst src s : Operand} {op : UnOp} {pre : List Instr}
      (hs : Prepares Encodable lo hi src s pre) :
      Conforms lo hi (.unary dst op src) (pre ++ [.unary dst op s])
  | compare {dst lhs rhs l r : Operand} {cond c : CmpOp} {pre : List Instr}
      (h : PreparesComparison lo hi cond lhs rhs c l r pre) :
      Conforms lo hi (.compare dst cond lhs rhs) (pre ++ [.compare dst c l r])
  | branch {lhs rhs l r : Operand} {cond c : CmpOp} {t e : BlockId} {pre : List Instr}
      (h : PreparesComparison lo hi cond lhs rhs c l r pre) :
      Conforms lo hi (.branch cond lhs rhs t e) (pre ++ [.branch c l r t e])
  | load {dst : Operand} {a a' : Address} {pre : List Instr} (h : PreparesAddress lo hi a a' pre) :
      Conforms lo hi (.load dst a) (pre ++ [.load dst a'])
  | store {src s : Operand} {a a' : Address} {pre pre' : List Instr} {mid : Nat} (hlo : lo ≤ mid)
      (hhi : mid ≤ hi) (hs : Prepares Encodable lo mid src s pre)
      (ha : PreparesAddress mid hi a a' pre') :
      Conforms lo hi (.store a src) (pre ++ pre' ++ [.store a' s])
  | call {dst : Option Operand} {callee : Callee} {args : List Operand} {n : Nat}
      {pushes : List Instr} (h : Pushes hi lo (args.drop PhysReg.params.length).reverse pushes) :
      Conforms lo hi (.call dst callee args n)
        (padding (args.drop PhysReg.params.length) ++ pushes ++
          argMoves (PhysReg.params.zip args) ++
          .call none callee ((PhysReg.params.zip args).map fun (r, _) => .phys r)
              (stackWords (args.drop PhysReg.params.length)) ::
            dst.toList.map fun d => .move d (.phys .rax))
  | ret {v : Operand} :
      Conforms lo hi (.ret (some v)) [.move (.phys .rax) v, .ret (some (.phys .rax))]
  | same {i : Instr} (hsame : (∃ d s, i = .move d s) ∨ (∃ s, i = .push s) ∨ (∃ t, i = .jump t) ∨
      i = .ret none) :
      Conforms lo hi i [i]

/-! ## The computation emits what is described -/

theorem emits_toTemp (h : ¬P v) : Emits (toTemp v) fun o new lo hi => Prepares P lo hi v o new :=
  .freshThen fun _ => .emitThen <| .pure fun _ _ _ _ hlo hmid hhi => .temp hlo (Nat.lt_of_lt_of_le hmid hhi) h

theorem emits_keep (h : P v) : Emits (pure v) fun o new lo hi => Prepares P lo hi v o new :=
  .pure fun _ _ _ => .keep h

theorem emits_toReg (v : Operand) :
    Emits (toReg v) fun o new lo hi => Prepares (fun o => o.isReg = true) lo hi v o new := by
  unfold toReg
  split
  · next h => exact emits_keep h
  · next h => exact emits_toTemp h

theorem emits_toSource (v : Operand) :
    Emits (toSource v) fun o new lo hi => Prepares Encodable lo hi v o new := by
  cases v with
  | vreg v => exact emits_keep trivial
  | phys q => exact emits_keep trivial
  | imm w =>
    unfold toSource
    dsimp only
    split
    · next h => exact emits_keep h
    · next h => exact emits_toTemp h
  | static s => exact emits_toTemp id

theorem emits_toAddress (a : Address) :
    Emits (toAddress a) fun a' new lo hi => PreparesAddress lo hi a a' new := by
  cases a with
  | base b offset =>
    unfold toAddress
    dsimp only
    split
    · next h =>
      refine (emits_toReg b).bind fun b' lo pre => .pure fun _ _ hle hb _ _ => ?_
      rw [append_nil]
      exact .near h (hb _ hle)
    · refine .freshThen fun t => .emitThen ((emits_toReg b).bind fun b' lo pre => .emitThen ?_)
      exact .pure fun _ _ hle hb _ _ _ hlo hmid hhi => .far hlo hmid hhi (hb _ hle)
  | _ => exact .pure fun _ _ _ => .fixed rfl

theorem emits_toComparison (cond : CmpOp) (lhs rhs : Operand) :
    Emits (toComparison cond lhs rhs) fun x new lo hi =>
      PreparesComparison lo hi cond lhs rhs x.1 x.2.1 x.2.2 new := by
  have h : ∀ c l r, ((c = cond ∧ l = lhs ∧ r = rhs) ∨ (c = cond.swap ∧ l = rhs ∧ r = lhs)) →
      Emits (do return (c, ← toReg l, ← toSource r)) fun x new lo hi =>
        PreparesComparison lo hi cond lhs rhs x.1 x.2.1 x.2.2 new := by
    intro c l r hswap
    refine (emits_toReg l).bind fun l' lo pre => (emits_toSource r).bind fun r' mid pre' => ?_
    refine .pure fun _ _ hle hr _ _ hl hlo hhi => ?_
    rw [append_nil]
    exact .mk hswap hlo hhi (hl _ (Nat.le_refl _)) (hr _ hle)
  cases hc : (!lhs.isReg && rhs.isReg) with
  | true =>
    simp only [toComparison, hc]
    exact h _ _ _ (.inr ⟨rfl, rfl, rfl⟩)
  | false =>
    simp only [toComparison, hc]
    exact h _ _ _ (.inl ⟨rfl, rfl, rfl⟩)

theorem emits_pushEach (args : List Operand) :
    Emits (args.forM fun a => do emit (.push (← toSource a))) fun _ new lo hi =>
      Pushes hi lo args new := by
  induction args with
  | nil => exact .pure fun _ _ _ => .nil
  | cons a args ih =>
    refine (Emits.bind (emits_toSource a) fun a' lo pre => .emit fun _ _ hle ha _ _ => ?_).bind
      (Q := fun _ new lo mid => ∃ a' pre, new = pre ++ [.push a'] ∧ Prepares Encodable lo mid a a' pre)
      fun _ lo _ => ih.mono fun _ new mid hi hargs h hlo hhi => ?_
    · exact ⟨a', pre, rfl, ha _ hle⟩
    · obtain ⟨a', pre, rfl, ha⟩ := h mid (Nat.le_refl _)
      rw [append_assoc]
      exact .cons ha hlo hhi hargs

theorem emits_pushArgs (stack : List Operand) :
    Emits (pushArgs stack) fun _ new lo hi =>
      ∃ pushes, new = padding stack ++ pushes ∧ Pushes hi lo stack.reverse pushes := by
  unfold pushArgs padding
  split
  · exact .emitThen ((emits_pushEach _).mono fun _ new _ _ h => ⟨new, rfl, h⟩)
  · exact (emits_pushEach _).mono fun _ new _ _ h => ⟨new, rfl, h⟩

theorem emits_moves (args : List (PhysReg × Operand)) :
    Emits (args.forM fun (r, a) => emit (.move (.phys r) a)) fun _ new _ _ => new = argMoves args := by
  induction args with
  | nil => exact .pure fun _ _ _ => rfl
  | cons x args ih => exact .emitThen (ih.mono fun _ _ _ _ h => congrArg _ h)

theorem emits_expandCall (dst : Option Operand) (callee : Callee) (args : List Operand) (n : Nat) :
    Emits (expandCall dst callee args) fun _ new lo hi =>
      Conforms lo hi (.call dst callee args n) new := by
  refine (emits_pushArgs _).bind fun _ lo pre => (emits_moves _).bind fun _ mid moves => .emitThen ?_
  have hcall : ∀ {hi : Nat}, (∃ pushes, pre = padding (args.drop PhysReg.params.length) ++ pushes ∧
        Pushes hi lo (args.drop PhysReg.params.length).reverse pushes) →
      moves = argMoves (PhysReg.params.zip args) → Conforms lo hi (.call dst callee args n)
      (pre ++ (moves ++ .call none callee
        ((PhysReg.params.zip args).map fun (r, _) => .phys r)
          (stackWords (args.drop PhysReg.params.length)) ::
            dst.toList.map fun d => .move d (.phys .rax))) := by
    rintro hi ⟨pushes, rfl, hpushes⟩ rfl
    rw [← append_assoc]
    exact .call hpushes
  cases dst with
  | some d => exact .emit fun _ _ hle hm _ _ hp _ hhi => hcall (hp _ hhi) (hm _ hle)
  | none => exact .pure fun _ _ hle hm _ _ hp _ hhi => hcall (hp _ hhi) (hm _ hle)

theorem emits_divide (dst lhs rhs : Operand) (hop : op = .div ∨ op = .mod) :
    Emits (expandConvention (.binary dst op lhs rhs)) fun _ new lo hi =>
      Conforms lo hi (.binary dst op lhs rhs) new := by
  have h : Emits (do
      let divisor ← toReg rhs
      emit (.move (.phys .rax) lhs)
      emit (.binary (.phys (divisionResult op)) op (.phys .rax) divisor)
      emit (.move dst (.phys (divisionResult op)))) fun _ new lo hi =>
        Conforms lo hi (.binary dst op lhs rhs) new := by
    exact (emits_toReg rhs).bind fun d lo pre => .emitThen <| .emitThen <| .emit fun _ _ hle hd _ _ =>
      .divide hop (hd _ hle)
  rcases hop with rfl | rfl <;> exact h

theorem emits_shift (dst lhs rhs : Operand) (hop : op = .shl ∨ op = .shr) :
    Emits (expandConvention (.binary dst op lhs rhs)) fun _ new lo hi =>
      Conforms lo hi (.binary dst op lhs rhs) new := by
  have hmove : ∀ (count : Operand) {R : List Instr → Nat → Nat → Prop}, (∀ lo hi, lo ≤ hi →
      R ((if dst ≠ lhs then [.move dst lhs] else []) ++ [.binary dst op dst count]) lo hi) →
      Emits (do
        if dst ≠ lhs then emit (.move dst lhs)
        emit (.binary dst op dst count)) fun _ => R := by
    intro count R h
    split
    · next hne =>
      rw [if_pos hne] at h
      exact .emitThen (.emit h)
    · next hne =>
      rw [if_neg hne] at h
      exact .emit h
  have himm : ∀ k, rhs = .imm k → Emits (do
      if dst ≠ lhs then emit (.move dst lhs)
      emit (.binary dst op dst (.imm (k &&& 63)))) fun _ new lo hi =>
        Conforms lo hi (.binary dst op lhs rhs) new := by
    rintro k rfl
    exact hmove _ fun _ _ _ => .shiftBy hop
  have hvar : Emits (do
      emit (.move (.phys .rcx) rhs)
      if dst ≠ lhs then emit (.move dst lhs)
      emit (.binary dst op dst (.phys .rcx))) fun _ new lo hi =>
        Conforms lo hi (.binary dst op lhs rhs) new :=
    .emitThen (hmove _ fun _ _ _ => .shift hop)
  cases rhs with
  | imm k => rcases hop with rfl | rfl <;> exact himm k rfl
  | _ => rcases hop with rfl | rfl <;> exact hvar

theorem emits_binary (dst lhs rhs : Operand) (hop : op ≠ .div ∧ op ≠ .mod ∧ op ≠ .shl ∧ op ≠ .shr) :
    Emits (expandConvention (.binary dst op lhs rhs)) fun _ new lo hi =>
      Conforms lo hi (.binary dst op lhs rhs) new := by
  have hside : ∀ v : Operand, Emits (if v = dst then pure v else toSource v) fun o new lo hi =>
      Prepares (fun o => o = dst ∨ Encodable o) lo hi v o new := by
    intro v
    split
    · next h => exact emits_keep (.inl h)
    · next hne =>
      refine (emits_toSource v).mono ?_
      intro o new lo hi h
      cases h with
      | keep h => exact .keep (.inr h)
      | temp hlo hhi h => exact .temp hlo hhi fun hv => hv.elim hne h
  have hjoin : ∀ (v : Operand) (k : Operand → Expand Unit),
      (if v = dst then pure v >>= k else toSource v >>= k) =
        (if v = dst then pure v else toSource v) >>= k := by
    intro v k
    split <;> rfl
  have h : Emits (do
      let l ← if lhs = dst then pure lhs else toSource lhs
      let r ← if rhs = dst then pure rhs else toSource rhs
      emit (.binary dst op l r)) fun _ new lo hi =>
        Conforms lo hi (.binary dst op lhs rhs) new := by
    simp only [hjoin]
    refine (hside lhs).bind fun l lo pre => (hside rhs).bind fun r mid pre' => ?_
    refine .emit fun _ _ hle hr _ _ hl hlo hhi => ?_
    rw [← append_assoc]
    exact .binary hop hlo hhi (hl _ (Nat.le_refl _)) (hr _ hle)
  cases op with
  | div => exact absurd rfl hop.1
  | mod => exact absurd rfl hop.2.1
  | shl => exact absurd rfl hop.2.2.1
  | shr => exact absurd rfl hop.2.2.2
  | _ => exact h

theorem emits_expandConvention (i : Instr) :
    Emits (expandConvention i) fun _ new lo hi => Conforms lo hi i new := by
  have hsame : ∀ {i}, ((∃ d s, i = .move d s) ∨ (∃ s, i = .push s) ∨ (∃ t, i = .jump t) ∨
      i = .ret none) → Emits (emit i) fun _ new lo hi => Conforms lo hi i new := by
    exact fun h => .emit fun _ _ _ => .same h
  cases i with
  | binary dst op lhs rhs =>
    by_cases hdiv : op = .div ∨ op = .mod
    · exact emits_divide dst lhs rhs hdiv
    by_cases hshift : op = .shl ∨ op = .shr
    · exact emits_shift dst lhs rhs hshift
    exact emits_binary dst lhs rhs (by simpa only [not_or, and_assoc] using And.intro hdiv hshift)
  | unary dst op src =>
    exact (emits_toSource src).bind fun s lo pre => .emit fun _ _ hle hs _ _ => .unary (hs _ hle)
  | compare dst cond lhs rhs =>
    exact (emits_toComparison cond lhs rhs).bind fun x lo pre => .emit fun _ _ hle hx _ _ =>
      .compare (hx _ hle)
  | branch cond lhs rhs t e =>
    exact (emits_toComparison cond lhs rhs).bind fun x lo pre => .emit fun _ _ hle hx _ _ =>
      .branch (hx _ hle)
  | load dst a =>
    exact (emits_toAddress a).bind fun a' lo pre => .emit fun _ _ hle ha _ _ => .load (ha _ hle)
  | store a src =>
    refine (emits_toSource src).bind fun s lo pre => (emits_toAddress a).bind fun a' mid pre' => ?_
    refine .emit fun _ _ hle ha _ _ hs hlo hhi => ?_
    rw [← append_assoc]
    exact .store hlo hhi (hs _ (Nat.le_refl _)) (ha _ hle)
  | call dst callee args n => exact emits_expandCall dst callee args n
  | ret v =>
    cases v with
    | none => exact hsame (.inr (.inr (.inr rfl)))
    | some v => exact .emitThen (.emit fun _ _ _ => .ret)
  | move d s => exact hsame (.inl ⟨d, s, rfl⟩)
  | push s => exact hsame (.inr (.inl ⟨s, rfl⟩))
  | jump t => exact hsame (.inr (.inr (.inl ⟨t, rfl⟩)))

/-! ## Expansions -/

theorem conforms_of_expands (h : Expands expandConvention lo hi i new) : Conforms lo hi i new := by
  obtain ⟨hints, hlo, hhi, rfl⟩ := h
  obtain ⟨new, hcode, -, hnew⟩ := emits_expandConvention i { hints := hints }
  have heq : (expansion expandConvention i hints).code = new := hcode
  rw [heq]
  exact hnew lo hi hlo hhi

theorem grows_expandConvention : Grows expandConvention := by
  intro i hints
  obtain ⟨_, _, hle, _⟩ := emits_expandConvention i { hints := hints }
  exact hle

/-! ## The operands of the code -/

/-- The instruction is one whose values may go through registers of the convention. -/
def UsesConvention : Instr → Prop
  | .binary _ op _ _ => op = .div ∨ op = .mod ∨ op = .shl ∨ op = .shr
  | .call .. | .ret (some _) => True
  | _ => False

theorem operands_copy {Q : Operand → Prop} {dst lhs : Operand} (hd : Q dst) (hl : Q lhs) :
    ∀ j ∈ (if dst ≠ lhs then [Instr.move dst lhs] else []), ∀ x ∈ j.operands, Q x := by
  split
  · rw [forall_mem_singleton, forall_operands_move]
    exact ⟨hd, hl⟩
  · simp

section Operands

variable {Q : Operand → Prop} {lo hi : Nat} (htaken : ∀ t, lo ≤ t → t < hi → Q (.vreg t))

include htaken

theorem Prepares.operands (h : Prepares P lo hi v o pre) (hv : Q v) :
    Q o ∧ ∀ j ∈ pre, ∀ x ∈ j.operands, Q x := by
  cases h with
  | keep h => exact ⟨hv, by simp⟩
  | temp hlo hhi =>
    have ht := htaken _ hlo hhi
    rw [forall_mem_singleton, forall_operands_move]
    exact ⟨ht, ht, hv⟩

theorem PreparesAddress.operands (himm : ∀ w, Q (.imm w)) (h : PreparesAddress lo hi a a' pre)
    (ha : ∀ x ∈ a.operands, Q x) : (∀ x ∈ a'.operands, Q x) ∧ ∀ j ∈ pre, ∀ x ∈ j.operands, Q x := by
  cases h with
  | near hoffset hb =>
    obtain ⟨hb', hpre⟩ := hb.operands htaken (ha _ mem_cons_self)
    exact ⟨by simpa [Address.operands] using hb', hpre⟩
  | far hlo hmid hhi hb =>
    have ht := htaken _ hlo (Nat.lt_of_lt_of_le hmid hhi)
    obtain ⟨hb', hpre⟩ := hb.operands
      (fun t h => htaken t (Nat.le_trans hlo (Nat.le_of_lt (Nat.lt_of_lt_of_le hmid h))))
      (ha _ mem_cons_self)
    refine ⟨by simpa [Address.operands] using ht, ?_⟩
    rw [cons_append, forall_mem_cons, forall_mem_append, forall_mem_singleton,
      forall_operands_move, forall_operands_binary]
    exact ⟨⟨ht, himm _⟩, hpre, ht, ht, hb'⟩
  | fixed h => exact ⟨ha, by simp⟩

theorem PreparesComparison.operands (h : PreparesComparison lo hi cond lhs rhs c l r pre)
    (hl : Q lhs) (hr : Q rhs) : Q l ∧ Q r ∧ ∀ j ∈ pre, ∀ x ∈ j.operands, Q x := by
  cases h with
  | mk hswap hlo hhi hleft hright =>
    rename_i l0 r0 _ _ _
    have hsides : Q l0 ∧ Q r0 := by
      rcases hswap with ⟨_, rfl, rfl⟩ | ⟨_, rfl, rfl⟩
      · exact ⟨hl, hr⟩
      · exact ⟨hr, hl⟩
    obtain ⟨hl', hpre⟩ := hleft.operands (fun t h h' => htaken t h (Nat.lt_of_lt_of_le h' hhi)) hsides.1
    obtain ⟨hr', hpre'⟩ := hright.operands (fun t h => htaken t (Nat.le_trans hlo h)) hsides.2
    exact ⟨hl', hr', forall_mem_append.2 ⟨hpre, hpre'⟩⟩

theorem Pushes.operands (h : Pushes hi lo args new) (hargs : ∀ a ∈ args, Q a) :
    ∀ j ∈ new, ∀ x ∈ j.operands, Q x := by
  induction h with
  | nil => simp
  | cons ha hlo hhi _ ih =>
    obtain ⟨ha', hpre⟩ := ha.operands (fun t h h' => htaken t h (Nat.lt_of_lt_of_le h' hhi))
      (hargs _ mem_cons_self)
    rw [forall_mem_append, forall_mem_cons, forall_operands_push]
    exact ⟨hpre, ha', ih (fun t h => htaken t (Nat.le_trans hlo h))
      fun a h => hargs a (mem_cons_of_mem _ h)⟩

/-- What holds of the operands of an instruction, of the registers that may be taken, of the
registers of the convention where they are used and of constants, holds of all operands of the code. -/
theorem Conforms.operands (himm : ∀ w, Q (.imm w))
    (hphys : UsesConvention i → ∀ q ∈ PhysReg.callerSaved, Q (.phys q)) (h : Conforms lo hi i new)
    (hops : ∀ o ∈ i.operands, Q o) : ∀ j ∈ new, ∀ x ∈ j.operands, Q x := by
  cases h with
  | divide hop h =>
    obtain ⟨hdst, hlhs, hrhs⟩ := forall_operands_binary.1 hops
    obtain ⟨hd, hpre⟩ := h.operands htaken hrhs
    have hphys := hphys (hop.imp_right .inl)
    have hrax := hphys .rax (by decide)
    have hres := fun op => hphys _ (mem_callerSaved_divisionResult op)
    simp only [forall_mem_append, forall_mem_cons, forall_operands_move,
      forall_operands_binary]
    exact ⟨hpre, ⟨hrax, hlhs⟩, ⟨hres _, hrax, hd⟩, ⟨hdst, hres _⟩, by simp⟩
  | shiftBy hop =>
    obtain ⟨hdst, hlhs, hrhs⟩ := forall_operands_binary.1 hops
    rw [forall_mem_append, forall_mem_singleton, forall_operands_binary]
    exact ⟨operands_copy hdst hlhs, hdst, hdst, himm _⟩
  | shift hop =>
    obtain ⟨hdst, hlhs, hrhs⟩ := forall_operands_binary.1 hops
    have hrcx := hphys (.inr (.inr hop)) .rcx (by decide)
    rw [cons_append, forall_mem_cons, forall_mem_append, forall_mem_singleton,
      forall_operands_move, forall_operands_binary]
    exact ⟨⟨hrcx, hrhs⟩, operands_copy hdst hlhs, hdst, hdst, hrcx⟩
  | binary hop hlo hhi hl hr =>
    obtain ⟨hdst, hlhs, hrhs⟩ := forall_operands_binary.1 hops
    obtain ⟨hl', hpre⟩ := hl.operands (fun t h h' => htaken t h (Nat.lt_of_lt_of_le h' hhi)) hlhs
    obtain ⟨hr', hpre'⟩ := hr.operands (fun t h => htaken t (Nat.le_trans hlo h)) hrhs
    rw [forall_mem_append, forall_mem_append, forall_mem_singleton,
      forall_operands_binary]
    exact ⟨⟨hpre, hpre'⟩, hdst, hl', hr'⟩
  | unary h =>
    obtain ⟨hdst, hsrc⟩ := forall_operands_unary.1 hops
    obtain ⟨hs, hpre⟩ := h.operands htaken hsrc
    rw [forall_mem_append, forall_mem_singleton, forall_operands_unary]
    exact ⟨hpre, hdst, hs⟩
  | compare h =>
    obtain ⟨hdst, hlhs, hrhs⟩ := forall_operands_compare.1 hops
    obtain ⟨hl, hr, hpre⟩ := h.operands htaken hlhs hrhs
    rw [forall_mem_append, forall_mem_singleton, forall_operands_compare]
    exact ⟨hpre, hdst, hl, hr⟩
  | branch h =>
    obtain ⟨hlhs, hrhs⟩ := forall_operands_branch.1 hops
    obtain ⟨hl, hr, hpre⟩ := h.operands htaken hlhs hrhs
    rw [forall_mem_append, forall_mem_singleton, forall_operands_branch]
    exact ⟨hpre, hl, hr⟩
  | load h =>
    obtain ⟨hdst, ha⟩ := forall_operands_load.1 hops
    obtain ⟨ha', hpre⟩ := h.operands htaken himm ha
    rw [forall_mem_append, forall_mem_singleton, forall_operands_load]
    exact ⟨hpre, hdst, ha'⟩
  | store hlo hhi hs ha =>
    obtain ⟨haddr, hsrc⟩ := forall_operands_store.1 hops
    obtain ⟨hs', hpre⟩ := hs.operands (fun t h h' => htaken t h (Nat.lt_of_lt_of_le h' hhi)) hsrc
    obtain ⟨ha', hpre'⟩ := ha.operands (fun t h => htaken t (Nat.le_trans hlo h)) himm haddr
    rw [forall_mem_append, forall_mem_append, forall_mem_singleton,
      forall_operands_store]
    exact ⟨⟨hpre, hpre'⟩, ha', hs'⟩
  | call h =>
    obtain ⟨hdst, hargs⟩ := forall_operands_call.1 hops
    have hphys := hphys trivial
    have hpushes := h.operands htaken fun a ha =>
      hargs a (mem_of_mem_drop (mem_reverse.1 ha))
    simp only [forall_mem_append, forall_mem_cons, forall_operands_call]
    refine ⟨⟨⟨?_, hpushes⟩, ?_⟩, ⟨by simp, ?_⟩, ?_⟩
    · unfold padding
      split
      · rw [forall_mem_singleton, forall_operands_push]
        exact himm 0
      · simp
    · intro j hj
      obtain ⟨⟨r, a⟩, hra, rfl⟩ := mem_map.1 hj
      obtain ⟨hr, ha⟩ := of_mem_zip hra
      exact forall_operands_move.2 ⟨hphys r (params_subset_callerSaved hr), hargs a ha⟩
    · intro o ho
      obtain ⟨⟨r, a⟩, hra, rfl⟩ := mem_map.1 ho
      exact hphys r (params_subset_callerSaved (of_mem_zip hra).1)
    · intro j hj
      obtain ⟨d, hd, rfl⟩ := mem_map.1 hj
      exact forall_operands_move.2 ⟨hdst d (Option.mem_toList.1 hd), hphys .rax (by decide)⟩
  | ret =>
    have hv := forall_operands_ret.1 hops _ rfl
    have hrax := hphys trivial .rax (by decide)
    simp only [forall_mem_cons, forall_operands_move, forall_operands_ret, Option.mem_def,
      Option.some.injEq, forall_eq']
    exact ⟨⟨hrax, hv⟩, hrax, by simp⟩
  | same h => rwa [forall_mem_singleton]

end Operands

/-! ## Kinds of instructions in the code -/

/-- The instructions that prepare operands. -/
inductive Setup : Instr → Prop
  | move (t : VReg) (v : Operand) : Setup (.move (.vreg t) v)
  | add (t : VReg) {b : Operand} (hb : b.isReg = true) :
      Setup (.binary (.vreg t) .add (.vreg t) b)

theorem Setup.not_isTerminator (h : Setup i) : i.isTerminator = false := by
  cases h <;> rfl

theorem Prepares.holds (h : Prepares P lo hi v o pre) (hP : ∀ t, P (.vreg t)) : P o := by
  cases h with
  | keep h => exact h
  | temp => exact hP _

theorem Prepares.setup (h : Prepares P lo hi v o pre) : ∀ j ∈ pre, Setup j := by
  cases h with
  | keep => simp
  | temp =>
    rw [forall_mem_singleton]
    exact .move _ _

theorem PreparesAddress.setup (h : PreparesAddress lo hi a a' pre) : ∀ j ∈ pre, Setup j := by
  cases h with
  | near _ hb => exact hb.setup
  | far _ _ _ hb =>
    rw [cons_append, forall_mem_cons, forall_mem_append, forall_mem_singleton]
    exact ⟨.move _ _, hb.setup, .add _ (hb.holds fun _ => rfl)⟩
  | fixed => simp

theorem PreparesComparison.setup (h : PreparesComparison lo hi cond lhs rhs c l r pre) :
    ∀ j ∈ pre, Setup j := by
  cases h with
  | mk _ _ _ hl hr => exact forall_mem_append.2 ⟨hl.setup, hr.setup⟩

theorem PreparesComparison.holds (h : PreparesComparison lo hi cond lhs rhs c l r pre) :
    l.isReg = true ∧ Encodable r := by
  cases h with
  | mk _ _ _ hl hr => exact ⟨hl.holds fun _ => rfl, hr.holds fun _ => trivial⟩

theorem Pushes.mem (h : Pushes hi lo args new) :
    ∀ j ∈ new, Setup j ∨ ∃ v, Encodable v ∧ j = .push v := by
  induction h with
  | nil => simp
  | cons ha _ _ _ ih =>
    rw [forall_mem_append, forall_mem_cons]
    exact ⟨fun j hj => .inl (ha.setup j hj), .inr ⟨_, ha.holds fun _ => trivial, rfl⟩, ih⟩

theorem mem_padding {stack : List Operand} {j : Instr} (hj : j ∈ padding stack) :
    j = .push (.imm 0) := by
  unfold padding at hj
  split at hj
  · exact mem_singleton.1 hj
  · cases hj

/-- An address in a form that the machine has: from a register on, or without operands as it was. -/
inductive Formed (a : Address) : Address → Prop
  | base {b : Operand} {offset : Word} (hb : b.isReg = true) (hoffset : fitsImm32 offset = true) :
      Formed a (.base b offset)
  | same (ha : a.operands = []) : Formed a a

theorem PreparesAddress.formed (h : PreparesAddress lo hi a a' pre) : Formed a a' := by
  cases h with
  | near hoffset hb => exact .base (hb.holds fun _ => rfl) hoffset
  | far => exact .base rfl rfl
  | fixed ha => exact .same ha

/-- The instructions of the code that stands for an instruction: those that prepare operands and move
values from and to registers of the convention, and those that do what the instruction does. -/
inductive Part (i : Instr) : Instr → Prop
  | setup {j : Instr} (h : Setup j) : Part i j
  | push {v : Operand} (hi : i.isCall = true) (hv : Encodable v) : Part i (.push v)
  | move {d s : Operand} (hd : i.dst? = some d ∨ ∃ q, d = .phys q) : Part i (.move d s)
  | divide {op : BinOp} {divisor : Operand} (hop : op = .div ∨ op = .mod)
      (hreg : divisor.isReg = true) (hsrc : divisor ∈ i.sources ∨ ∃ t, divisor = .vreg t) :
      Part i (.binary (.phys (divisionResult op)) op (.phys .rax) divisor)
  | shift {dst count : Operand} {op : BinOp} (hop : op = .shl ∨ op = .shr)
      (hdst : i.dst? = some dst) (hcount : (∃ k, count = .imm k) ∨ count = .phys .rcx) :
      Part i (.binary dst op dst count)
  | binary {dst l r : Operand} {op : BinOp}
      (hop : op ≠ .div ∧ op ≠ .mod ∧ op ≠ .shl ∧ op ≠ .shr) (hdst : i.dst? = some dst)
      (hl : l = dst ∨ Encodable l) (hr : r = dst ∨ Encodable r) : Part i (.binary dst op l r)
  | unary {dst s : Operand} {op : UnOp} (hdst : i.dst? = some dst) (hs : Encodable s) :
      Part i (.unary dst op s)
  | compare {dst l r : Operand} {c : CmpOp} (hdst : i.dst? = some dst) (hl : l.isReg = true)
      (hr : Encodable r) : Part i (.compare dst c l r)
  | branch {l r : Operand} {c : CmpOp} {t e : BlockId} (hi : i.isTerminator = true)
      (hl : l.isReg = true) (hr : Encodable r) : Part i (.branch c l r t e)
  | load {dst : Operand} {a a' : Address} (hi : i = .load dst a) (ha : Formed a a') :
      Part i (.load dst a')
  | store {src s : Operand} {a a' : Address} (hi : i = .store a src) (ha : Formed a a')
      (hs : Encodable s) : Part i (.store a' s)
  | call {dst : Option Operand} {callee : Callee} {args : List Operand} {n : Nat}
      (hi : i = .call dst callee args n) :
      Part i (.call none callee ((PhysReg.params.zip args).map fun (r, _) => .phys r)
        (stackWords (args.drop PhysReg.params.length)))
  | ret {v : Operand} (hi : i = .ret (some v)) : Part i (.ret (some (.phys .rax)))
  | same (hi : (∃ s, i = .push s) ∨ (∃ t, i = .jump t) ∨ i = .ret none) : Part i i

theorem Conforms.part (h : Conforms lo hi i new) : ∀ j ∈ new, Part i j := by
  have hlast : ∀ {pre : List Instr} {j : Instr}, (∀ k ∈ pre, Setup k) → Part i j →
      ∀ k ∈ pre ++ [j], Part i k := by
    intro pre j hpre hj
    rw [forall_mem_append, forall_mem_singleton]
    exact ⟨fun k hk => .setup (hpre k hk), hj⟩
  have hcopy : ∀ {dst lhs : Operand}, i.dst? = some dst →
      ∀ j ∈ (if dst ≠ lhs then [Instr.move dst lhs] else []), Part i j := by
    intro dst lhs hdst
    split
    · exact forall_mem_singleton.2 (.move (.inl hdst))
    · simp
  cases h with
  | divide hop h =>
    rename_i dst lhs rhs divisor op pre
    have hsrc : divisor ∈ (Instr.binary dst op lhs rhs).sources ∨ ∃ t, divisor = .vreg t := by
      cases h with
      | keep => exact .inl (by simp [Instr.sources])
      | temp => exact .inr ⟨_, rfl⟩
    rw [forall_mem_append, forall_mem_cons, forall_mem_cons,
      forall_mem_singleton]
    exact ⟨fun j hj => .setup (h.setup j hj), .move (.inr ⟨_, rfl⟩),
      .divide hop (h.holds fun _ => rfl) hsrc, .move (.inl rfl)⟩
  | shiftBy hop =>
    rw [forall_mem_append, forall_mem_singleton]
    exact ⟨hcopy rfl, .shift hop rfl (.inl ⟨_, rfl⟩)⟩
  | shift hop =>
    rw [cons_append, forall_mem_cons, forall_mem_append, forall_mem_singleton]
    exact ⟨.move (.inr ⟨_, rfl⟩), hcopy rfl, .shift hop rfl (.inr rfl)⟩
  | binary hop _ _ hl hr =>
    exact hlast (forall_mem_append.2 ⟨hl.setup, hr.setup⟩) (.binary hop rfl
      (hl.holds fun _ => .inr trivial) (hr.holds fun _ => .inr trivial))
  | unary h => exact hlast h.setup (.unary rfl (h.holds fun _ => trivial))
  | compare h => exact hlast h.setup (.compare rfl h.holds.1 h.holds.2)
  | branch h => exact hlast h.setup (.branch rfl h.holds.1 h.holds.2)
  | load h => exact hlast h.setup (.load rfl h.formed)
  | store _ _ hs ha =>
    exact hlast (forall_mem_append.2 ⟨hs.setup, ha.setup⟩)
      (.store rfl ha.formed (hs.holds fun _ => trivial))
  | call h =>
    rw [forall_mem_append, forall_mem_append, forall_mem_append, forall_mem_cons]
    refine ⟨⟨⟨fun j hj => ?_, fun j hj => ?_⟩, ?_⟩, .call rfl, ?_⟩
    · rw [mem_padding hj]
      exact .push rfl rfl
    · obtain hj | ⟨v, hv, rfl⟩ := h.mem j hj
      · exact .setup hj
      · exact .push rfl hv
    · exact forall_mem_map.2 fun _ _ => .move (.inr ⟨_, rfl⟩)
    · exact forall_mem_map.2 fun _ hd => .move (.inl (Option.mem_toList.1 hd))
  | ret =>
    rw [forall_mem_cons, forall_mem_singleton]
    exact ⟨.move (.inr ⟨_, rfl⟩), .ret rfl⟩
  | same h =>
    rw [forall_mem_singleton]
    rcases h with ⟨d, s, rfl⟩ | h
    · exact .move (.inl rfl)
    · exact .same h

theorem Part.not_isTerminator {j : Instr} (h : Part i j) (hi : i.isTerminator = false) :
    j.isTerminator = false := by
  cases h with
  | setup h => exact h.not_isTerminator
  | branch hi' => exact absurd hi' (by simp [hi])
  | ret heq =>
    subst heq
    cases hi
  | same => exact hi
  | _ => rfl

/-- An instruction that ends a block becomes code that ends with one that goes to the same blocks. -/
theorem Conforms.endsOnce (h : Conforms lo hi i new) (hi : i.isTerminator = true) :
    EndsOnce new ∧ ∀ j ∈ new.getLast?, j.successors = i.successors := by
  have hlast : ∀ (pre : List Instr) {j : Instr}, (∀ k ∈ pre, k.isTerminator = false) →
      j.isTerminator = true → j.successors = i.successors →
      EndsOnce (pre ++ [j]) ∧ ∀ k ∈ (pre ++ [j]).getLast?, k.successors = i.successors := by
    intro pre j hpre hj hsucc
    refine ⟨⟨⟨j, by simp, hj⟩, ?_⟩, by simpa using hsucc⟩
    rwa [dropLast_concat]
  cases h with
  | branch h => exact hlast _ (fun k hk => (h.setup k hk).not_isTerminator) rfl rfl
  | ret => exact hlast [_] (by simp [Instr.isTerminator]) rfl rfl
  | same => exact hlast [] (by simp) hi rfl
  | _ => cases hi

theorem Part.eq_call {dst : Option Operand} {callee : Callee} {n : Nat}
    (h : Part i (.call dst callee args n)) : ∃ dst' args' n', i = .call dst' callee args' n' ∧
      args.length = min PhysReg.params.length args'.length := by
  cases h with
  | setup h => cases h
  | call hi => exact ⟨_, _, _, hi, by simp⟩
  | same hi => simp at hi

theorem routed_binary {dst : Operand} (h : op = .div ∨ op = .mod → ∃ q, dst = .phys q) :
    Routed (.binary dst op l r) := by
  refine ⟨?_, by simp, by simp⟩
  rintro _ _ _ _ ⟨⟩
  exact h

theorem Part.routed {j : Instr} (h : Part i j) : Routed j := by
  cases h with
  | setup h =>
    cases h with
    | move => exact ⟨by simp, by simp, by simp⟩
    | add => exact routed_binary (by simp)
  | divide => exact routed_binary fun _ => ⟨_, rfl⟩
  | shift hop => exact routed_binary fun h => by rcases hop with rfl | rfl <;> simp at h
  | binary hop => exact routed_binary fun h => (h.elim hop.1 hop.2.1).elim
  | call =>
    refine ⟨by simp, ?_, by simp⟩
    rintro _ _ _ _ ⟨⟩
    exact ⟨rfl, forall_mem_map.2 fun x _ => ⟨x.1, rfl⟩⟩
  | same hi => rcases hi with ⟨s, rfl⟩ | ⟨t, rfl⟩ | rfl <;> exact ⟨by simp, by simp, by simp⟩
  | _ => exact ⟨by simp, by simp, by simp⟩

/-! ## Physical registers are written before they are read -/

def NoPhys (o : Operand) : Prop := ∀ q, o ≠ .phys q

theorem noPhys_vreg (v : VReg) : NoPhys (.vreg v) := by simp [NoPhys]

theorem noPhys_imm (w : Word) : NoPhys (.imm w) := by simp [NoPhys]

theorem noPhys_padding (stack : List Operand) :
    ∀ j ∈ padding stack, ∀ o ∈ j.operands, NoPhys o := by
  intro j hj
  rw [mem_padding hj]
  exact forall_operands_push.2 (noPhys_imm 0)

section Exposed

variable {out : RegSet} {q : PhysReg}

theorem phys_mem_liveAt_cons (h : .phys q ∈ liveAt out (i :: code)) :
    .phys q ∈ i.sources ∨ .phys q ∈ liveAt out code ∧ .phys q ∉ defs i := by
  rw [liveAt_cons, mem_liveBefore] at h
  rcases h with h | h
  · exact .inr h
  · obtain ⟨o, ho, hreg⟩ := mem_uses.1 h
    rw [Operand.eq_of_reg?.2] at hreg
    exact .inl (hreg ▸ ho)

theorem phys_mem_liveAt_move {d s : Operand} (h : .phys q ∈ liveAt out (.move d s :: code)) :
    s = .phys q ∨ .phys q ∈ liveAt out code ∧ d ≠ .phys q := by
  rcases phys_mem_liveAt_cons h with h | ⟨h, hdef⟩
  · exact .inl (by simpa [Instr.sources, eq_comm] using h)
  · refine .inr ⟨h, ?_⟩
    rintro rfl
    exact hdef (mem_defs_of_dst rfl rfl)

theorem phys_mem_liveAt_of_noPhys (hcode : ∀ j ∈ code, ∀ o ∈ j.operands, NoPhys o)
    (h : .phys q ∈ liveAt out (code ++ post)) : .phys q ∈ liveAt out post := by
  induction code with
  | nil => exact h
  | cons j code ih =>
    obtain ⟨hj, hcode⟩ := forall_mem_cons.1 hcode
    rcases phys_mem_liveAt_cons h with h | h
    · exact absurd rfl (hj _ (mem_operands_of_source h) q)
    · exact ih hcode h.1

theorem phys_mem_liveAt_argMoves {args : List (PhysReg × Operand)} (hargs : ∀ x ∈ args, NoPhys x.2)
    (h : .phys q ∈ liveAt out (argMoves args ++ post)) :
    .phys q ∈ liveAt out post ∧ q ∉ args.map (·.1) := by
  induction args with
  | nil => exact ⟨h, by simp⟩
  | cons x args ih =>
    obtain ⟨hx, hargs⟩ := forall_mem_cons.1 hargs
    rcases phys_mem_liveAt_move h with h | ⟨h, hne⟩
    · exact absurd h (hx q)
    · obtain ⟨hpost, hq⟩ := ih hargs h
      refine ⟨hpost, ?_⟩
      rw [map_cons, mem_cons, not_or]
      exact ⟨fun heq => hne (by rw [heq]), hq⟩

/-- The code for an instruction without physical registers reads none that it has not written. -/
theorem Conforms.phys_mem_liveAt (h : Conforms lo hi i new) (hops : ∀ o ∈ i.operands, NoPhys o)
    (hq : .phys q ∈ liveAt out (new ++ post)) : .phys q ∈ liveAt out post := by
  have htaken : ∀ {lo hi : Nat}, ∀ t, lo ≤ t → t < hi → NoPhys (.vreg t) :=
    fun t _ _ => noPhys_vreg t
  by_cases huses : UsesConvention i
  swap
  · exact phys_mem_liveAt_of_noPhys
      (h.operands htaken noPhys_imm (fun hi => absurd hi huses) hops) hq
  cases h with
  | divide hop h =>
    rename_i dst lhs rhs divisor op pre
    obtain ⟨hdst, hlhs, hrhs⟩ := forall_operands_binary.1 hops
    obtain ⟨hd, hpre⟩ := h.operands htaken hrhs
    rw [append_assoc] at hq
    rcases phys_mem_liveAt_move (phys_mem_liveAt_of_noPhys hpre hq) with hq | ⟨hq, hrax⟩
    · exact absurd hq (hlhs q)
    rcases phys_mem_liveAt_cons hq with hq | ⟨hq, hdefs⟩
    · simp only [Instr.sources, mem_cons, not_mem_nil, or_false] at hq
      rcases hq with hq | hq
      · exact absurd hq.symm hrax
      · exact absurd hq.symm (hd q)
    rcases phys_mem_liveAt_move hq with hq | hq
    · rw [← Operand.eq_of_reg?.2] at hq
      exact absurd (mem_defs_of_dst rfl hq) hdefs
    · exact hq.1
  | shiftBy hop =>
    obtain ⟨hdst, hlhs, hrhs⟩ := forall_operands_binary.1 hops
    refine phys_mem_liveAt_of_noPhys (forall_mem_append.2 ⟨operands_copy hdst hlhs, ?_⟩) hq
    exact forall_mem_singleton.2 (forall_operands_binary.2 ⟨hdst, hdst, noPhys_imm _⟩)
  | shift hop =>
    obtain ⟨hdst, hlhs, hrhs⟩ := forall_operands_binary.1 hops
    rw [append_assoc] at hq
    rcases phys_mem_liveAt_move hq with hq | ⟨hq, hrcx⟩
    · exact absurd hq (hrhs q)
    rcases phys_mem_liveAt_cons (phys_mem_liveAt_of_noPhys (operands_copy hdst hlhs) hq) with hq | hq
    · simp only [Instr.sources, mem_cons, not_mem_nil, or_false] at hq
      rcases hq with hq | hq
      · exact absurd hq.symm (hdst q)
      · exact absurd hq.symm hrcx
    · exact hq.1
  | binary hop => exact absurd huses (by simp [UsesConvention, hop])
  | unary | compare | branch | load | store => exact huses.elim
  | call h =>
    rename_i dst _ args _ _
    obtain ⟨hdst, hargs⟩ := forall_operands_call.1 hops
    have hpushes := h.operands htaken fun a ha =>
      hargs a (mem_of_mem_drop (mem_reverse.1 ha))
    rw [append_assoc, append_assoc] at hq
    have hstack := forall_mem_append.2
      ⟨noPhys_padding (args.drop PhysReg.params.length), hpushes⟩
    obtain ⟨hq, hparam⟩ := phys_mem_liveAt_argMoves
      (fun x hx => hargs x.2 (of_mem_zip hx).2) (phys_mem_liveAt_of_noPhys hstack hq)
    rcases phys_mem_liveAt_cons hq with hq | ⟨hq, hsaved⟩
    · obtain ⟨x, hx, heq⟩ := mem_map.1 hq
      cases heq
      exact absurd (mem_map_of_mem hx) hparam
    rw [mem_defs_call] at hsaved
    cases dst with
    | none => exact hq
    | some d =>
      rcases phys_mem_liveAt_move hq with hq | hq
      · cases hq
        exact absurd ⟨.rax, by decide, rfl⟩ hsaved
      · exact hq.1
  | ret =>
    rcases phys_mem_liveAt_move hq with hq | ⟨hq, hrax⟩
    · exact absurd hq (forall_operands_ret.1 hops _ rfl q)
    rcases phys_mem_liveAt_cons hq with hq | hq
    · exact absurd (by simpa [Instr.sources, eq_comm] using hq) hrax
    · exact hq.1
  | same h => rcases h with ⟨d, s, rfl⟩ | ⟨s, rfl⟩ | ⟨t, rfl⟩ | rfl <;> exact huses.elim

end Exposed

end MxStar.Alloc
