import MxStar.Proofs.PlainArithmetic
import MxStar.Proofs.Runs

/-!
What one instruction does, in two parts.

An instruction reads its operands (`Reads`) and then acts on the values. What it does with them is an
`Action`, which is the same wherever the operands were found (`act_mapOperands`). The lemmas `step_*`
say once what a step does for each kind of instruction; later modules never unfold `step`.
-/
namespace MxStar.Interp

open IR List

variable {vs : List Word} {m m' : Machine} {fr fr' : Frame} {e : RunError} {os : List Operand}
  {o : Operand} {i : Instr} {dst : Option Operand} {mem : Memory} {a : Address} {w : Word}

/-! ## Registers and slots of a frame -/

def Frame.reg (fr : Frame) (v : VReg) : Option Word := (fr.regs[v]?).join

def Frame.slot (fr : Frame) (k : SlotId) : Option Word := (fr.slots[k]?).join

theorem join_setIfInBounds {α : Type} (xs : Array (Option α)) (i j : Nat) (a : α)
    (hi : i < xs.size) :
    ((xs.setIfInBounds i (some a))[j]?).join = if i = j then some a else (xs[j]?).join := by
  rw [Array.getElem?_setIfInBounds]
  by_cases hij : i = j
  · subst hij
    simp [hi]
  · simp [hij]

/-- What is at one place of an array and at another one of a second array stays so if both get the
same entry at such places. -/
theorem join_set_mono {α : Type} {xs ys : Array (Option α)} {i j : Nat} {t : Nat → Nat} {a b : α}
    (ht : ∀ j, t i = t j → i = j) (hi : i < xs.size) (hi' : t i < ys.size)
    (h : (xs[j]?).join = some b → (ys[t j]?).join = some b)
    (hj : ((xs.setIfInBounds i (some a))[j]?).join = some b) :
    ((ys.setIfInBounds (t i) (some a))[t j]?).join = some b := by
  rw [join_setIfInBounds _ _ _ _ hi] at hj
  rw [join_setIfInBounds _ _ _ _ hi']
  by_cases hij : i = j
  · rw [if_pos hij] at hj
    rwa [if_pos (congrArg t hij)]
  · rw [if_neg hij] at hj
    rw [if_neg fun heq => hij (ht j heq)]
    exact h hj

/-! ## Reading operands -/

def Reads (m : Machine) (fr : Frame) (os : List Operand) (vs : List Word) : Prop :=
  List.Forall₂ (fun o w => value m fr o = .ok w) os vs

theorem value_withCode (m : Machine) (fr : Frame) (code : List Instr) (o : Operand) :
    value m { fr with code := code } o = value m fr o := by
  cases o <;> rfl

theorem mapM_withCode (m : Machine) (fr : Frame) (code : List Instr) (os : List Operand) :
    os.mapM (value m { fr with code := code }) = os.mapM (value m fr) :=
  congrArg os.mapM (funext (value_withCode m fr code))

theorem value_vreg {v : VReg} : value m fr (.vreg v) = .ok w ↔ fr.reg v = some w := by
  simp only [value, Frame.reg]
  cases (fr.regs[v]?).join <;> simp

theorem value_phys {p : PhysReg} : value m fr (.phys p) = .ok w ↔ m.regs.get p = some w := by
  simp only [value]
  cases m.regs.get p <;> simp

theorem value_error (h : value m fr o = .error e) : e.Void := by
  cases o with
  | vreg v | phys p =>
    simp only [value] at h
    split at h
    · cases h
    · cases h
      exact trivial
  | imm w => cases h
  | static s =>
    simp only [value, Machine.staticAddress] at h
    split at h
    · cases h
    · cases h
      exact trivial

theorem reads_iff : Reads m fr os vs ↔ os.mapM (value m fr) = .ok vs :=
  mapM_eq_ok_iff.symm

theorem reads_nil : Reads m fr [] vs ↔ vs = [] := by
  simp [Reads]

theorem reads_one : Reads m fr [o] vs ↔ ∃ w, value m fr o = .ok w ∧ vs = [w] := by
  simp [Reads, forall₂_cons_left_iff]

theorem reads_two {o' : Operand} :
    Reads m fr [o, o'] vs ↔
      ∃ l r, value m fr o = .ok l ∧ value m fr o' = .ok r ∧ vs = [l, r] := by
  simp only [Reads, forall₂_cons_left_iff, forall₂_nil_left_iff]
  constructor
  · rintro ⟨l, _, hl, ⟨r, _, hr, rfl, rfl⟩, rfl⟩
    exact ⟨l, r, hl, hr, rfl⟩
  · rintro ⟨l, r, hl, hr, rfl⟩
    exact ⟨l, _, hl, ⟨r, _, hr, rfl, rfl⟩, rfl⟩

theorem reads_concat : Reads m fr (os ++ [o]) vs ↔
      ∃ ws w, Reads m fr os ws ∧ value m fr o = .ok w ∧ vs = ws ++ [w] := by
  constructor
  · intro h
    induction os generalizing vs with
    | nil =>
      obtain ⟨w, hw, rfl⟩ := reads_one.1 h
      exact ⟨[], w, .nil, hw, rfl⟩
    | cons o' os ih =>
      cases h with
      | cons hx h =>
        obtain ⟨ws, w, hws, hw, rfl⟩ := ih h
        exact ⟨_ :: ws, w, .cons hx hws, hw, rfl⟩
  · rintro ⟨ws, w, hws, hw, rfl⟩
    exact rel_append hws (reads_one.2 ⟨w, hw, rfl⟩)

/-- Operands whose values are found elsewhere under other names read the same. -/
theorem Reads.map {σ : Operand → Operand} (h : Reads m fr os vs)
    (hσ : ∀ o ∈ os, ∀ w, value m fr o = .ok w → value m' fr' (σ o) = .ok w) :
    Reads m' fr' (os.map σ) vs := by
  induction h with
  | nil => exact .nil
  | cons h _ ih =>
    refine .cons (hσ _ mem_cons_self _ h) (ih fun o ho => hσ o (mem_cons_of_mem _ ho))

theorem Reads.imp (h : Reads m fr os vs)
    (hv : ∀ o ∈ os, ∀ w, value m fr o = .ok w → value m' fr' o = .ok w) : Reads m' fr' os vs := by
  have h' := h.map (σ := fun o => o) hv
  rwa [map_id'] at h'

theorem Reads.exists_value (h : Reads m fr os vs) (ho : o ∈ os) : ∃ w, value m fr o = .ok w := by
  induction h with
  | nil => simp at ho
  | cons h _ ih =>
    rcases mem_cons.1 ho with rfl | ho
    · exact ⟨_, h⟩
    · exact ih ho

/-! ## Acting on the values -/

/-- Whether an instruction neither calls nor transfers control. -/
def IsSimple (i : Instr) : Prop := i.isTerminator = false ∧ i.isCall = false

instance (i : Instr) : Decidable (IsSimple i) := inferInstanceAs (Decidable (_ ∧ _))

/-- What an instruction does once its operands are read. -/
inductive Action where
  | write (dst : Operand) (w : Word)
  | divide (dst : Operand) (op : BinOp) (quot rem : Word)
  | memory (mem : Memory)
  | slot (k : SlotId) (w : Word)
  | push (w : Word)

namespace Action

/-- Replaces the register that is written. -/
def mapDst (σ : Operand → Operand) : Action → Action
  | .write dst w => .write (σ dst) w
  | .divide dst op quot rem => .divide (σ dst) op quot rem
  | .memory mem => .memory mem
  | .slot k w => .slot k w
  | .push w => .push w

def apply (m : Machine) (fr : Frame) : Action → Except RunError (Machine × Frame)
  | .write dst w => assign m fr dst w
  | .divide dst op quot rem =>
    let m := match dst with
      | .phys _ => { m with regs := (m.regs.set .rax (some quot)).set .rdx (some rem) }
      | _ => m
    assign m fr dst (if op = .div then quot else rem)
  | .memory mem => .ok ({ m with memory := mem }, fr)
  | .slot k w =>
    if k < fr.slots.size then .ok (m, { fr with slots := fr.slots.setIfInBounds k (some w) })
    else .error (.unsupported (.slotRange k))
  | .push w => .ok (m, { fr with pushed := w :: fr.pushed })

end Action

def place (m : Machine) : Address → List Word → Except RunError Word
  | .base _ offset, vs => .ok (vs.getD 0 0 + offset)
  | .static s, _ => m.staticAddress s
  | a, _ => .error (.unsupported (.address a))

theorem place_append {ws : List Word} (h : Reads m fr a.operands ws) (vs : List Word) :
    place m' a (ws ++ vs) = place m' a ws := by
  cases a with
  | base b offset =>
    obtain ⟨w, -, rfl⟩ := reads_one.1 h
    rfl
  | _ => rfl

def actBinary (dst : Operand) (op : BinOp) (l r : Word) : Except RunError Action :=
  if op = .div || op = .mod then
    match BinOp.div.eval l r, BinOp.mod.eval l r with
    | some quot, some rem => .ok (.divide dst op quot rem)
    | _, _ => .error .divisionByZero
  else match op.eval l r with
    | some w => .ok (.write dst w)
    | none => .error .divisionByZero

def actLoad (m : Machine) (fr : Frame) (dst : Operand) (a : Address) (vs : List Word) :
    Except RunError Action :=
  match a with
  | .slot k =>
    match fr.slot k with
    | some w => .ok (.write dst w)
    | none => .error (.undefinedSlot k fr.func.name)
  | .incoming k =>
    match fr.incoming[k]? with
    | some w => .ok (.write dst w)
    | none => .error (.unsupported (.stackArgument k))
  | a => do return .write dst (← m.memory.readWord (← place m a vs))

/-- The action of a store, where `vs` ends with the value to store. -/
def actStore (m : Machine) (a : Address) (vs : List Word) : Except RunError Action :=
  match a with
  | .slot k => .ok (.slot k (vs.getLastD 0))
  | a => do return .memory (← m.memory.writeWord (← place m a vs) (vs.getLastD 0))

/-- The action of an instruction, given the values of its operands. -/
def act (m : Machine) (fr : Frame) (i : Instr) (vs : List Word) : Except RunError Action :=
  match i with
  | .binary dst op _ _ => actBinary dst op (vs.getD 0 0) (vs.getD 1 0)
  | .unary dst op _ => .ok (.write dst (op.eval (vs.getD 0 0)))
  | .compare dst cond _ _ =>
    .ok (.write dst (if cond.eval (vs.getD 0 0) (vs.getD 1 0) then 1 else 0))
  | .move dst _ => .ok (.write dst (vs.getD 0 0))
  | .load dst a => actLoad m fr dst a vs
  | .store a _ => actStore m a vs
  | .push _ => .ok (.push (vs.getD 0 0))
  | .call .. | .jump _ | .branch .. | .ret _ => .error .outOfFuel

/-! ## Instructions in terms of their actions -/

theorem load_eq_actLoad {dst : Operand} (hr : Reads m fr a.operands vs) :
    (do assign m fr dst (← load m fr a)) = actLoad m fr dst a vs >>= Action.apply m fr := by
  cases a with
  | base b offset =>
    obtain ⟨w, hw, rfl⟩ := reads_one.1 hr
    simp only [load, address, hw, actLoad, place, Except.ok_bind, Except.pure_eq,
      getD_cons_zero]
    cases m.memory.readWord (w + offset) <;> rfl
  | static s =>
    cases reads_nil.1 hr
    simp only [load, address, actLoad, place]
    cases m.staticAddress s with
    | error e => rfl
    | ok w =>
      simp only [Except.ok_bind]
      cases m.memory.readWord w <;> rfl
  | slot k =>
    simp only [load, actLoad, Frame.slot]
    cases (fr.slots[k]?).join <;> rfl
  | incoming k =>
    simp only [load, actLoad]
    cases fr.incoming[k]? <;> rfl

theorem store_eq_actStore {src : Operand} (hr : Reads m fr (a.operands ++ [src]) vs) :
    (do store m fr a (← value m fr src)) = actStore m a vs >>= Action.apply m fr := by
  cases a with
  | base b offset =>
    obtain ⟨w, v, hw, hv, rfl⟩ := reads_two.1 hr
    simp only [store, address, hw, hv, actStore, place, Except.ok_bind, Except.pure_eq,
      getD_cons_zero, List.getLastD, List.getLast]
    cases m.memory.writeWord (w + offset) v <;> rfl
  | static s =>
    obtain ⟨v, hv, rfl⟩ := reads_one.1 hr
    simp only [store, address, hv, actStore, place, Except.ok_bind, List.getLastD, List.getLast]
    cases m.staticAddress s with
    | error e => rfl
    | ok w =>
      simp only [Except.ok_bind]
      cases m.memory.writeWord w v <;> rfl
  | slot k =>
    obtain ⟨v, hv, rfl⟩ := reads_one.1 hr
    simp only [store, hv, actStore, Except.ok_bind, Action.apply, List.getLastD, List.getLast]
  | incoming k =>
    obtain ⟨v, hv, rfl⟩ := reads_one.1 hr
    simp only [store, address, hv, actStore, place, Except.ok_bind]
    rfl

theorem compute_eq_act (hi : IsSimple i) (hr : Reads m fr i.sources vs) :
    compute m fr i = act m fr i vs >>= Action.apply m fr := by
  cases i with
  | binary dst op lhs rhs =>
    obtain ⟨l, r, hl, hrr, rfl⟩ := reads_two.1 hr
    simp only [compute, hl, hrr, Except.ok_bind, act, actBinary, getD_cons_zero,
      getD_cons_succ]
    split
    · simp only [divide]
      cases BinOp.div.eval l r <;> cases BinOp.mod.eval l r <;> rfl
    · cases op.eval l r <;> rfl
  | unary dst op src | move dst src =>
    obtain ⟨w, hw, rfl⟩ := reads_one.1 hr
    simp only [compute, hw, Except.ok_bind, act, Action.apply, getD_cons_zero]
  | compare dst cond lhs rhs =>
    obtain ⟨l, r, hl, hrr, rfl⟩ := reads_two.1 hr
    simp only [compute, hl, hrr, Except.ok_bind, act, Action.apply, getD_cons_zero,
      getD_cons_succ]
  | load dst a => exact load_eq_actLoad hr
  | store a src => exact store_eq_actStore hr
  | push src =>
    obtain ⟨w, hw, rfl⟩ := reads_one.1 hr
    simp only [compute, hw, Except.ok_bind, act, Action.apply, getD_cons_zero]
    rfl
  | call => simp [IsSimple, Instr.isCall] at hi
  | jump | branch | ret => simp [IsSimple, Instr.isTerminator] at hi

/-- An action that fails does so because the code has no meaning. -/
theorem Action.apply_error {a : Action} (h : a.apply m fr = .error e) : e.Void := by
  have hassign : ∀ m d w, assign m fr d w = .error e → e.Void := by
    intro m d w h
    cases d with
    | vreg v =>
      simp only [assign] at h
      split at h
      · cases h
      · cases h
        exact trivial
    | phys p => cases h
    | imm w => cases h; exact trivial
    | static s => cases h; exact trivial
  cases a with
  | write dst w => exact hassign _ _ _ h
  | divide dst op quot rem => exact hassign _ _ _ h
  | memory mem => cases h
  | slot k w =>
    simp only [Action.apply] at h
    split at h
    · cases h
    · cases h
      exact trivial
  | push w => cases h

/-! ## Results that match -/

/-- The second computation gives a result that is related to that of the first, or fails as the
first one does if that is with a definite error. -/
def Lifts {α β : Type} (P : α → β → Prop) (x : Except RunError α) (y : Except RunError β) : Prop :=
  (∀ a, x = .ok a → ∃ b, y = .ok b ∧ P a b) ∧ ∀ e, e.Definite → x = .error e → y = .error e

namespace Lifts

variable {α β γ δ : Type} {P : α → β → Prop} {Q : γ → δ → Prop} {x : Except RunError α}
  {y : Except RunError β}

theorem ok {a : α} {b : β} (h : P a b) : Lifts P (.ok a) (.ok b) :=
  ⟨fun _ ha => ⟨b, rfl, Except.ok.inj ha ▸ h⟩, fun _ _ he => by cases he⟩

theorem void {e : RunError} (h : ¬e.Definite) (y : Except RunError β) : Lifts P (.error e) y :=
  ⟨fun _ ha => (by cases ha), fun _ hd he => absurd hd (Except.error.inj he ▸ h)⟩

theorem error (e : RunError) : Lifts P (.error e) (.error e) :=
  ⟨fun _ ha => (by cases ha), fun _ _ he => (by cases he; rfl)⟩

theorem refl (x : Except RunError α) : Lifts Eq x x :=
  ⟨fun a ha => ⟨a, ha, rfl⟩, fun _ _ he => he⟩

theorem of_void (he : ∀ e, x = .error e → e.Void) (h : ∀ a, x = .ok a → ∃ b, y = .ok b ∧ P a b) :
    Lifts P x y :=
  ⟨h, fun e hd hx => absurd hd (he e hx).not_definite⟩

theorem of_eq_map {f : α → β} (h : y = x.map f) : Lifts (fun a b => b = f a) x y := by
  subst h
  cases x with
  | error e => exact .error e
  | ok a => exact .ok rfl

theorem bind {k : α → Except RunError γ} {l : β → Except RunError δ} (h : Lifts P x y)
    (hk : ∀ a b, x = .ok a → y = .ok b → P a b → Lifts Q (k a) (l b)) :
    Lifts Q (x >>= k) (y >>= l) := by
  cases x with
  | error e => exact ⟨fun _ ha => (by cases ha), fun e' hd he => by
      rw [h.2 e' hd (by cases he; rfl)]; rfl⟩
  | ok a =>
    obtain ⟨b, rfl, hab⟩ := h.1 a rfl
    exact hk a b rfl rfl hab

end Lifts

/-! ## The same instruction on other registers -/

/-- Two states agree on all that an instruction looks at besides registers. What the first one has
in a slot, the second one has too. -/
structure SameStore (m : Machine) (fr : Frame) (m' : Machine) (fr' : Frame) : Prop where
  memory : m'.memory = m.memory
  statics : m'.statics = m.statics
  incoming : fr'.incoming = fr.incoming
  slots : ∀ k w, fr.slot k = some w → fr'.slot k = some w

theorem sources_mapOperands (σ : Operand → Operand) (i : Instr) :
    (i.mapOperands σ).sources = i.sources.map σ := by
  cases i with
  | load dst a => cases a <;> rfl
  | store a src => cases a <;> rfl
  | ret v => cases v <;> rfl
  | _ => rfl

theorem isSimple_mapOperands (σ : Operand → Operand) (i : Instr) :
    IsSimple (i.mapOperands σ) ↔ IsSimple i := by
  cases i <;> rfl

theorem place_mapOperands (h : m'.statics = m.statics) (σ : Operand → Operand) (a : Address)
    (vs : List Word) : place m' (a.mapOperands σ) vs = place m a vs := by
  cases a with
  | static s => simp only [Address.mapOperands, place, Machine.staticAddress, h]
  | _ => rfl

/-- With operands under other names, an instruction acts in the same way on the same values. -/
theorem act_mapOperands (h : SameStore m fr m' fr') (σ : Operand → Operand) :
    Lifts (fun a b => b = a.mapDst σ) (act m fr i vs) (act m' fr' (i.mapOperands σ) vs) := by
  cases i with
  | binary dst op lhs rhs =>
    refine .of_eq_map ?_
    simp only [Instr.mapOperands, act, actBinary]
    split
    · cases BinOp.div.eval (vs.getD 0 0) (vs.getD 1 0) <;>
        cases BinOp.mod.eval (vs.getD 0 0) (vs.getD 1 0) <;> rfl
    · cases op.eval (vs.getD 0 0) (vs.getD 1 0) <;> rfl
  | load dst a =>
    have hp := place_mapOperands h.statics σ a vs
    cases a with
    | slot k =>
      simp only [Instr.mapOperands, Address.mapOperands, act, actLoad]
      cases hw : fr.slot k with
      | none => exact .void id _
      | some w =>
        rw [h.slots k w hw]
        exact .ok rfl
    | incoming k =>
      refine .of_eq_map ?_
      simp only [Instr.mapOperands, Address.mapOperands, act, actLoad, h.incoming]
      cases fr.incoming[k]? <;> rfl
    | base | static =>
      refine .of_eq_map ?_
      simp only [Instr.mapOperands, Address.mapOperands, act, actLoad, h.memory] at hp ⊢
      rw [hp]
      cases place m _ vs with
      | error e => rfl
      | ok w =>
        simp only [Except.ok_bind]
        cases m.memory.readWord w <;> rfl
  | store a src =>
    refine .of_eq_map ?_
    have hp := place_mapOperands h.statics σ a vs
    cases a with
    | slot k => rfl
    | incoming k => rfl
    | base | static =>
      simp only [Instr.mapOperands, Address.mapOperands, act, actStore, h.memory] at hp ⊢
      rw [hp]
      cases place m _ vs with
      | error e => rfl
      | ok w =>
        simp only [Except.ok_bind]
        cases m.memory.writeWord w (vs.getLastD 0) <;> rfl
  | _ => exact .of_eq_map rfl

/-! ## Steps -/

section Steps

variable {p : Program} {m : Machine} {fr : Frame} {k : List Caller} {rest : List Instr}

/-- The operands of the next instruction can be read, or the step fails because the code has no
meaning. -/
theorem reads_or_failed (hc : fr.code = i :: rest) :
    (∃ vs, Reads m fr i.sources vs) ∨ ∃ e, step p ⟨m, fr, k⟩ = .failed e ∧ e.Void := by
  -- Whatever the instruction, the first operand that cannot be read ends the step.
  cases i with
  | binary dst op lhs rhs | compare dst cond lhs rhs | branch cond lhs rhs t e =>
    cases hl : value m fr lhs with
    | error e => exact .inr ⟨e, by simp [step, hc, compute, value_withCode, hl]; rfl, value_error hl⟩
    | ok l =>
      cases hr : value m fr rhs with
      | error e =>
        exact .inr ⟨e, by simp [step, hc, compute, value_withCode, hl, hr]; rfl, value_error hr⟩
      | ok r => exact .inl ⟨[l, r], reads_two.2 ⟨l, r, hl, hr, rfl⟩⟩
  | unary dst op src | move dst src | push src =>
    cases hw : value m fr src with
    | error e => exact .inr ⟨e, by simp [step, hc, compute, value_withCode, hw]; rfl, value_error hw⟩
    | ok w => exact .inl ⟨[w], reads_one.2 ⟨w, hw, rfl⟩⟩
  | load dst a =>
    cases a with
    | base b offset =>
      cases hw : value m fr b with
      | error e =>
        refine .inr ⟨e, ?_, value_error hw⟩
        simp [step, hc, compute, load, address, value_withCode, hw]
        rfl
      | ok w => exact .inl ⟨[w], reads_one.2 ⟨w, hw, rfl⟩⟩
    | static | slot | incoming => exact .inl ⟨[], reads_nil.2 rfl⟩
  | store a src =>
    cases hv : value m fr src with
    | error e => exact .inr ⟨e, by simp [step, hc, compute, value_withCode, hv]; rfl, value_error hv⟩
    | ok v =>
      cases a with
      | base b offset =>
        cases hw : value m fr b with
        | error e =>
          refine .inr ⟨e, ?_, value_error hw⟩
          simp [step, hc, compute, store, address, value_withCode, hv, hw]
          rfl
        | ok w => exact .inl ⟨[w, v], reads_two.2 ⟨w, v, hw, hv, rfl⟩⟩
      | static | slot | incoming => exact .inl ⟨[v], reads_one.2 ⟨v, hv, rfl⟩⟩
  | call dst callee args n =>
    cases hvs : args.mapM (value m fr) with
    | error e =>
      obtain ⟨o, _, ho⟩ := mapM_eq_error hvs
      rw [← mapM_withCode m fr rest] at hvs
      exact .inr ⟨e, by simp [step, hc, stepCall, hvs]; rfl, value_error ho⟩
    | ok vs => exact .inl ⟨vs, reads_iff.2 hvs⟩
  | jump b => exact .inl ⟨[], reads_nil.2 rfl⟩
  | ret v =>
    cases v with
    | none => exact .inl ⟨[], reads_nil.2 rfl⟩
    | some v =>
      cases hw : value m fr v with
      | error e =>
        exact .inr ⟨e, by simp [step, hc, stepReturn, value_withCode, hw], value_error hw⟩
      | ok w => exact .inl ⟨[w], reads_one.2 ⟨w, hw, rfl⟩⟩

/-- A step is answered if it is for an instruction whose operands can be read. -/
theorem Answers.of_reads {q : Program} {R : Config → Config → Prop} {d : Config}
    (h : ∀ i rest vs, fr.code = i :: rest → Reads m fr i.sources vs →
      Answers q R d (step p ⟨m, fr, k⟩)) : Answers q R d (step p ⟨m, fr, k⟩) := by
  cases hcode : fr.code with
  | nil =>
    have hstep : step p ⟨m, fr, k⟩ = .failed (.unsupported (.unterminated fr.block)) := by
      simp only [step, hcode]
    rw [hstep]
    exact .failed_of_not_definite not_false
  | cons i rest =>
    obtain ⟨vs, hreads⟩ | ⟨e, he, hd⟩ := reads_or_failed (p := p) (m := m) (k := k) hcode
    · exact h i rest vs hcode hreads
    · rw [he]
      exact .failed_of_not_definite hd.not_definite

theorem step_eq_compute (hcode : fr.code = i :: rest) (hi : IsSimple i) :
    step p ⟨m, fr, k⟩ = .ofExcept (do
      let (m', fr') ← compute m { fr with code := rest } i
      return ⟨m', fr', k⟩) := by
  simp only [step, hcode]
  cases i with
  | call => exact absurd hi.2 (by simp [Instr.isCall])
  | jump | branch | ret => exact absurd hi.1 (by simp [Instr.isTerminator])
  | _ => rfl

theorem step_simple (hc : fr.code = i :: rest) (hi : IsSimple i) (hr : Reads m fr i.sources vs) :
    step p ⟨m, fr, k⟩ = .ofExcept (do
      let a ← act m fr i vs
      let (m', fr') ← a.apply m { fr with code := rest }
      return ⟨m', fr', k⟩) := by
  have hr' : Reads m { fr with code := rest } i.sources vs := by
    simpa only [Reads, value_withCode] using hr
  rw [step_eq_compute hc hi, compute_eq_act hi hr', bind_assoc]
  rfl

theorem step_jump {b : BlockId} (hc : fr.code = .jump b :: rest) :
    step p ⟨m, fr, k⟩ = .running ⟨m, fr.goto b, k⟩ := by
  simp only [step, hc]
  rfl

theorem step_branch {cond : CmpOp} {lhs rhs : Operand} {t e : BlockId} {l r : Word}
    (hc : fr.code = .branch cond lhs rhs t e :: rest) (hl : value m fr lhs = .ok l)
    (hr : value m fr rhs = .ok r) :
    step p ⟨m, fr, k⟩ =
      .running ⟨m, fr.goto (if cond.eval l r then t else e), k⟩ := by
  simp only [step, hc, value_withCode, hl, hr]
  rfl

theorem step_ret {v : Option Operand} (hc : fr.code = .ret v :: rest)
    (hr : Reads m fr v.toList vs) :
    step p ⟨m, fr, k⟩ =
      match k with
      | [] => .finished (vs.getD 0 0) m
      | caller :: callers =>
        .ofExcept do
          let (m', fr') ← finishCall { m with regs := m.regs.setMany caller.saved } caller.frame
            caller.dst (vs.getD 0 0)
          return ⟨m', fr', callers⟩ := by
  cases v with
  | none =>
    cases reads_nil.1 hr
    simp only [step, hc, stepReturn]
    rfl
  | some v =>
    obtain ⟨w, hw, rfl⟩ := reads_one.1 hr
    simp only [step, hc, stepReturn, Option.elim, value_withCode, hw]
    rfl

theorem step_call_builtin {b : Builtin} {args : List Operand} {n : Nat}
    (hc : fr.code = .call dst (.builtin b) args n :: rest) (hr : Reads m fr args vs) :
    step p ⟨m, fr, k⟩ = .ofExcept (do
      let (w, m') ← m.callBuiltin b (vs ++ fr.pushed)
      let (m', fr') ← finishCall m' { fr with code := rest, pushed := [] } dst w
      return ⟨m', fr', k⟩) := by
  simp only [step, hc, stepCall, mapM_withCode, reads_iff.1 hr]
  rfl

/-- The registers that a call preserves, as the caller keeps them. -/
def savedRegs (m : Machine) : List (PhysReg × Option Word) :=
  PhysReg.calleeSaved.map fun r => (r, m.regs.get r)

theorem step_call_func {id : FuncId} {args : List Operand} {n : Nat}
    (hc : fr.code = .call dst (.func id) args n :: rest) (hr : Reads m fr args vs) :
    step p ⟨m, fr, k⟩ =
      if maxDepth ≤ k.length + 1 then .failed .stackOverflow
      else match p.functions[id]? with
        | none => .failed (.unsupported (.function id))
        | some f => .running ⟨m.passArgs (vs ++ fr.pushed), .enter f (vs ++ fr.pushed),
            ⟨{ fr with code := rest, pushed := [] }, dst, savedRegs m⟩ :: k⟩ := by
  simp only [step, hc, stepCall, mapM_withCode, reads_iff.1 hr]
  split
  · rfl
  · cases p.functions[id]? <;> rfl

/-! ## Steps of two programs -/

section Both

variable {q : Program} {R : Config → Config → Prop} {d : Config} {m' : Machine} {fr' : Frame}
  {k' : List Caller} {j : Instr} {rest' : List Instr} {vs' : List Word} {dst' : Option Operand}
  {args args' : List Operand} {n n' : Nat}

theorem Answers.of_lifts {x y : Except RunError Config} (h : Lifts R x y)
    (hd : step q d = .ofExcept y) : Answers q R d (.ofExcept x) := by
  cases x with
  | error e =>
    intro he
    rw [h.2 e he rfl] at hd
    exact ⟨d, .refl, hd⟩
  | ok c =>
    obtain ⟨d', rfl, hr⟩ := h.1 c rfl
    exact ⟨d', .one hd, hr⟩

theorem Answers.later {x : Progress}
    (h : Answers q (fun c d => ∃ d', Steps q d d' ∧ R c d') d x) : Answers q R d x := by
  cases x with
  | running c =>
    obtain ⟨d1, hd1, d2, hd2, hr⟩ := h
    exact ⟨d2, hd1.trans hd2, hr⟩
  | finished | failed => exact h

theorem Answers.simple {P : Action → Action → Prop} (hc : fr.code = i :: rest) (hi : IsSimple i)
    (hr : Reads m fr i.sources vs) (hc' : fr'.code = j :: rest') (hj : IsSimple j)
    (hr' : Reads m' fr' j.sources vs') (hact : Lifts P (act m fr i vs) (act m' fr' j vs'))
    (happly : ∀ a b m1 fr1, act m fr i vs = .ok a → P a b →
      a.apply m { fr with code := rest } = .ok (m1, fr1) → ∃ y,
        b.apply m' { fr' with code := rest' } = .ok y ∧ R ⟨m1, fr1, k⟩ ⟨y.1, y.2, k'⟩) :
    Answers q R ⟨m', fr', k'⟩ (step p ⟨m, fr, k⟩) := by
  rw [step_simple hc hi hr]
  refine .of_lifts (hact.bind fun a b ha _ hab => ?_) (step_simple hc' hj hr')
  have happlied : Lifts (fun x y => R ⟨x.1, x.2, k⟩ ⟨y.1, y.2, k'⟩)
      (a.apply m { fr with code := rest }) (b.apply m' { fr' with code := rest' }) :=
    .of_void (fun e he => Action.apply_error he) fun x hx => happly a b x.1 x.2 ha hab hx
  exact happlied.bind fun x y _ _ hxy => .ok hxy

theorem Answers.builtin {b : Builtin} (hc : fr.code = .call dst (.builtin b) args n :: rest)
    (hr : Reads m fr args vs) (hc' : fr'.code = .call dst' (.builtin b) args' n' :: rest')
    (hr' : Reads m' fr' args' vs') {T : Machine → Machine}
    (hcall : m'.callBuiltin b (vs' ++ fr'.pushed) =
      (m.callBuiltin b (vs ++ fr.pushed)).map fun x => (x.1, T x.2))
    (h : ∀ w m1, Lifts (fun x y => R ⟨x.1, x.2, k⟩ ⟨y.1, y.2, k'⟩)
      (finishCall m1 { fr with code := rest, pushed := [] } dst w)
      (finishCall (T m1) { fr' with code := rest', pushed := [] } dst' w)) :
    Answers q R ⟨m', fr', k'⟩ (step p ⟨m, fr, k⟩) := by
  rw [step_call_builtin hc hr]
  refine .of_lifts ((Lifts.of_eq_map hcall).bind fun x y _ _ hxy => ?_) (step_call_builtin hc' hr')
  rw [hxy]
  exact (h x.1 x.2).bind fun x y _ _ hxy => .ok hxy

theorem Answers.call {id : FuncId} (hc : fr.code = .call dst (.func id) args n :: rest)
    (hr : Reads m fr args vs) (hc' : fr'.code = .call dst' (.func id) args' n' :: rest')
    (hr' : Reads m' fr' args' vs') (hk : k'.length = k.length)
    (h : ∀ f, p.functions[id]? = some f → ∃ g, q.functions[id]? = some g ∧
      R ⟨m.passArgs (vs ++ fr.pushed), .enter f (vs ++ fr.pushed),
          ⟨{ fr with code := rest, pushed := [] }, dst, savedRegs m⟩ :: k⟩
        ⟨m'.passArgs (vs' ++ fr'.pushed), .enter g (vs' ++ fr'.pushed),
          ⟨{ fr' with code := rest', pushed := [] }, dst', savedRegs m'⟩ :: k'⟩) :
    Answers q R ⟨m', fr', k'⟩ (step p ⟨m, fr, k⟩) := by
  have hstep := step_call_func (p := q) (k := k') hc' hr'
  rw [hk] at hstep
  rw [step_call_func hc hr]
  split at hstep
  · next hdepth =>
    rw [if_pos hdepth]
    exact fun _ => ⟨_, .refl, hstep⟩
  · next hdepth =>
    rw [if_neg hdepth]
    cases hf : p.functions[id]? with
    | none => exact .failed_of_not_definite not_false
    | some f =>
      obtain ⟨g, hg, hrel⟩ := h f hf
      rw [hg] at hstep
      exact ⟨_, .one hstep, hrel⟩

theorem Answers.ret {C : Caller → Caller → Prop} {v v' : Option Operand}
    (hc : fr.code = .ret v :: rest) (hr : Reads m fr v.toList vs) (hc' : fr'.code = .ret v' :: rest')
    (hr' : Reads m' fr' v'.toList vs') (hw : vs'.getD 0 0 = vs.getD 0 0)
    (hout : m'.output = m.output) (hk : List.Forall₂ C k k')
    (h : ∀ cl cl' k k', C cl cl' → List.Forall₂ C k k' →
      Lifts (fun x y => R ⟨x.1, x.2, k⟩ ⟨y.1, y.2, k'⟩)
        (finishCall { m with regs := m.regs.setMany cl.saved } cl.frame cl.dst (vs.getD 0 0))
        (finishCall { m' with regs := m'.regs.setMany cl'.saved } cl'.frame cl'.dst (vs.getD 0 0))) :
    Answers q R ⟨m', fr', k'⟩ (step p ⟨m, fr, k⟩) := by
  have hstep := step_ret (p := q) (k := k') hc' hr'
  rw [hw] at hstep
  rw [step_ret hc hr]
  cases hk with
  | nil => exact ⟨_, m', .refl, hstep, hout⟩
  | cons hcl hk => exact .of_lifts ((h _ _ _ _ hcl hk).bind fun x y _ _ hxy => .ok hxy) hstep

end Both

/-! ## Steps that go on -/

theorem ofExcept_eq_running {x : Except RunError Config} {d : Config}
    (h : Progress.ofExcept x = .running d) : x = .ok d := by
  cases x with
  | error => cases h
  | ok c =>
    cases h
    rfl

/-- The ways in which an instruction goes on to another configuration. -/
inductive Goes (p : Program) (m : Machine) (fr : Frame) (rest : List Instr) :
    List Caller → Instr → Config → Prop
  | action {k : List Caller} {i : Instr} {vs : List Word} {a : Action} {m' : Machine} {fr' : Frame}
      (hi : IsSimple i) (hact : act m fr i vs = .ok a)
      (happly : a.apply m { fr with code := rest } = .ok (m', fr')) :
      Goes p m fr rest k i ⟨m', fr', k⟩
  | jump {k : List Caller} {t : BlockId} : Goes p m fr rest k (.jump t) ⟨m, fr.goto t, k⟩
  | branch {k : List Caller} {cond : CmpOp} {lhs rhs : Operand} {t e : BlockId} {l r : Word}
      (hl : value m fr lhs = .ok l) (hr : value m fr rhs = .ok r) :
      Goes p m fr rest k (.branch cond lhs rhs t e)
        ⟨m, fr.goto (if cond.eval l r then t else e), k⟩
  | ret {caller : Caller} {k : List Caller} {v : Option Operand} {w : Word} {m' : Machine}
      {fr' : Frame} (hfin : finishCall { m with regs := m.regs.setMany caller.saved } caller.frame
        caller.dst w = .ok (m', fr')) : Goes p m fr rest (caller :: k) (.ret v) ⟨m', fr', k⟩
  | builtin {k : List Caller} {dst : Option Operand} {b : Builtin} {args : List Operand} {n : Nat}
      {vs : List Word} {w : Word} {m1 m' : Machine} {fr' : Frame} (hb : m.callBuiltin b vs = .ok (w, m1))
      (hfin : finishCall m1 { fr with code := rest, pushed := [] } dst w = .ok (m', fr')) :
      Goes p m fr rest k (.call dst (.builtin b) args n) ⟨m', fr', k⟩
  | enter {k : List Caller} {dst : Option Operand} {id : FuncId} {args : List Operand} {n : Nat}
      {vs : List Word} {f : Func} (hf : p.functions[id]? = some f) :
      Goes p m fr rest k (.call dst (.func id) args n) ⟨m.passArgs vs, .enter f vs,
        ⟨{ fr with code := rest, pushed := [] }, dst, savedRegs m⟩ :: k⟩

theorem goes {d : Config} (h : step p ⟨m, fr, k⟩ = .running d) :
    ∃ i rest, fr.code = i :: rest ∧ Goes p m fr rest k i d := by
  cases hcode : fr.code with
  | nil =>
    simp only [step, hcode] at h
    cases h
  | cons i rest =>
    refine ⟨i, rest, rfl, ?_⟩
    obtain ⟨vs, hreads⟩ | ⟨e, he, -⟩ := reads_or_failed (p := p) (m := m) (k := k) hcode
    swap
    · rw [he] at h
      cases h
    by_cases hi : IsSimple i
    · rw [step_simple hcode hi hreads] at h
      obtain ⟨a, hact, h⟩ := Except.bind_eq_ok.1 (ofExcept_eq_running h)
      obtain ⟨⟨m', fr'⟩, happly, h⟩ := Except.bind_eq_ok.1 h
      cases h
      exact .action hi hact happly
    cases i with
    | jump t =>
      rw [step_jump hcode] at h
      cases h
      exact .jump
    | branch cond lhs rhs t e =>
      obtain ⟨l, r, hl, hr, rfl⟩ := reads_two.1 hreads
      rw [step_branch hcode hl hr] at h
      cases h
      exact .branch hl hr
    | ret v =>
      rw [step_ret hcode hreads] at h
      cases k with
      | nil => cases h
      | cons caller k =>
        obtain ⟨⟨m', fr'⟩, hfin, h⟩ := Except.bind_eq_ok.1 (ofExcept_eq_running h)
        cases h
        exact .ret hfin
    | call dst callee args n =>
      cases callee with
      | builtin b =>
        rw [step_call_builtin hcode hreads] at h
        obtain ⟨⟨w, m1⟩, hb, h⟩ := Except.bind_eq_ok.1 (ofExcept_eq_running h)
        obtain ⟨⟨m', fr'⟩, hfin, h⟩ := Except.bind_eq_ok.1 h
        cases h
        exact .builtin hb hfin
      | func id =>
        rw [step_call_func hcode hreads] at h
        split at h
        · cases h
        · split at h
          · cases h
          · next hf =>
            cases h
            exact .enter hf
    | _ => exact absurd ⟨rfl, rfl⟩ hi

/-! ## Steps that fail -/

theorem place_error (h : place m a vs = .error e) : e.Void := by
  cases a with
  | base b offset => cases h
  | static s =>
    simp only [place, Machine.staticAddress] at h
    split at h
    · cases h
    · cases h
      exact trivial
  | slot k => cases h; exact trivial
  | incoming k => cases h; exact trivial

/-- An error that a program with a meaning can end in, an overflow only where that is checked for. -/
def RunError.DefiniteIf (checks : Bool) (e : RunError) : Prop :=
  e.Definite ∧ (e = .overflow → checks = true)

theorem definiteIf_readWord {a : Word} (checks : Bool) (h : mem.readWord a = .error e) :
    e.DefiniteIf checks :=
  Memory.readWord_error h ▸ ⟨trivial, nofun⟩

theorem definiteIf_writeWord {a : Word} (checks : Bool) (h : mem.writeWord a w = .error e) :
    e.DefiniteIf checks := by
  obtain h | ⟨n, -, h⟩ := Except.bind_eq_error.1 h
  · exact Memory.place_error (by decide) h ▸ ⟨trivial, nofun⟩
  · cases h

theorem RunError.OfRoutine.definiteIf {checks : Bool} (h : e.OfRoutine checks) : e.DefiniteIf checks := by
  cases e with
  | outOfBounds => exact ⟨trivial, nofun⟩
  | overflow => exact ⟨trivial, fun _ => h⟩
  | _ => exact h.elim

/-- Acting fails for want of meaning, or with an error that a program with a meaning can end in, or
because a slot was not written. -/
theorem act_error (hi : IsSimple i) (h : act m fr i vs = .error e) :
    e.DefiniteIf m.checks ∨ e.Void ∨ e ≠ .overflow ∧ ∃ dst s, i = .load dst (.slot s) := by
  cases i with
  | binary dst op lhs rhs =>
    simp only [act, actBinary] at h
    split at h
    · split at h <;> cases h
      exact .inl ⟨trivial, nofun⟩
    · split at h <;> cases h
      exact .inl ⟨trivial, nofun⟩
  | load dst a =>
    have hload : ∀ x : Except RunError Word, (∀ e, x = .error e → e.Void) →
        (do return Action.write dst (← m.memory.readWord (← x))) = .error e →
          e.DefiniteIf m.checks ∨ e.Void := by
      intro x hx h
      obtain h | ⟨w, -, h⟩ := Except.bind_eq_error.1 h
      · exact .inr (hx e h)
      · obtain h | ⟨w', -, h⟩ := Except.bind_eq_error.1 h
        · exact .inl (definiteIf_readWord _ h)
        · cases h
    cases a with
    | slot s =>
      simp only [act, actLoad] at h
      split at h <;> cases h
      exact .inr (.inr ⟨nofun, dst, s, rfl⟩)
    | incoming n =>
      simp only [act, actLoad] at h
      split at h <;> cases h
      exact .inr (.inl trivial)
    | base b offset | static s => exact (hload _ (fun e => place_error) h).imp_right .inl
  | store a src =>
    cases a with
    | slot s => cases h
    | base | static | incoming =>
      obtain h | ⟨w, -, h⟩ := Except.bind_eq_error.1 h
      · exact .inr (.inl (place_error h))
      · obtain h | ⟨mem, -, h⟩ := Except.bind_eq_error.1 h
        · exact .inl (definiteIf_writeWord _ h)
        · cases h
  | unary | compare | move | push => cases h
  | call => simp [IsSimple, Instr.isCall] at hi
  | jump | branch | ret => simp [IsSimple, Instr.isTerminator] at hi

theorem finishCall_error (h : finishCall m fr dst w = .error e) : e.Void := by
  cases dst with
  | none => cases h
  | some d => exact Action.apply_error (a := .write d w) h

theorem step_failed (h : step p ⟨m, fr, k⟩ = .failed e) :
    e.DefiniteIf m.checks ∨ e.Void ∨
      e ≠ .overflow ∧ ∃ dst s rest, fr.code = .load dst (.slot s) :: rest := by
  have hofExcept : ∀ {x : Except RunError Config}, Progress.ofExcept x = .failed e →
      x = .error e := by
    intro x hx
    cases x with
    | error e' => cases hx; rfl
    | ok c => cases hx
  cases hcode : fr.code with
  | nil =>
    simp only [step, hcode] at h
    cases h
    exact .inr (.inl trivial)
  | cons i rest =>
    obtain ⟨vs, hreads⟩ | ⟨e', he, hvoid⟩ := reads_or_failed (p := p) (m := m) (k := k) hcode
    swap
    · rw [he] at h
      cases h
      exact .inr (.inl hvoid)
    by_cases hi : IsSimple i
    · rw [step_simple hcode hi hreads] at h
      obtain h | ⟨a, -, h⟩ := Except.bind_eq_error.1 (hofExcept h)
      · obtain h | h | ⟨hne, dst, s, rfl⟩ := act_error hi h
        · exact .inl h
        · exact .inr (.inl h)
        · exact .inr (.inr ⟨hne, dst, s, rest, rfl⟩)
      · obtain h | ⟨x, -, h⟩ := Except.bind_eq_error.1 h
        · exact .inr (.inl (Action.apply_error h))
        · cases h
    cases i with
    | jump b =>
      rw [step_jump hcode] at h
      cases h
    | branch cond lhs rhs t f =>
      obtain ⟨l, r, hl, hr, rfl⟩ := reads_two.1 hreads
      rw [step_branch hcode hl hr] at h
      cases h
    | ret v =>
      rw [step_ret hcode hreads] at h
      split at h
      · cases h
      · obtain h | ⟨x, -, h⟩ := Except.bind_eq_error.1 (hofExcept h)
        · exact .inr (.inl (finishCall_error h))
        · cases h
    | call dst callee args n =>
      cases callee with
      | builtin b =>
        rw [step_call_builtin hcode hreads] at h
        obtain h | ⟨x, -, h⟩ := Except.bind_eq_error.1 (hofExcept h)
        · exact .inl (callBuiltin_error h).definiteIf
        · obtain h | ⟨y, -, h⟩ := Except.bind_eq_error.1 h
          · exact .inr (.inl (finishCall_error h))
          · cases h
      | func id =>
        rw [step_call_func hcode hreads] at h
        split at h
        · cases h
          exact .inl ⟨trivial, by simp⟩
        · split at h
          · cases h
            exact .inr (.inl trivial)
          · cases h
    | _ => exact absurd ⟨rfl, rfl⟩ hi

end Steps

end MxStar.Interp
