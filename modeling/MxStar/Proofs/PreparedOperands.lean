import MxStar.Proofs.ConventionCode

/-!
Running the code that prepares operands.

The code of `ConventionCode` puts values into registers of its own before the instruction that needs them
there. Registers below these are kept (`Kept`), so an operand that is prepared still has its value when the
next one is.
-/
namespace MxStar.Interp

open IR

/-- The frame after some code, which may have changed virtual registers. -/
abbrev Frame.after (fr : Frame) (regs : Array (Option Word)) (rest : List Instr) : Frame :=
  { fr with regs := regs, code := rest }

theorem Frame.after_self {fr : Frame} {rest : List Instr} (h : fr.code = rest) :
    fr.after fr.regs rest = fr := by
  rw [← h]

end MxStar.Interp

namespace MxStar.Alloc

open IR Interp List

variable {o : Operand} {ws : List Word} {w x : Word} {op : BinOp}

/-! ## Registers that are kept -/

/-- The registers below a number are the same. -/
structure Kept (n : Nat) (regs regs' : Array (Option Word)) : Prop where
  size : regs'.size = regs.size
  same : ∀ v, v < n → (regs'[v]?).join = (regs[v]?).join

namespace Kept

variable {n : Nat} {regs regs' regs'' : Array (Option Word)}

theorem refl (n : Nat) (regs : Array (Option Word)) : Kept n regs regs := ⟨rfl, fun _ _ => rfl⟩

theorem trans (h : Kept n regs regs') (h' : Kept n regs' regs'') : Kept n regs regs'' :=
  ⟨h'.size.trans h.size, fun v hv => (h'.same v hv).trans (h.same v hv)⟩

theorem mono {n' : Nat} (hn : n' ≤ n) (h : Kept n regs regs') : Kept n' regs regs' :=
  ⟨h.size, fun v hv => h.same v (Nat.lt_of_lt_of_le hv hn)⟩

theorem set {t : VReg} (ht : n ≤ t) (w : Word) (regs : Array (Option Word)) :
    Kept n regs (regs.setIfInBounds t (some w)) := by
  refine ⟨Array.size_setIfInBounds, fun v hv => ?_⟩
  rw [Array.getElem?_setIfInBounds_ne (Nat.ne_of_gt (Nat.lt_of_lt_of_le hv ht))]

end Kept

def Below (n : Nat) (o : Operand) : Prop := ∀ v, o = .vreg v → v < n

theorem Below.mono {n n' : Nat} (hn : n ≤ n') (h : Below n o) : Below n' o :=
  fun v hv => Nat.lt_of_lt_of_le (h v hv) hn

theorem value_kept {n : Nat} {m : Machine} {fr fr' : Frame} (hregs : Kept n fr.regs fr'.regs)
    (ho : Below n o) (hw : value m fr o = .ok w) : value m fr' o = .ok w := by
  cases o with
  | vreg v =>
    rw [value_vreg] at hw ⊢
    exact (hregs.same v (ho v rfl)).trans hw
  | phys p => exact value_phys.2 (value_phys.1 hw)
  | imm x => exact hw
  | static s => exact hw

/-! ## Single steps -/

section Steps

variable {p : Program} {m : Machine} {fr : Frame} {k : List Caller} {rest : List Instr} {v : Operand}
  {w : Word}

theorem step_move {t : VReg} (hc : fr.code = .move (.vreg t) v :: rest) (hv : value m fr v = .ok w)
    (ht : t < fr.regs.size) : step p ⟨m, fr, k⟩ = .running
      ⟨m, fr.after (fr.regs.setIfInBounds t (some w)) rest, k⟩ := by
  rw [step_simple hc ⟨rfl, rfl⟩ (reads_one.2 ⟨w, hv, rfl⟩)]
  simp only [act, Except.ok_bind, Action.apply, assign, if_pos ht, getD_cons_zero]
  rfl

theorem step_move_phys {r : PhysReg} (hc : fr.code = .move (.phys r) v :: rest)
    (hv : value m fr v = .ok w) : step p ⟨m, fr, k⟩ = .running
      ⟨m.withRegs (m.regs.set r (some w)), { fr with code := rest }, k⟩ := by
  rw [step_simple hc ⟨rfl, rfl⟩ (reads_one.2 ⟨w, hv, rfl⟩)]
  rfl

theorem step_push (hc : fr.code = .push v :: rest) (hv : value m fr v = .ok w) :
    step p ⟨m, fr, k⟩ = .running ⟨m, { fr with pushed := w :: fr.pushed, code := rest }, k⟩ := by
  rw [step_simple hc ⟨rfl, rfl⟩ (reads_one.2 ⟨w, hv, rfl⟩)]
  rfl

theorem step_add {t : VReg} {l : Word} (hc : fr.code = .binary (.vreg t) .add (.vreg t) v :: rest)
    (ht : fr.reg t = some l) (hv : value m fr v = .ok w) (hlt : t < fr.regs.size) :
    step p ⟨m, fr, k⟩ = .running
      ⟨m, fr.after (fr.regs.setIfInBounds t (some (l + w))) rest, k⟩ := by
  rw [step_simple hc ⟨rfl, rfl⟩ (reads_two.2 ⟨l, w, value_vreg.2 ht, hv, rfl⟩)]
  change Progress.ofExcept ((if t < fr.regs.size then _ else _) >>= _) = _
  rw [if_pos hlt]
  rfl

theorem step_divide (hop : op = .div ∨ op = .mod) {divisor : Operand} {y : Word}
    (hc : fr.code = .binary (.phys (divisionResult op)) op (.phys .rax) divisor :: rest)
    (hx : value m fr (.phys .rax) = .ok x) (hy : value m fr divisor = .ok y) :
    step p ⟨m, fr, k⟩ = match op.eval x y with
      | none => .failed .divisionByZero
      | some w => .running ⟨m.withRegs (((m.regs.set .rax (some (x / y))).set .rdx
          (some (x % y))).set (divisionResult op) (some w)), { fr with code := rest }, k⟩ := by
  rw [step_simple hc ⟨rfl, rfl⟩ (reads_two.2 ⟨x, y, hx, hy, rfl⟩)]
  by_cases hy0 : y = 0
  · rcases hop with rfl | rfl <;> simp [act, actBinary, BinOp.eval, hy0] <;> rfl
  · rcases hop with rfl | rfl <;> simp [act, actBinary, BinOp.eval, hy0] <;> rfl

theorem act_divide (hop : op = .div ∨ op = .mod) {dst : Operand} (hdst : NoPhys dst)
    (lhs rhs : Operand) (x y : Word) :
    (act m fr (.binary dst op lhs rhs) [x, y] >>= fun a => a.apply m { fr with code := rest }) =
      match op.eval x y with
      | none => .error .divisionByZero
      | some w => assign m { fr with code := rest } dst w := by
  have happly : ∀ quot rem : Word,
      (Action.divide dst op quot rem).apply m { fr with code := rest } =
        assign m { fr with code := rest } dst (if op = .div then quot else rem) := by
    intro quot rem
    cases dst with
    | phys r => exact absurd rfl (hdst r)
    | _ => rfl
  by_cases hy0 : y = 0
  · rcases hop with rfl | rfl <;> simp [act, actBinary, BinOp.eval, hy0]
  · rcases hop with rfl | rfl <;> simp [act, actBinary, BinOp.eval, hy0, happly]

end Steps

/-! ## Preparing operands -/

theorem Prepares.noPhys {P : Operand → Prop} {lo hi : Nat} {v : Operand} {pre : List Instr}
    (h : Prepares P lo hi v o pre) (hv : NoPhys v) : NoPhys o := by
  cases h with
  | keep => exact hv
  | temp => exact noPhys_vreg _

section Prepare

variable {q : Program} {m : Machine} {fr : Frame} {k : List Caller} {lo hi : Nat}
  {pre rest : List Instr}

theorem steps_prepare {P : Operand → Prop} {v : Operand} (h : Prepares P lo hi v o pre)
    (hv : Below lo v) (hlo : lo ≤ hi) (hhi : hi ≤ fr.regs.size) (hw : value m fr v = .ok w)
    (hcode : fr.code = pre ++ rest) :
    ∃ regs, Steps q ⟨m, fr, k⟩ ⟨m, fr.after regs rest, k⟩ ∧ Kept lo fr.regs regs ∧
      value m (fr.after regs rest) o = .ok w ∧ Below hi o := by
  cases h with
  | keep =>
    rw [nil_append] at hcode
    refine ⟨fr.regs, ?_, .refl _ _, ?_, hv.mono hlo⟩
    · rw [Frame.after_self hcode]
    · rw [Frame.after_self hcode]
      exact hw
  | temp hlt hlt' hneed =>
    rename_i t
    have ht : t < fr.regs.size := Nat.lt_of_lt_of_le hlt' hhi
    refine ⟨_, Steps.one (step_move hcode hw ht), .set hlt w fr.regs, ?_, ?_⟩
    · rw [value_vreg]
      exact (join_setIfInBounds _ _ _ _ ht).trans (if_pos rfl)
    · rintro u ⟨⟩
      exact hlt'

theorem steps_prepareAddress {a a' : Address} (h : PreparesAddress lo hi a a' pre)
    (ha : ∀ o ∈ a.operands, Below lo o) (hlo : lo ≤ hi) (hhi : hi ≤ fr.regs.size)
    (hws : Reads m fr a.operands ws) (hcode : fr.code = pre ++ rest) :
    ∃ regs ws', Steps q ⟨m, fr, k⟩ ⟨m, fr.after regs rest, k⟩ ∧ Kept lo fr.regs regs ∧
      Reads m (fr.after regs rest) a'.operands ws' ∧ place m a' ws' = place m a ws := by
  cases h with
  | near _ hbase =>
    obtain ⟨w, hw, rfl⟩ := reads_one.1 hws
    obtain ⟨regs, hsteps, hkept, hw', -⟩ := steps_prepare (q := q) (k := k) hbase
      (ha _ mem_cons_self) hlo hhi hw hcode
    exact ⟨regs, [w], hsteps, hkept, reads_one.2 ⟨w, hw', rfl⟩, rfl⟩
  | far hlt hmid hle hbase =>
    rename_i b b' offset pre t mid
    obtain ⟨w, hw, rfl⟩ := reads_one.1 hws
    have ht : t < fr.regs.size := Nat.lt_of_lt_of_le (Nat.lt_of_lt_of_le hmid hle) hhi
    rw [cons_append, cons_append, append_assoc] at hcode
    -- The offset goes to the new register first, then the base is prepared and added to it.
    have hkept1 := Kept.set hlt offset fr.regs
    have hb := ha b mem_cons_self
    let fr1 := fr.after (fr.regs.setIfInBounds t (some offset))
      (pre ++ ([.binary (.vreg t) .add (.vreg t) b'] ++ rest))
    have hcode1 : fr1.code = pre ++ ([.binary (.vreg t) .add (.vreg t) b'] ++ rest) := rfl
    have hw1 : value m fr1 b = .ok w := value_kept hkept1 hb hw
    obtain ⟨regs, hsteps, hkept, hw', -⟩ := steps_prepare (q := q) (k := k) hbase
      (hb.mono (Nat.le_trans hlt (Nat.le_of_lt hmid))) hle (hkept1.size ▸ hhi) hw1 hcode1
    have ht' : t < regs.size := by
      rw [hkept.size]
      exact hkept1.size ▸ ht
    have hoffset : (regs[t]?).join = some offset := by
      rw [hkept.same t hmid]
      exact (join_setIfInBounds _ _ _ _ ht).trans (if_pos rfl)
    refine ⟨regs.setIfInBounds t (some (offset + w)), [offset + w], ?_, ?_, ?_, ?_⟩
    · refine Steps.cons (step_move hcode rfl ht) (hsteps.tail ?_)
      exact step_add rfl hoffset hw' ht'
    · exact (hkept1.trans (hkept.mono (Nat.le_trans hlt (Nat.le_of_lt hmid)))).trans (.set hlt _ _)
    · refine reads_one.2 ⟨_, value_vreg.2 ?_, rfl⟩
      exact (join_setIfInBounds _ _ _ _ ht').trans (if_pos rfl)
    · change Except.ok (offset + w + 0) = Except.ok (w + offset)
      rw [Int64.add_zero, Int64.add_comm]
  | fixed h =>
    rw [nil_append] at hcode
    refine ⟨fr.regs, ws, ?_, .refl _ _, ?_, rfl⟩
    · rw [Frame.after_self hcode]
    · rw [Frame.after_self hcode]
      exact hws

theorem CmpOp.eval_swap (c : CmpOp) (l r : Word) : c.swap.eval r l = c.eval l r := by
  cases c with
  | eq => exact Bool.beq_comm
  | ne => exact bne_comm
  | _ => rfl

theorem steps_prepareComparison {cond c : CmpOp} {lhs rhs l r : Operand}
    (h : PreparesComparison lo hi cond lhs rhs c l r pre) (hl : Below lo lhs) (hr : Below lo rhs)
    (hhi : hi ≤ fr.regs.size) {y : Word} (hx : value m fr lhs = .ok x) (hy : value m fr rhs = .ok y)
    (hcode : fr.code = pre ++ rest) :
    ∃ regs x' y', Steps q ⟨m, fr, k⟩ ⟨m, fr.after regs rest, k⟩ ∧ Kept lo fr.regs regs ∧
      value m (fr.after regs rest) l = .ok x' ∧ value m (fr.after regs rest) r = .ok y' ∧
      c.eval x' y' = cond.eval x y := by
  cases h with
  | mk hswap hlo hle hleft hright =>
    rename_i l0 r0 pre1 pre2 mid
    obtain ⟨x', y', hx', hy', hl', hr', heval⟩ : ∃ x' y', value m fr l0 = .ok x' ∧
        value m fr r0 = .ok y' ∧ Below lo l0 ∧ Below lo r0 ∧ c.eval x' y' = cond.eval x y := by
      rcases hswap with ⟨rfl, rfl, rfl⟩ | ⟨rfl, rfl, rfl⟩
      · exact ⟨x, y, hx, hy, hl, hr, rfl⟩
      · exact ⟨y, x, hy, hx, hr, hl, CmpOp.eval_swap cond x y⟩
    rw [append_assoc] at hcode
    obtain ⟨regs1, hsteps1, hkept1, hx1, hbelow1⟩ := steps_prepare (q := q) (k := k) hleft hl' hlo
      (Nat.le_trans hle hhi) hx' hcode
    have hcode1 : (fr.after regs1 (pre2 ++ rest)).code = pre2 ++ rest := rfl
    have hy1 : value m (fr.after regs1 (pre2 ++ rest)) r0 = .ok y' := value_kept hkept1 hr' hy'
    obtain ⟨regs2, hsteps2, hkept2, hy2, -⟩ := steps_prepare (q := q) (k := k) hright
      (hr'.mono hlo) hle (hkept1.size ▸ hhi) hy1 hcode1
    exact ⟨regs2, x', y', hsteps1.trans hsteps2, hkept1.trans (hkept2.mono hlo),
      value_kept hkept2 hbelow1 hx1, hy2, heval⟩

theorem steps_pushes {args : List Operand} (h : Pushes hi lo args pre)
    (hargs : ∀ a ∈ args, Below lo a) (hhi : hi ≤ fr.regs.size) {ws : List Word}
    (hws : Reads m fr args ws) (hcode : fr.code = pre ++ rest) :
    ∃ regs, Steps q ⟨m, fr, k⟩
        ⟨m, { fr.after regs rest with pushed := ws.reverse ++ fr.pushed }, k⟩ ∧
      Kept lo fr.regs regs := by
  induction h generalizing fr ws with
  | nil =>
    rw [nil_append] at hcode
    cases reads_nil.1 hws
    refine ⟨fr.regs, ?_, .refl _ _⟩
    rw [← hcode]
    exact .refl
  | cons ha hlo hle hrest ih =>
    rename_i lo mid a a' args pre new
    cases hws with
    | cons hw hws =>
      rename_i w ws
      obtain ⟨hbelow, hargs⟩ := forall_mem_cons.1 hargs
      rw [append_assoc, cons_append] at hcode
      obtain ⟨regs1, hsteps1, hkept1, hw1, -⟩ := steps_prepare (q := q) (k := k) ha hbelow hlo
        (Nat.le_trans hle hhi) hw hcode
      let fr2 : Frame := { fr.after regs1 (new ++ rest) with pushed := w :: fr.pushed }
      have hws2 : Reads m fr2 args ws :=
        Reads.imp hws fun o ho x hx => value_kept hkept1 (hargs o ho) hx
      obtain ⟨regs2, hsteps2, hkept2⟩ := @ih fr2 (fun a ha => (hargs a ha).mono hlo)
        (hkept1.size ▸ hhi) ws hws2 rfl
      refine ⟨regs2, ?_, hkept1.trans (hkept2.mono hlo)⟩
      rw [reverse_cons, append_assoc]
      exact (hsteps1.tail (step_push rfl hw1)).trans hsteps2

theorem value_withRegs (ho : NoPhys o) (r : RegFile) :
    value (m.withRegs r) fr o = value m fr o := by
  cases o with
  | phys p => exact absurd rfl (ho p)
  | _ => rfl

/-- A shift in place, after a move to that place if the operand is elsewhere. -/
theorem steps_shift {v : VReg} {lhs count : Operand} {c : Word} (hop : op = .shl ∨ op = .shr)
    (hcode : fr.code = (if .vreg v ≠ lhs then [.move (.vreg v) lhs] else []) ++
      .binary (.vreg v) op (.vreg v) count :: rest) (hv : v < fr.regs.size)
    (hx : value m fr lhs = .ok x) (hcount : ∀ fr, value m fr count = .ok c)
    (heval : op.eval x c = some w) :
    Steps q ⟨m, fr, k⟩ ⟨m, fr.after (fr.regs.setIfInBounds v (some w)) rest, k⟩ := by
  -- Once the operand is in its place, the shift is one step.
  have hshift : ∀ fr1 : Frame, fr1.code = .binary (.vreg v) op (.vreg v) count :: rest →
      v < fr1.regs.size → fr1.reg v = some x →
      step q ⟨m, fr1, k⟩ =
        .running ⟨m, fr1.after (fr1.regs.setIfInBounds v (some w)) rest, k⟩ := by
    intro fr1 hcode1 hv1 hx1
    rw [step_simple hcode1 ⟨rfl, rfl⟩ (reads_two.2 ⟨x, c, value_vreg.2 hx1, hcount fr1, rfl⟩)]
    have hact : act m fr1 (.binary (.vreg v) op (.vreg v) count) [x, c] =
        .ok (.write (.vreg v) w) := by
      rcases hop with rfl | rfl <;> simp [act, actBinary, heval]
    rw [hact]
    simp only [Except.ok_bind, Action.apply, assign, if_pos hv1]
    rfl
  split at hcode
  · refine Steps.cons (step_move hcode hx hv) (Steps.one ?_)
    have hreg := (join_setIfInBounds fr.regs v v x hv).trans (if_pos rfl)
    have h := hshift (fr.after (fr.regs.setIfInBounds v (some x)) _) rfl
      (Array.size_setIfInBounds.symm ▸ hv) hreg
    rw [Array.setIfInBounds_setIfInBounds] at h
    exact h
  · next heq =>
    have hlhs : .vreg v = lhs := not_not.1 heq
    exact Steps.one (hshift fr hcode hv (value_vreg.1 (hlhs ▸ hx)))

theorem steps_argMoves {args : List (PhysReg × Operand)} {ws : List Word}
    (hargs : ∀ x ∈ args, NoPhys x.2) (hws : Reads m fr (args.map (·.2)) ws)
    (hcode : fr.code = argMoves args ++ rest) :
    Steps q ⟨m, fr, k⟩ ⟨m.withRegs (m.regs.setMany ((args.map (·.1)).zip (ws.map some))),
      { fr with code := rest }, k⟩ := by
  induction args generalizing m fr ws with
  | nil =>
    cases reads_nil.1 hws
    have hcode' : fr.code = rest := hcode
    rw [← hcode']
    exact .refl
  | cons x args ih =>
    cases hws with
    | cons hw hws =>
      rename_i w ws
      obtain ⟨hx, hargs⟩ := forall_mem_cons.1 hargs
      refine Steps.cons (step_move_phys hcode hw) ?_
      refine @ih (m.withRegs (m.regs.set x.1 (some w))) { fr with code := argMoves args ++ rest } ws
        hargs ?_ rfl
      refine Reads.imp hws fun o ho y hy => ?_
      obtain ⟨z, hz, rfl⟩ := mem_map.1 ho
      rw [value_withRegs (hargs z hz), value_withCode]
      exact hy

end Prepare

end MxStar.Alloc
