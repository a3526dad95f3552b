import MxStar.Pass.Inline
import MxStar.Proofs.ConventionCalls

/-!
Code that can be moved to other registers.

`Follows p q R` is a simulation of runs that do not fail: inlining takes a level off the stack. `Portable`
code names no register of the machine and does not touch the frame. `Holds base` relates a frame to one that
has its registers from a base on.
-/
namespace MxStar.Interp

open IR

/-! ## Runs that do not fail -/

/-- The program `q` follows `p` through configurations related by `R` as long as `p` does not fail.
-/
def Follows (p q : Program) (R : Config → Config → Prop) : Prop :=
  ∀ c d, R c d → (∀ e, step p c ≠ .failed e) → Answers q R d (step p c)

/-- A run of `p` that gives a result is matched by one of `q` from every related configuration. -/
theorem Follows.ends {p q : Program} {R : Config → Config → Prop} (hs : Follows p q R)
    {c d : Config} (hr : R c d) {o : Outcome} (h : Ends p c (.ok o)) : Ends q d (.ok o) := by
  obtain ⟨c', hc', hlast⟩ := h.exists_last fun e he => by cases he
  obtain ⟨d', hd', hr'⟩ := Steps.follow (R := R) (fun c d c' hr hstep => by
    have hanswers := hs c d hr
    rw [hstep] at hanswers
    exact hanswers fun e he => by cases he) hr hc'
  have hanswers := hs c' d' hr'
  rcases hlast with ⟨w, m, hw, heq⟩ | ⟨e, -, heq⟩
  · cases heq
    rw [hw] at hanswers
    obtain ⟨d1, m', hd1, hend, hout⟩ := hanswers fun e he => by cases he
    rw [← hout]
    exact .of_steps (hd'.trans hd1) (.of_finished hend)
  · cases heq

/-- Every result of a call in `p` is one of the same call in `q`. -/
def KeepsResults (p q : Program) : Prop :=
  ∀ id args input o, CallEnds p id args input (.ok o) → CallEnds q id args input (.ok o)

theorem KeepsResults.refl (p : Program) : KeepsResults p p := fun _ _ _ _ h => h

theorem KeepsResults.trans {p q r : Program} (h : KeepsResults p q) (h' : KeepsResults q r) :
    KeepsResults p r :=
  fun id args input o hc => h' id args input o (h id args input o hc)

theorem Progress.ofExcept_ok {x : Except RunError Config} (h : ∀ e, Progress.ofExcept x ≠ .failed e) :
    ∃ c, x = .ok c := by
  cases x with
  | error e => exact absurd rfl (h e)
  | ok c => exact ⟨c, rfl⟩

end MxStar.Interp

namespace MxStar.Pass

open IR Interp Alloc

variable {m m' : Machine} {i : Instr} {vs : List Word} {fr : Frame} {a : Action}

/-! ## Portable code -/

def GivesValues (f : Func) : Prop := ∀ b, .ret none ∉ f.code b

/-- The instruction names no register of the machine and does not touch the frame. If it calls a
function, it passes as many arguments as the function has parameters, and if it wants a result, the
function always gives one. -/
structure Portable (p : Program) (i : Instr) : Prop where
  noPhys : ∀ o ∈ i.operands, NoPhys o
  noStack : NoStack i
  calls : ∀ dst id args n, i = .call dst (.func id) args n → ∃ g, p.functions[id]? = some g ∧
    args.length = g.params.length ∧ (dst.isSome → GivesValues g)

/-- All code of the function is portable, and its parameters are registers of it. -/
structure PortableFunc (p : Program) (f : Func) : Prop where
  params : ∀ v ∈ f.params, v < f.vregCount
  instrs : ∀ b, ∀ i ∈ f.code b, Portable p i

def PortableProgram (p : Program) : Prop := ∀ f ∈ p.functions, PortableFunc p f

/-! ## Shifted registers -/

abbrev shift (base : VReg) : Operand → Operand := renameVReg (base + ·)

theorem shift_zero (o : Operand) : shift 0 o = o :=
  renameVReg_of_keep fun v _ => Nat.zero_add v

/-- The second frame has what the first one has, counted from a base, and neither has pushed
anything. -/
structure Holds (base : VReg) (fr fr' : Frame) : Prop where
  size : base + fr.regs.size ≤ fr'.regs.size
  regs : ∀ v w, fr.reg v = some w → fr'.reg (base + v) = some w
  pushed : fr.pushed = []
  pushed' : fr'.pushed = []

section Values

variable {base : VReg} {fr fr' : Frame} {m m' : Machine}

theorem Holds.value (h : Holds base fr fr') (hm : m' = m.withRegs m'.regs) {o : Operand}
    (ho : NoPhys o) {w : Word} (hw : value m fr o = .ok w) : value m' fr' (shift base o) = .ok w := by
  cases o with
  | vreg v => exact value_vreg.2 (h.regs v w (value_vreg.1 hw))
  | phys q => exact absurd rfl (ho q)
  | imm x => exact hw
  | static s =>
    rw [hm]
    exact hw

theorem Holds.reads (h : Holds base fr fr') (hm : m' = m.withRegs m'.regs) {os : List Operand}
    (ho : ∀ o ∈ os, NoPhys o) (hr : Reads m fr os vs) : Reads m' fr' (os.map (shift base)) vs :=
  hr.map fun o hmem _ => h.value hm (ho o hmem)

theorem Holds.set (h : Holds base fr fr') {v : VReg} (hv : v < fr.regs.size) (w : Word) :
    Holds base { fr with regs := fr.regs.setIfInBounds v (some w) }
      { fr' with regs := fr'.regs.setIfInBounds (base + v) (some w) } := by
  have hv' : base + v < fr'.regs.size := Nat.lt_of_lt_of_le (Nat.add_lt_add_left hv base) h.size
  refine { h with size := by simpa using h.size, regs := fun u x => ?_ }
  exact join_set_mono (t := (base + ·)) (fun _ => Nat.add_left_cancel) hv hv' (h.regs u x)

end Values

/-! ## Acting on shifted registers -/

/-- The action writes no register of the machine and does not touch the frame. -/
def VirtualAction : Action → Prop
  | .write dst _ | .divide dst _ _ _ => NoPhys dst
  | .memory _ => True
  | .slot .. | .push _ => False

theorem act_virtual {p : Program} (hi : Portable p i) (h : act m fr i vs = .ok a) :
    VirtualAction a := by
  have hdst : ∀ dst, i.dst? = some dst → NoPhys dst := by
    intro dst hdst
    refine hi.noPhys dst ?_
    simp [Instr.operands, hdst]
  cases Alloc.actsAs h with
  | write hwrites => exact hdst _ hwrites
  | divide heq => exact hdst _ (by rw [heq]; rfl)
  | memory => trivial
  | slot heq =>
    subst heq
    exact absurd rfl (hi.noStack.slot _)
  | push heq => exact absurd heq (hi.noStack.push _)

/-- Instructions that do not touch the frame act alike in every frame. -/
theorem act_anyFrame (hi : NoStack i) (m : Machine) (fr fr' : Frame) (vs : List Word) :
    act m fr' i vs = act m fr i vs := by
  cases i with
  | load dst a =>
    cases a with
    | slot k => exact absurd rfl (hi.slot k)
    | incoming k => exact absurd rfl (hi.incoming k)
    | base | static => rfl
  | _ => rfl

theorem noStack_mapOperands (hi : NoStack i) (σ : Operand → Operand) :
    NoStack (i.mapOperands σ) := by
  cases i with
  | push v => exact absurd rfl (hi.push v)
  | load dst a | store a src =>
    cases a with
    | slot k => exact absurd rfl (hi.slot k)
    | incoming k => exact absurd rfl (hi.incoming k)
    | base | static =>
      exact ⟨fun _ h => (nomatch h), fun _ h => (nomatch h), fun _ h => (nomatch h)⟩
  | _ => exact ⟨fun _ h => (nomatch h), fun _ h => (nomatch h), fun _ h => (nomatch h)⟩

theorem act_shift (hm : m' = m.withRegs m'.regs) (fr' : Frame) (hi : NoStack i)
    (σ : Operand → Operand) (h : act m fr i vs = .ok a) :
    act m' fr' (i.mapOperands σ) vs = .ok (a.mapDst σ) := by
  have hstore : SameStore m fr m' fr := by
    rw [hm]
    exact ⟨rfl, rfl, rfl, fun _ _ h => h⟩
  rw [act_anyFrame (noStack_mapOperands hi σ) m' fr fr']
  obtain ⟨b, hb, rfl⟩ := (act_mapOperands hstore σ).1 a h
  exact hb

/-- An action on shifted registers writes nothing below the base. -/
theorem apply_shift {m1 : Machine} (hm : m' = m.withRegs m'.regs) {base : VReg} {fr' fr1 : Frame}
    (hfr : Holds base fr fr') (ha : VirtualAction a) (h : a.apply m fr = .ok (m1, fr1)) :
    ∃ m1' regs regs', (a.mapDst (shift base)).apply m' fr' = .ok (m1', { fr' with regs := regs' }) ∧
      m1' = m1.withRegs m1'.regs ∧ fr1 = { fr with regs := regs } ∧ regs.size = fr.regs.size ∧
      Holds base { fr with regs := regs } { fr' with regs := regs' } ∧ Kept base fr'.regs regs' := by
  have hassign : ∀ dst w, NoPhys dst → assign m fr dst w = .ok (m1, fr1) →
      ∃ m1' regs regs', assign m' fr' (shift base dst) w = .ok (m1', { fr' with regs := regs' }) ∧
        m1' = m1.withRegs m1'.regs ∧ fr1 = { fr with regs := regs } ∧ regs.size = fr.regs.size ∧
        Holds base { fr with regs := regs } { fr' with regs := regs' } ∧
        Kept base fr'.regs regs' := by
    intro dst w hdst h
    cases dst with
    | vreg v =>
      simp only [assign] at h
      split at h
      · next hv =>
        cases h
        have hv' : base + v < fr'.regs.size :=
          Nat.lt_of_lt_of_le (Nat.add_lt_add_left hv base) hfr.size
        refine ⟨m', _, fr'.regs.setIfInBounds (base + v) (some w), ?_, hm, rfl, by simp,
          hfr.set hv w, .set (Nat.le_add_right _ _) w _⟩
        simp only [renameVReg, assign, if_pos hv']
      · cases h
    | phys q => exact absurd rfl (hdst q)
    | imm x => cases h
    | static s => cases h
  cases a with
  | write dst w => exact hassign dst w ha h
  | divide dst op quot rem =>
    -- The result goes to a virtual register, so nothing else is written.
    have hsame : ∀ (m : Machine) (fr : Frame) (dst : Operand), NoPhys dst →
        (Action.divide dst op quot rem).apply m fr =
          assign m fr dst (if op = .div then quot else rem) := by
      intro m fr dst hdst
      cases dst with
      | phys q => exact absurd rfl (hdst q)
      | _ => rfl
    have hdst' : NoPhys (shift base dst) := fun q hq => ha q (renameVReg_eq_phys.1 hq)
    rw [hsame m fr dst ha] at h
    obtain ⟨m1', regs, regs', hx, hrest⟩ := hassign dst _ ha h
    exact ⟨m1', regs, regs', (hsame m' fr' _ hdst').trans hx, hrest⟩
  | memory mem =>
    cases h
    refine ⟨{ m' with memory := mem }, fr.regs, fr'.regs, rfl, ?_, rfl, rfl, hfr, .refl _ _⟩
    rw [hm]
    rfl
  | slot k w => exact ha.elim
  | push w => exact ha.elim

theorem finishCall_shift {m1 : Machine} (hm : m' = m.withRegs m'.regs) {base : VReg}
    {fr' fr1 : Frame} (hfr : Holds base fr fr') {dst : Option Operand} (hdst : ∀ d ∈ dst, NoPhys d)
    {w : Word} (h : finishCall m fr dst w = .ok (m1, fr1)) :
    ∃ m1' regs regs', finishCall m' fr' (dst.map (shift base)) w =
        .ok (m1', { fr' with regs := regs' }) ∧
      m1' = m1.withRegs m1'.regs ∧ fr1 = { fr with regs := regs } ∧ regs.size = fr.regs.size ∧
      Holds base { fr with regs := regs } { fr' with regs := regs' } ∧ Kept base fr'.regs regs' := by
  have hm1 : returned m' w = (returned m w).withRegs (returned m' w).regs := by
    rw [hm]
    rfl
  cases dst with
  | none =>
    cases h
    exact ⟨_, fr.regs, fr'.regs, rfl, hm1, rfl, rfl, hfr, .refl _ _⟩
  | some d => exact apply_shift (a := .write d w) hm1 hfr (hdst d rfl) h

end MxStar.Pass
