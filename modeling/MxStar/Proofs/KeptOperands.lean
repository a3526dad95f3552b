import MxStar.Proofs.AssignedPlaces

/-!
Operands keep their values.

After the code for an operand its value may be copied, so that no later operand writes what holds it. So at
the end each operand has the value that it had right after its own evaluation (`operands_keep_values`).
-/
namespace MxStar

variable {vs : List Operand} {loc : Location} {es : List Expr}

namespace Lowering

open MxStar.Tree IR Interp List

/-! ## Copies -/

section Copied

variable {env : Env} {P : Pending} {s : Sketch} {es : List Expr} {o o' : Operand} {d d' : Draft}

def copied (later : List Expr) (v : Operand) : Build Operand :=
  if later.any (·.hasEffects) then snapshot v else pure v

theorem assignedAll_eq_nil (h : es.any (·.hasEffects) = false) : Expr.assignedAll es = [] := by
  induction es with
  | nil => rfl
  | cons e es ih =>
    rw [any_cons, Bool.or_eq_false_iff] at h
    rw [Expr.assignedAll, Expr.assigned_eq_nil h.1, ih h.2]
    rfl

end Copied

/-! ## Evaluation from left to right -/

/-- The rest of a run that ends at the place of `d'` in `c'` evaluates expressions, one after another,
from the place of a draft in a configuration. The value that each has right after its own evaluation, at
the end of its code, is the one that its operand has at the end of the run. -/
inductive Evaluates (env : Env) (p : IR.Program) (f : Func) (d' : Draft) (c' : Config) :
    List Expr → List Operand → Draft → Config → Prop
  | nil : Evaluates env p f d' c' [] [] d' c'
  | cons {e : Expr} {es : List Expr} {v v' : Operand} {vs : List Operand} {d d1 d2 : Draft}
    {c c1 c2 : Config} (hcode : (lower env e).value.run d = .ok (v, d1)) (hreach : Reaches p f d1 c c1)
    (hcopy : (copied es v).run d1 = .ok (v', d2)) (hreach' : Reaches p f d2 c1 c2)
    (hkept : ∀ w, value c'.machine c'.frame v' = .ok w ↔ value c1.machine c1.frame v = .ok w)
    (hrest : Evaluates env p f d' c' es vs d2 c2) :
    Evaluates env p f d' c' (e :: es) (v' :: vs) d c

theorem run_lowerOperands {env : Env} {e : Expr} {d d' : Draft}
    (h : (lowerOperands env (e :: es)).run d = .ok (vs, d')) :
    ∃ v d1 v' d2 rest, (lower env e).value.run d = .ok (v, d1) ∧
      (copied es v).run d1 = .ok (v', d2) ∧ (lowerOperands env es).run d2 = .ok (rest, d') ∧
      vs = v' :: rest := by
  have hany : (lowerAll env es).any (·.hasEffects) = es.any (·.hasEffects) := by
    clear h
    induction es with
    | nil => rfl
    | cons e es ih => rw [lowerAll, any_cons, any_cons, ih]; rfl
  rw [lowerOperands, lowerAll, evalOperands, hany] at h
  obtain ⟨v, d1, hcode, h⟩ := run_bind_eq_ok.1 h
  dsimp only at h
  rw [ite_bind] at h
  obtain ⟨v', d2, hcopy, h⟩ := run_bind_eq_ok.1 h
  obtain ⟨rest, d3, hrest, ⟨⟩⟩ := run_bind_eq_ok.1 h
  exact ⟨v, d1, v', d2, rest, hcode, hcopy, hrest, rfl⟩

theorem operands_region {env : Env} {P : Pending} {s : Sketch} {d' : Draft}
    (hs : Sound env P true s) (hrun : (lowerOperands env es).run s.toDraft = .ok (vs, d')) :
    Region (Expr.assignedAll es) s.toDraft d' := by
  obtain ⟨s', rfl, -, hregion, -⟩ :=
    Post.region _ _ hs (evalOperands_yields (lowerAll_sound env es) P s hs) hrun
  exact hregion

/-- A run through the code for operands evaluates them from left to right, and their values are kept. -/
theorem evaluates_lowerOperands {env : Env} {P : Pending} {p : IR.Program} {f : Func} {d' : Draft}
    {c' : Config} (hf : d'.Within f) {s : Sketch} {c : Config} (hs : Sound env P true s)
    (hrun : (lowerOperands env es).run s.toDraft = .ok (vs, d')) (hc : At f s.toDraft c)
    (hreach : Reaches p f d' c c') : Evaluates env p f d' c' es vs s.toDraft c := by
  induction es generalizing s vs c with
  | nil =>
    cases hrun
    rw [hreach.eq_of_at hc]
    exact .nil
  | cons e es ih =>
    obtain ⟨v, d1, v', d2, rest, hcode, hcopy, hrest, rfl⟩ := run_lowerOperands hrun
    obtain ⟨s1, rfl, hbuilt1, hvalue, hv⟩ := value_region hs hcode
    obtain ⟨s2, rfl, hbuilt2, hcopied, hv'⟩ := Post.region true [] hbuilt1.sound
      (snapshotIf_sound hbuilt1.sound hv) hcopy
    have hlater := operands_region hbuilt2.sound hrest
    have hf2 := hlater.within hf
    have hf1 := hcopied.within hf2
    -- The run goes through the end of the code for the value, and then through that of the copy.
    obtain ⟨c1, hreach1, hreach⟩ := hvalue.through hf1
      (fun b => (hcopied.code_grows b).trans (hlater.code_grows b)) hc hreach
    obtain ⟨c2, hreach2, hreach⟩ := hcopied.through hf2 hlater.code_grows hreach1.arrives hreach
    refine .cons hcode hreach1 hcopy hreach2 (fun w => ?_)
      (ih hbuilt2.sound hrest hreach2.arrives hreach)
    have hfixes := fixes_of_within hv' fun r hr =>
      names_snapshotIf assignedAll_eq_nil hbuilt1.sound hcopy hr
    rw [hlater.value_iff hf hreach2.arrives hreach hfixes]
    exact snapshotIf_value hcopy hbuilt1.sound.current hf2 hreach1.arrives hreach2

/-- **Operands keep their values.** A run from the start to the end of the code for operands evaluates
them from left to right, and at the end each has the value that it had right after its own evaluation,
whatever the operands after it assign or call. The code for an expression without effects stores
nothing, calls no function, and writes no register of a variable or parameter. -/
theorem operands_keep_values {env : Env} {P : Pending} {s : Sketch} (hs : Sound env P true s) :
    (∀ es vs d', (lowerOperands env es).run s.toDraft = .ok (vs, d') →
      ∀ (p : IR.Program) (f : Func) (c c' : Config), d'.Within f → At f s.toDraft c →
        Reaches p f d' c c' → Evaluates env p f d' c' es vs s.toDraft c) ∧
    ∀ e v d', e.hasEffects = false → (lower env e).value.run s.toDraft = .ok (v, d') →
      ∀ b, ∃ new, d'.code b = s.code b ++ new ∧ ∀ i ∈ new, (∀ a o, i ≠ .store a o) ∧
        (∀ dst id args n, i ≠ .call dst (.func id) args n) ∧
        ∀ r, i.dst? = some (.vreg r) → s.isLocal r = false ∧ r ∉ s.func.params := by
  refine ⟨fun es vs d' hrun p f c c' hf hc => evaluates_lowerOperands hf hs hrun hc, ?_⟩
  intro e v d' heffects hrun b
  obtain ⟨_, rfl, h, -⟩ := (lower_sound env e).value P s hs v d' hrun
  obtain ⟨new, hnew, hadmits⟩ := h.confines.added b
  refine ⟨new, hnew, fun i hi => ⟨?_, ?_, fun r hr => ?_⟩⟩
  · rintro a o rfl
    cases (hadmits _ hi).quiet heffects
  · rintro dst id args n rfl
    cases (hadmits _ hi).quiet heffects
  · have hfresh : s.regs ≤ r := by
      rcases (hadmits i hi).writes r hr with h | ⟨name, hname, -⟩
      · exact h
      · change name ∈ e.assigned at hname
        rw [Expr.assigned_eq_nil heffects] at hname
        cases hname
    refine ⟨?_, fun hparam => Nat.not_lt.2 hfresh (hs.params r hparam)⟩
    rw [Draft.isLocal, List.any_eq_false]
    intro scope hscope hmem
    exact Nat.not_lt.2 hfresh (hs.names.locals scope hscope r (List.contains_iff_mem.1 hmem)).1

def pThenQ : Draft :=
  ((twoNodes.addReg "p").emit (.move (.vreg 2) (.vreg 0))).emit (.move (.vreg 0) (.vreg 1))

/-- A call of the function with the nodes 8 and 16, with some registers and some code left. -/
def pThenQAt (regs : Array (Option Word)) (code : List Instr) : Config :=
  { machine := ⟨⟨Array.replicate 24 0⟩, .empty, #[], [], "", true⟩
    frame := ⟨pThenQ.func, regs, #[], [], [], 0, code⟩
    callers := [] }

/-- The first of the operands `p` and `p = q` is still the node that was `p`. -/
theorem operands_keep_values_pThenQ :
    ∃ c', value c'.machine c'.frame (.vreg 2) = .ok 8 ∧ value c'.machine c'.frame (.vreg 0) = .ok 16 ∧
      Evaluates nodeEnv {} pThenQ.func pThenQ c' [.named "p" (.object "Node"), becomesQ "p"]
        [.vreg 2, .vreg 0] twoNodes (pThenQAt #[some 8, some 16, none] (pThenQ.code 0)) := by
  have hreach : Reaches {} pThenQ.func pThenQ (pThenQAt #[some 8, some 16, none] (pThenQ.code 0))
      (pThenQAt #[some 16, some 16, some 8] []) := by
    refine ⟨.tail (.single ⟨fun h => ?_, .back rfl rfl⟩) ⟨fun h => ?_, .back rfl rfl⟩, ⟨rfl, rfl, rfl⟩⟩
    · exact absurd (congrArg List.length h.code) (by decide)
    · exact absurd (congrArg List.length h.code) (by decide)
  refine ⟨_, rfl, rfl, (operands_keep_values sound_twoNodes).1 _ _ pThenQ rfl {} _ _ _ ?_ ?_ hreach⟩
  · exact fun b => List.prefix_refl _
  · exact ⟨rfl, rfl, rfl⟩

end Lowering

end MxStar
