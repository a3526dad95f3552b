import Mathlib.Logic.Relation
import MxStar.Interp.Run

/-!
Runs and simulations.

1. `Ends p c o` says that the run of a configuration ends with `o` for some fuel.
2. `Executes p c n o` counts the instructions of a run and does not speak of fuel (`executes_or_stops`).
3. `Definite` picks out the outcomes that are the program's own: a value, a division by zero, an access out
   of bounds, too many active calls.
4. `Simulates p q R` says that `q` follows `p` step by step through related configurations. Then a definite
   end of `p` is an end of `q` (`Simulates.ends`).
-/
namespace MxStar.Interp

open IR

variable {p q : Program} {R : Config → Config → Prop} {c d : Config} {o : Except RunError Outcome}
  {e : RunError}

/-! ## Ends of runs -/

/-- The run of a configuration ends this way, given fuel enough. -/
def Ends (p : Program) (c : Config) (o : Except RunError Outcome) : Prop :=
  ∃ fuel, runConfig p fuel c = o

/-- One instruction leads from one configuration to the other. -/
def Next (p : Program) (c d : Config) : Prop := step p c = .running d

/-- Some instructions, or none, lead from one configuration to the other. -/
abbrev Steps (p : Program) : Config → Config → Prop := Relation.ReflTransGen (Next p)

theorem Steps.one (h : step p c = .running d) : Steps p c d :=
  Relation.ReflTransGen.single h

theorem Steps.cons {e : Config} (h : step p c = .running d) (hs : Steps p d e) : Steps p c e :=
  Relation.ReflTransGen.head h hs

theorem Ends.of_next (h : step p c = .running d) (hd : Ends p d o) : Ends p c o := by
  obtain ⟨fuel, hfuel⟩ := hd
  exact ⟨fuel + 1, by rw [runConfig, h]; exact hfuel⟩

theorem Ends.of_steps (h : Steps p c d) (hd : Ends p d o) : Ends p c o := by
  induction h using Relation.ReflTransGen.head_induction_on with
  | refl => exact hd
  | head h _ ih => exact .of_next h ih

theorem Ends.of_finished {w : Word} {m : Machine} (h : step p c = .finished w m) :
    Ends p c (.ok ⟨w, m.output⟩) :=
  ⟨1, by rw [runConfig, h]⟩

theorem Ends.of_failed (h : step p c = .failed e) : Ends p c (.error e) :=
  ⟨1, by rw [runConfig, h]⟩

/-! ## Outcomes that are the program's own -/

/-- The errors that a program with a meaning can end in. -/
def RunError.Definite : RunError → Prop
  | .divisionByZero | .outOfBounds _ | .stackOverflow | .overflow => True
  | .undefinedRegister .. | .undefinedSlot .. | .outOfFuel | .unsupported _ | .noEntry => False

/-- The errors of code without a meaning, and of a run with too little fuel. -/
def RunError.Void : RunError → Prop
  | .undefinedRegister .. | .outOfFuel | .unsupported _ => True
  | .undefinedSlot .. | .divisionByZero | .outOfBounds _ | .stackOverflow | .noEntry | .overflow => False

theorem RunError.Void.not_definite (h : e.Void) : ¬e.Definite := by
  cases e with
  | undefinedRegister | outOfFuel | unsupported => exact not_false
  | _ => exact h.elim

/-- The ends of a run that say what the program does: a value with the output, or an error that a
program with a meaning can end in. -/
def Definite : Except RunError Outcome → Prop
  | .ok _ => True
  | .error e => e.Definite

theorem Definite.not_void (ho : Definite o) (he : o = .error e) : ¬e.Void := by
  subst he
  exact fun hv => hv.not_definite ho

/-! ## Instructions of a run -/

/-- The run of a configuration executes this number of instructions and ends this way. -/
inductive Executes (p : Program) : Config → Nat → Except RunError Outcome → Prop
  | next {c d : Config} {n : Nat} {o : Except RunError Outcome} (h : step p c = .running d)
      (hd : Executes p d n o) : Executes p c (n + 1) o
  | finished {c : Config} {w : Word} {m : Machine} (h : step p c = .finished w m) :
      Executes p c 1 (.ok ⟨w, m.output⟩)
  | failed {c : Config} {e : RunError} (hcode : c.frame.code ≠ []) (h : step p c = .failed e) :
      Executes p c 1 (.error e)
  /-- A block without another instruction ends the run before one is executed. -/
  | unterminated {c : Config} (hcode : c.frame.code = []) :
      Executes p c 0 (.error (.unsupported (.unterminated c.frame.block)))

/-- This number of instructions leads to a configuration with another instruction to execute. -/
inductive StillRuns (p : Program) : Nat → Config → Prop
  | now {c : Config} (hcode : c.frame.code ≠ []) : StillRuns p 0 c
  | next {c d : Config} {n : Nat} (h : step p c = .running d) (hd : StillRuns p n d) :
      StillRuns p (n + 1) c

theorem step_of_code_nil (hcode : c.frame.code = []) :
    step p c = .failed (.unsupported (.unterminated c.frame.block)) := by
  rw [step, hcode]

/-- With fuel for all its instructions a run ends as it does without a limit. -/
theorem Executes.runConfig_eq {n fuel : Nat} (h : Executes p c n o) (hn : n ≤ fuel) :
    runConfig p fuel c = o := by
  induction h generalizing fuel with
  | next h _ ih =>
    obtain ⟨fuel, rfl⟩ := Nat.exists_eq_add_of_le' (Nat.le_trans (Nat.le_add_left 1 _) hn)
    rw [runConfig, h]
    exact ih (Nat.le_of_succ_le_succ hn)
  | finished h | failed _ h =>
    obtain ⟨fuel, rfl⟩ := Nat.exists_eq_add_of_le' hn
    rw [runConfig, h]
  | unterminated hcode =>
    cases fuel with
    | zero => rw [runConfig, hcode]
    | succ fuel => rw [runConfig, step_of_code_nil hcode]

/-- A run executes no more instructions than it has fuel for: it ends by itself before that, or it stops
when the fuel is used up. -/
theorem executes_or_stops (p : Program) (fuel : Nat) (c : Config) :
    (∃ n ≤ fuel, Executes p c n (runConfig p fuel c)) ∨
      runConfig p fuel c = .error .outOfFuel ∧ StillRuns p fuel c := by
  induction fuel generalizing c with
  | zero =>
    unfold runConfig
    split
    · next hcode => exact .inl ⟨0, Nat.le_refl 0, .unterminated hcode⟩
    · next hcode => exact .inr ⟨rfl, .now (hcode ▸ List.cons_ne_nil _ _)⟩
  | succ fuel ih =>
    rw [runConfig]
    split
    · next d h =>
      rcases ih d with ⟨n, hn, hd⟩ | ⟨hout, hd⟩
      · exact .inl ⟨n + 1, Nat.succ_le_succ hn, .next h hd⟩
      · exact .inr ⟨hout, .next h hd⟩
    · next h => exact .inl ⟨1, Nat.le_add_left 1 fuel, .finished h⟩
    · next h =>
      by_cases hcode : c.frame.code = []
      · cases (step_of_code_nil hcode).symm.trans h
        exact .inl ⟨0, Nat.zero_le _, .unterminated hcode⟩
      · exact .inl ⟨1, Nat.le_add_left 1 fuel, .failed hcode h⟩

/-- **Fuel bounds a run and changes nothing else.** A call executes at most as many instructions as it has
fuel: it ends by itself within that number, or the fuel is used up when that many are executed and another
one is left. Where it does not run out of fuel, it ends in the same way with any more fuel. -/
theorem fuel_only_bounds {id : FuncId} {f : Func} (hf : p.functions[id]? = some f) (args : List Word)
    (input : String) :
    (∀ fuel, (∃ n ≤ fuel, Executes p (.start p f args input) n (call p id args input fuel)) ∨
      call p id args input fuel = .error .outOfFuel ∧ StillRuns p fuel (.start p f args input)) ∧
    ∀ fuel more, fuel ≤ more → call p id args input fuel ≠ .error .outOfFuel →
      call p id args input more = call p id args input fuel := by
  have hcall (fuel : Nat) : call p id args input fuel = runConfig p fuel (.start p f args input) := by
    rw [call, hf]
  simp only [hcall]
  refine ⟨fun fuel => executes_or_stops p fuel _, fun fuel more hle hne => ?_⟩
  rcases executes_or_stops p fuel (.start p f args input) with ⟨n, hn, hrun⟩ | ⟨hout, -⟩
  · exact hrun.runConfig_eq (Nat.le_trans hn hle)
  · exact absurd hout hne

/-- A function that calls itself as often as its argument says, and counts the calls. -/
def descent : Program where
  functions := #[{
    name := "depth"
    label := "depth"
    params := [0]
    blocks := #[
      { name := "entry", instrs := [.branch .lt (.vreg 0) (.imm 1) 1 2] },
      { name := "bottom", instrs := [.ret (some (.imm 0))] },
      { name := "below", instrs := [.binary (.vreg 1) .sub (.vreg 0) (.imm 1),
        .call (some (.vreg 1)) (.func 0) [.vreg 1] 0, .binary (.vreg 1) .add (.vreg 1) (.imm 1),
        .ret (some (.vreg 1))] }]
    hints := #["n", "k"] }]

/-- Two calls inside a call take twelve instructions, and more fuel does not change what they give. -/
theorem fuel_only_bounds_descent :
    call descent 0 [2] "" 11 = .error .outOfFuel ∧
      ∀ fuel, 12 ≤ fuel → call descent 0 [2] "" fuel = .ok ⟨2, ""⟩ := by
  have hends : call descent 0 [2] "" 12 = .ok ⟨2, ""⟩ := rfl
  refine ⟨rfl, fun fuel hfuel => ?_⟩
  have hne : call descent 0 [2] "" 12 ≠ .error .outOfFuel := fun h => by cases hends.symm.trans h
  exact ((fuel_only_bounds rfl [2] "").2 12 fuel hfuel hne).trans hends

/-- What is left of a run with this outcome after its first step. -/
def Progress.EndsWith (p : Program) (n : Nat) (o : Except RunError Outcome) : Progress → Prop
  | .running d => ∃ k, k < n ∧ Executes p d k o
  | .finished w m => o = .ok ⟨w, m.output⟩
  | .failed e => o = .error e

theorem Executes.first {n : Nat} (h : Executes p c n o) : (step p c).EndsWith p n o := by
  cases h with
  | next h hd => exact h ▸ ⟨_, Nat.lt_succ_self _, hd⟩
  | finished h | failed _ h => exact h ▸ rfl
  | unterminated hcode => exact step_of_code_nil hcode ▸ rfl

theorem Ends.executes (h : Ends p c o) (ho : o ≠ .error .outOfFuel) : ∃ n, Executes p c n o := by
  obtain ⟨fuel, rfl⟩ := h
  rcases executes_or_stops p fuel c with ⟨n, -, hrun⟩ | ⟨hout, -⟩
  · exact ⟨n, hrun⟩
  · exact absurd hout ho

/-- A run gets to the configuration that it ends in, unless it ends for want of fuel. -/
theorem Ends.exists_end (h : Ends p c o) (ho : o ≠ .error .outOfFuel) :
    ∃ c', Steps p c c' ∧ ((∃ w m, step p c' = .finished w m ∧ o = .ok ⟨w, m.output⟩) ∨
      ∃ e, step p c' = .failed e ∧ o = .error e) := by
  obtain ⟨n, hn⟩ := h.executes ho
  clear h ho
  induction hn with
  | next h _ ih =>
    obtain ⟨c', hc', hlast⟩ := ih
    exact ⟨c', .cons h hc', hlast⟩
  | finished h => exact ⟨_, .refl, .inl ⟨_, _, h, rfl⟩⟩
  | failed _ h => exact ⟨_, .refl, .inr ⟨_, h, rfl⟩⟩
  | unterminated hcode => exact ⟨_, .refl, .inr ⟨_, step_of_code_nil hcode, rfl⟩⟩

theorem Ends.exists_last (h : Ends p c o) (ho : ∀ e, o = .error e → ¬e.Void) :
    ∃ c', Steps p c c' ∧ ((∃ w m, step p c' = .finished w m ∧ o = .ok ⟨w, m.output⟩) ∨
      ∃ e, step p c' = .failed e ∧ o = .error e) :=
  h.exists_end fun he => ho _ he trivial

/-! ## Simulations -/

/-- From `d` the program `q` can do what a step led to: reach a related configuration, return the
same value with the same output, or fail with the same error if that is definite. -/
def Answers (q : Program) (R : Config → Config → Prop) (d : Config) : Progress → Prop
  | .running c => ∃ d', Steps q d d' ∧ R c d'
  | .finished w m => ∃ d' m', Steps q d d' ∧ step q d' = .finished w m' ∧ m'.output = m.output
  | .failed e => e.Definite → ∃ d', Steps q d d' ∧ step q d' = .failed e

/-- The program `q` follows `p` through configurations related by `R`. -/
def Simulates (p q : Program) (R : Config → Config → Prop) : Prop :=
  ∀ c d, R c d → Answers q R d (step p c)

theorem Answers.of_steps {d' : Config} {x : Progress} (h : Steps q d d') (hx : Answers q R d' x) :
    Answers q R d x := by
  cases x with
  | running c =>
    obtain ⟨e, he, hr⟩ := hx
    exact ⟨e, h.trans he, hr⟩
  | finished w m =>
    obtain ⟨e, m', he, hr⟩ := hx
    exact ⟨e, m', h.trans he, hr⟩
  | failed e =>
    intro hd
    obtain ⟨e', he, hr⟩ := hx hd
    exact ⟨e', h.trans he, hr⟩

theorem Answers.failed_of_not_definite (h : ¬e.Definite) : Answers q R d (.failed e) :=
  fun hd => absurd hd h

theorem Steps.follow (hs : ∀ c d c', R c d → step p c = .running c' → ∃ d', Steps q d d' ∧ R c' d')
    {c' : Config} (hr : R c d) (h : Steps p c c') : ∃ d', Steps q d d' ∧ R c' d' := by
  induction h with
  | refl => exact ⟨d, .refl, hr⟩
  | tail _ hstep ih =>
    obtain ⟨d1, hd1, hr1⟩ := ih
    obtain ⟨d2, hd2, hr2⟩ := hs _ d1 _ hr1 hstep
    exact ⟨d2, hd1.trans hd2, hr2⟩

/-- Wherever `p` gets, `q` gets from every related configuration to a related one. -/
theorem Simulates.steps (hs : Simulates p q R) {c' : Config} (hr : R c d) (h : Steps p c c') :
    ∃ d', Steps q d d' ∧ R c' d' := by
  refine Steps.follow (fun c d c' hr hstep => ?_) hr h
  have hanswers := hs c d hr
  rwa [hstep] at hanswers

/-- **Forward simulation.** A run of `p` with a definite end is matched by one of `q` from every
related configuration. -/
theorem Simulates.ends (hs : Simulates p q R) (hr : R c d) (ho : Definite o) (h : Ends p c o) :
    Ends q d o := by
  obtain ⟨c', hc', hlast⟩ := h.exists_last fun _ => ho.not_void
  obtain ⟨d', hd', hr'⟩ := hs.steps hr hc'
  have hanswers := hs c' d' hr'
  rcases hlast with ⟨w, m, hw, rfl⟩ | ⟨e, he, rfl⟩
  · rw [hw] at hanswers
    obtain ⟨d1, m', hd1, hend, hout⟩ := hanswers
    rw [← hout]
    exact .of_steps (hd'.trans hd1) (.of_finished hend)
  · rw [he] at hanswers
    obtain ⟨d1, hd1, hend⟩ := hanswers ho
    exact .of_steps (hd'.trans hd1) (.of_failed hend)

/-- A run that fails does so at a configuration related to some other, unless it fails for want of
meaning or fuel. -/
theorem Simulates.failed (hs : Simulates p q R) (hr : R c d) (h : Ends p c (.error e)) :
    e.Void ∨ ∃ c' d', R c' d' ∧ step p c' = .failed e := by
  by_cases hv : e.Void
  · exact .inl hv
  obtain ⟨c', hc', hlast⟩ := h.exists_last fun _ he => Except.error.inj he ▸ hv
  obtain ⟨d', -, hr'⟩ := hs.steps hr hc'
  rcases hlast with ⟨w, m, -, heq⟩ | ⟨e, he, heq⟩
  · cases heq
  · cases heq
    exact .inr ⟨c', d', hr', he⟩

/-! ## Programs that keep the outcome -/

/-- A function of a program, called with these arguments and this input, ends this way. -/
def CallEnds (p : Program) (id : FuncId) (args : List Word) (input : String)
    (o : Except RunError Outcome) : Prop :=
  ∃ fuel, call p id args input fuel = o

theorem callEnds_iff {id : FuncId} {f : Func} (hf : p.functions[id]? = some f) {args : List Word}
    {input : String} : CallEnds p id args input o ↔ Ends p (.start p f args input) o := by
  simp only [CallEnds, Ends, call, hf]

theorem CallEnds.function_exists {id : FuncId} {args : List Word} {input : String}
    (h : CallEnds p id args input o) (ho : Definite o) : ∃ f, p.functions[id]? = some f := by
  obtain ⟨fuel, hfuel⟩ := h
  rw [call] at hfuel
  split at hfuel
  · subst hfuel
    exact ho.elim
  · next f hf => exact ⟨f, hf⟩

/-- A function of a program, called with these arguments and this input, gets to this configuration. -/
def CallReaches (p : Program) (id : FuncId) (args : List Word) (input : String) (c : Config) : Prop :=
  ∃ f, p.functions[id]? = some f ∧ Steps p (.start p f args input) c

/-- Every definite end of a call in `p` is one of the same call in `q`. -/
def KeepsEnds (p q : Program) : Prop :=
  ∀ id args input o, Definite o → CallEnds p id args input o → CallEnds q id args input o

/-- `q` follows `p` through related configurations, from the start of a call on. -/
structure SimulatesCall (p q : Program) (R : Config → Config → Prop) (id : FuncId) (args : List Word) :
    Prop where
  simulates : Simulates p q R
  start : ∀ f, p.functions[id]? = some f → ∀ input, ∃ g, q.functions[id]? = some g ∧
    R (.start p f args input) (.start q g args input)

theorem SimulatesCall.callEnds {id : FuncId} {args : List Word} (h : SimulatesCall p q R id args)
    {input : String} (ho : Definite o) (hends : CallEnds p id args input o) :
    CallEnds q id args input o := by
  obtain ⟨f, hf⟩ := hends.function_exists ho
  obtain ⟨g, hg, hr⟩ := h.start f hf input
  rw [callEnds_iff hf] at hends
  rw [callEnds_iff hg]
  exact h.simulates.ends hr ho hends

theorem SimulatesCall.callReaches {id : FuncId} {args : List Word} (h : SimulatesCall p q R id args)
    {input : String} (hc : CallReaches p id args input c) :
    ∃ d, CallReaches q id args input d ∧ R c d := by
  obtain ⟨f, hf, hsteps⟩ := hc
  obtain ⟨g, hg, hr⟩ := h.start f hf input
  obtain ⟨d, hd, hcd⟩ := h.simulates.steps hr hsteps
  exact ⟨d, ⟨g, hg, hd⟩, hcd⟩

end MxStar.Interp
