import MxStar.Asm.Peephole
import MxStar.Proofs.Processor

/-!
Rewriting the lines of a routine.

`Improves` says that other code makes the same calls in the same states, ends in the same state, and accesses
no more of memory. Leaving out lines that do nothing improves code (`improves_thinned`), and so does leaving
out or replacing a line because of the one before it (`improves_tidied`).
-/
namespace MxStar.Asm

open List

open IR (Word PhysReg)

variable {code code' lines : List Line} {name : String}

/-- The second code does what the first one does. -/
def Improves (env : Env) (code code' : List Line) : Prop :=
  ∀ s trace, Runs env code s trace → ∃ trace', Runs env code' s trace' ∧
    trace'.calls = trace.calls ∧ trace'.touched ⊆ trace.touched ∧ trace'.final = trace.final

namespace Improves

variable {env : Env} {code code' code'' : List Line}

theorem trans (h : Improves env code code') (h' : Improves env code' code'') :
    Improves env code code'' := by
  intro s trace hrun
  obtain ⟨t1, hrun1, hcalls1, htouched1, hfinal1⟩ := h s trace hrun
  obtain ⟨t2, hrun2, hcalls2, htouched2, hfinal2⟩ := h' s t1 hrun1
  exact ⟨t2, hrun2, hcalls2.trans hcalls1, List.Subset.trans htouched2 htouched1, hfinal2.trans hfinal1⟩

/-- A relation between the places in both codes is enough, if every line is matched. -/
theorem of_matches {R : State → List Line → State → List Line → Prop}
    (hstart : ∀ s, R s code s code')
    (hstep : ∀ s lines t lines', R s lines t lines' →
      Matches env code' R Eq s t lines' (step env code s lines)) : Improves env code code' := by
  intro s trace ⟨fuel, hrun⟩
  obtain ⟨fuel', trace', hrun', hcalls, htouched, hfinal⟩ := run_follows (P := fun _ => True)
    (fun s lines t lines' hr _ => hstep s lines t lines' hr) (hstart s) hrun (fun _ _ => trivial)
  exact ⟨trace', ⟨fuel', hrun'⟩, hcalls, htouched, hfinal.symm⟩

end Improves

/-! ## Labels -/

theorem linesFrom_suffix (h : linesFrom name code = some lines) : lines <:+ code := by
  induction code with
  | nil => cases h
  | cons a rest ih =>
    rw [linesFrom] at h
    split at h
    · cases h
      exact suffix_refl _
    · exact (ih h).trans (suffix_cons _ _)

theorem linesFrom_head (h : linesFrom name code = some lines) :
    ∃ rest, lines = .label name :: rest := by
  induction code with
  | nil => cases h
  | cons a rest ih =>
    rw [linesFrom] at h
    split at h
    · next ha =>
      cases h
      exact ⟨rest, by rw [ha]⟩
    · exact ih h

def LabelsDistinct (code : List Line) : Prop := (code.filterMap Line.label?).Nodup

/-- Where labels are distinct, a label is found where it stands. -/
theorem linesFrom_of_suffix {rest : List Line} (hd : LabelsDistinct code)
    (h : .label name :: rest <:+ code) : linesFrom name code = some (.label name :: rest) := by
  induction code with
  | nil => exact absurd (suffix_nil.1 h) (cons_ne_nil _ _)
  | cons a code ih =>
    rw [linesFrom]
    rcases suffix_cons_iff.1 h with heq | h
    · cases heq
      rw [if_pos rfl]
    · have hmem : .label name ∈ code := h.subset mem_cons_self
      have hne : a ≠ .label name := by
        intro ha
        rw [LabelsDistinct, ha] at hd
        have hd' : (name :: code.filterMap Line.label?).Nodup := hd
        exact (nodup_cons.1 hd').1 (mem_filterMap.2 ⟨_, hmem, rfl⟩)
      have hd' : LabelsDistinct code := by
        refine List.Nodup.sublist (List.Sublist.filterMap _ ?_) hd
        exact sublist_cons_self a code
      rw [if_neg hne]
      exact ih hd' h

/-! ## Lines that are kept -/

/-- A line that both codes have is matched by itself, if what comes after it and the places that it
may jump to are related. -/
theorem matches_same {env : Env} {R : State → List Line → State → List Line → Prop} {s : State}
    {a : Line} {rest rest' : List Line}
    (hnext : ∀ calls touched t, step env code s (a :: rest) = .goes calls touched t rest →
      R t rest t rest') (hjump : ∀ name lines, a.instr?.bind Instr.branchTarget? = some name →
      linesFrom name code = some lines →
        ∃ lines', linesFrom name code' = some lines' ∧ R s lines s lines') :
    Matches env code' R Eq s s (a :: rest') (step env code s (a :: rest)) := by
  have hto : ∀ name, a.instr?.bind Instr.branchTarget? = some name →
      step env code' s (a :: rest') = jumpTo code' s name →
      Matches env code' R Eq s s (a :: rest') (jumpTo code s name) := by
    intro name hname hstep
    rw [jumpTo]
    cases hlines : linesFrom name code with
    | none => trivial
    | some lines =>
      obtain ⟨lines', hlines', hr⟩ := hjump name lines hname hlines
      refine .inr ⟨[], s, lines', List.Subset.refl _, ?_, hr⟩
      rw [hstep, jumpTo, hlines']
  cases a with
  | label name => exact .inr ⟨[], s, rest', List.Subset.refl _, rfl, hnext [] [] s rfl⟩
  | instr i comment =>
    have hgoes : ∀ calls touched t, step env code s (.instr i comment :: rest) =
        .goes calls touched t rest → step env code' s (.instr i comment :: rest') =
        .goes calls touched t rest' → Matches env code' R Eq s s (.instr i comment :: rest')
          (step env code s (.instr i comment :: rest)) := by
      intro calls touched t h h'
      have hr := hnext calls touched t h
      rw [h]
      exact .inr ⟨touched, t, rest', List.Subset.refl _, h', hr⟩
    by_cases hi : i.isStraight
    · have hstep : step env code s (.instr i comment :: rest) = _ := step_straight hi
      cases hexec : exec env i s with
      | none =>
        rw [hexec] at hstep
        rw [hstep]
        trivial
      | some t =>
        rw [hexec] at hstep
        refine hgoes _ _ t hstep ?_
        rw [step_straight hi, hexec]
    · cases i with
      | ret => exact ⟨rfl, rfl⟩
      | jmp name => exact hto name rfl rfl
      | jcc c name =>
        cases hc : s.flags.holds c with
        | none =>
          rw [step_jcc, hc]
          trivial
        | some taken =>
          cases taken with
          | true =>
            rw [step_jcc, hc]
            exact hto name rfl (by rw [step_jcc, hc])
          | false => exact hgoes [] [] s (by rw [step_jcc, hc]) (by rw [step_jcc, hc])
      | call name => exact hgoes _ _ _ rfl rfl
      | _ => exact absurd rfl hi

/-! ## Leaving lines out -/

/-- Some lines are left out; of each the property holds, together with the lines after it. -/
inductive Thinned (P : Line → List Line → Prop) : List Line → List Line → Prop
  | nil : Thinned P [] []
  | keep {rest rest' : List Line} (a : Line) (h : Thinned P rest rest') :
    Thinned P (a :: rest) (a :: rest')
  | drop {rest rest' : List Line} {a : Line} (ha : P a rest) (h : Thinned P rest rest') :
    Thinned P (a :: rest) rest'

namespace Thinned

variable {P : Line → List Line → Prop} {code code' : List Line}

theorem refl (P : Line → List Line → Prop) (code : List Line) : Thinned P code code := by
  induction code with
  | nil => exact .nil
  | cons a rest ih => exact .keep a ih

theorem prepend (h : Thinned P code code') (front : List Line) :
    Thinned P (front ++ code) (front ++ code') := by
  induction front with
  | nil => exact h
  | cons a front ih => exact .keep a ih

theorem linesFrom (h : Thinned P code code') (hname : ∀ rest, ¬P (.label name) rest)
    (hlines : Asm.linesFrom name code = some lines) :
    ∃ lines', Asm.linesFrom name code' = some lines' ∧ Thinned P lines lines' := by
  induction h with
  | nil => cases hlines
  | keep a h ih =>
    rw [Asm.linesFrom] at hlines ⊢
    split at hlines
    · next ha =>
      cases hlines
      exact ⟨_, by rw [if_pos ha], .keep a h⟩
    · next ha =>
      rw [if_neg ha]
      exact ih hlines
  | drop ha h ih =>
    rw [Asm.linesFrom] at hlines
    split at hlines
    · next heq =>
      rw [heq] at ha
      exact absurd ha (hname _)
    · exact ih hlines

end Thinned

/-- **Leaving lines out** improves code, if they do nothing and no label is left out that is the
target of a jump. -/
theorem improves_thinned {env : Env} {P : Line → List Line → Prop} (h : Thinned P code code')
    (hsilent : ∀ a rest s, P a rest → a :: rest <:+ code →
      ∃ touched, step env code s (a :: rest) = .goes [] touched s rest)
    (htargets : ∀ a ∈ code, ∀ name, a.instr?.bind Instr.branchTarget? = some name →
      ∀ rest, ¬P (.label name) rest) : Improves env code code' := by
  refine .of_matches (R := fun s lines t lines' => t = s ∧ lines <:+ code ∧ Thinned P lines lines')
    (fun s => ⟨rfl, suffix_refl _, h⟩) ?_
  intro s lines t lines' ⟨hst, hsuffix, hthin⟩
  subst hst
  cases hthin with
  | nil => trivial
  | keep a hrest =>
    refine matches_same ?_ ?_
    · intro _ _ t _
      exact ⟨rfl, (suffix_cons _ _).trans hsuffix, hrest⟩
    · intro name found hname hfound
      have hmem := hsuffix.subset mem_cons_self
      obtain ⟨found', hfound', hthin⟩ := h.linesFrom (htargets a hmem name hname) hfound
      exact ⟨found', hfound', rfl, linesFrom_suffix hfound, hthin⟩
  | drop ha hrest =>
    obtain ⟨touched, hstep⟩ := hsilent _ _ t ha hsuffix
    rw [hstep]
    exact .inl ⟨rfl, rfl, (suffix_cons _ _).trans hsuffix, hrest⟩

/-! ## Lines that depend on the one before -/

/-- After a line, in a state, the changes to the line that follows make no difference. -/
structure ChangeSound (env : Env) (change : Instr → Instr → Change) (i : Instr) (s : State) :
    Prop where
  drop : ∀ j, change i j = .drop → j.isStraight ∧ exec env j s = some s
  replace : ∀ j k, change i j = .replace k → j.isStraight ∧ k.isStraight ∧
    exec env k s = exec env j s ∧ k.touches env s ⊆ j.touches env s

/-- Lines are left out or replaced because of the line before them, which is given if the lines are
reached through it only. -/
inductive Tidied (change : Instr → Instr → Change) : Option Instr → List Line → List Line → Prop
  | nil {before : Option Instr} : Tidied change before [] []
  | keep {before : Option Instr} {rest rest' : List Line} (a : Line)
    (h : Tidied change a.instr? rest rest') : Tidied change before (a :: rest) (a :: rest')
  | drop {i j : Instr} {comment : Option String} {rest rest' : List Line}
    (hc : change i j = .drop) (h : Tidied change (some i) rest rest') :
    Tidied change (some i) (.instr j comment :: rest) rest'
  | replace {i j k : Instr} {comment : Option String} {rest rest' : List Line}
    (hc : change i j = .replace k) (h : Tidied change (some k) rest rest') :
    Tidied change (some i) (.instr j comment :: rest) (plain k :: rest')

namespace Tidied

variable {change : Instr → Instr → Change} {code code' : List Line}

theorem refl (change : Instr → Instr → Change) (before : Option Instr) (code : List Line) :
    Tidied change before code code := by
  induction code generalizing before with
  | nil => exact .nil
  | cons a rest ih => exact .keep a (ih _)

theorem linesFrom {before : Option Instr} (h : Tidied change before code code')
    (hlines : Asm.linesFrom name code = some lines) :
    ∃ lines', Asm.linesFrom name code' = some lines' ∧ Tidied change none lines lines' := by
  induction h with
  | nil => cases hlines
  | keep a h ih =>
    rw [Asm.linesFrom] at hlines ⊢
    split at hlines
    · next ha =>
      cases hlines
      exact ⟨_, by rw [if_pos ha], .keep a h⟩
    · next ha =>
      rw [if_neg ha]
      exact ih hlines
  | drop hc h ih =>
    rw [Asm.linesFrom, if_neg (by intro he; cases he)] at hlines
    exact ih hlines
  | replace hc h ih =>
    rw [Asm.linesFrom, if_neg (by intro he; cases he)] at hlines
    rw [Asm.linesFrom, if_neg (by intro he; cases he)]
    exact ih hlines

theorem prepend (h : ∀ before, Tidied change before code code') (front : List Line)
    (before : Option Instr) : Tidied change before (front ++ code) (front ++ code') := by
  induction front generalizing before with
  | nil => exact h before
  | cons a front ih => exact .keep a (ih _)

theorem of_changePairs (change : Instr → Instr → Change) (body back : List Line)
    (before : Option Instr) : Tidied change before (body ++ back) (changePairs change body ++ back) := by
  have hafter : ∀ (rest : List Line) (a : Line), ∃ rest', changeAfter change a rest = a :: rest' ∧
      Tidied change a.instr? (rest ++ back) (rest' ++ back) := by
    intro rest
    induction rest with
    | nil => exact fun a => ⟨[], rfl, refl _ _ _⟩
    | cons b rest ih =>
      intro a
      rw [changeAfter]
      cases hc : lineChange change a b with
      | keep =>
        obtain ⟨rest', heq, htidy⟩ := ih b
        exact ⟨b :: rest', by rw [heq], .keep b htidy⟩
      | drop =>
        obtain ⟨rest', heq, htidy⟩ := ih a
        refine ⟨rest', heq, ?_⟩
        cases a with
        | label => cases hc
        | instr i c =>
          cases b with
          | label => cases hc
          | instr j c' => exact .drop hc htidy
      | replace k =>
        obtain ⟨rest', heq, htidy⟩ := ih (plain k)
        refine ⟨plain k :: rest', congrArg (a :: ·) heq, ?_⟩
        cases a with
        | label => cases hc
        | instr i c =>
          cases b with
          | label => cases hc
          | instr j c' => exact .replace hc htidy
  cases body with
  | nil => exact refl _ _ _
  | cons a rest =>
    obtain ⟨rest', heq, htidy⟩ := hafter rest a
    rw [changePairs, heq]
    exact .keep a htidy

end Tidied

/-- **Changing lines because of the line before** improves code, if the changes make no difference
after any instruction that leads to them. -/
theorem improves_tidied {env : Env} {change : Instr → Instr → Change}
    (h : Tidied change none code code')
    (hsound : ∀ i s s', exec env i s = some s' → ChangeSound env change i s')
    (hkeep : ∀ i j, i.isStraight = false → change i j = .keep) : Improves env code code' := by
  refine .of_matches (R := fun s lines t lines' => t = s ∧ ∃ before,
    Tidied change before lines lines' ∧ ∀ i, before = some i → ChangeSound env change i s)
    (fun s => ⟨rfl, none, h, fun i hi => by cases hi⟩) ?_
  intro s lines t lines' ⟨hst, before, htidy, hbefore⟩
  subst hst
  cases htidy with
  | nil => trivial
  | keep a hrest =>
    rename_i rest rest'
    refine matches_same ?_ ?_
    · intro calls touched t' hstep
      refine ⟨rfl, a.instr?, hrest, fun i hi => ?_⟩
      cases a with
      | label => cases hi
      | instr j comment =>
        cases hi
        by_cases hj : i.isStraight
        · rw [step_straight hj] at hstep
          cases hexec : exec env i t with
          | none =>
            rw [hexec] at hstep
            cases hstep
          | some t1 =>
            rw [hexec] at hstep
            cases hstep
            exact hsound i t t' hexec
        · -- After a call or a jump nothing is changed.
          have hnone := fun j => hkeep i j (Bool.eq_false_iff.2 hj)
          constructor
          · intro j hc
            rw [hnone j] at hc
            cases hc
          · intro j k hc
            rw [hnone j] at hc
            cases hc
    · intro name found _ hfound
      obtain ⟨found', hfound', htidy⟩ := h.linesFrom hfound
      exact ⟨found', hfound', rfl, none, htidy, fun i hi => by cases hi⟩
  | drop hc hrest =>
    obtain ⟨hj, hexec⟩ := (hbefore _ rfl).drop _ hc
    rw [step_straight hj, hexec]
    exact .inl ⟨rfl, rfl, _, hrest, hbefore⟩
  | replace hc hrest =>
    rename_i i j k comment rest rest'
    obtain ⟨hj, hk, hexec, htouches⟩ := (hbefore _ rfl).replace _ _ hc
    rw [step_straight hj]
    cases hx : exec env j t with
    | none => trivial
    | some t1 =>
      rw [hx] at hexec
      refine .inr ⟨k.touches env t, t1, rest', htouches, ?_, rfl, some k, hrest, ?_⟩
      · rw [plain, step_straight hk, hexec]
      · intro i' hi'
        cases hi'
        exact hsound k t t1 hexec

end MxStar.Asm
