import MxStar.Proofs.LineRewrites

/-!
Routines without a frame.

A body that needs no frame runs in step with the body in the frame (`Framed`): the stack pointer is one word
higher, the frame pointer is still the one of the caller, and memory is the same apart from the word in
which that was saved (`runs_omitFrame`). Where the epilogue only returns, a jump to it can be replaced by a
return (`improves_inlineReturns`).
-/
namespace MxStar.Asm

open List

open IR (Word PhysReg)
open Interp (Store Apart distance)

variable {name : String}

/-! ## In step with a framed body -/

/-- Two states in the body of a routine, of which the first one has the frame; the frame pointer of
the caller is saved at `top`. -/
structure Framed (top saved : Word) (s t : State) : Prop where
  regs : ∀ r, r ≠ .rbp → r ≠ .rsp → t.regs r = s.regs r
  below : s.regs .rsp = top
  stack : t.regs .rsp = top + 8
  frame : t.regs .rbp = saved
  flags : t.flags = s.flags
  word : s.memory.read top = saved
  memory : ∀ a, 8 ≤ distance top a → t.memory a = s.memory a

namespace Framed

variable {env : Env} {top saved : Word} {s t : State} (h : Framed top saved s t)
include h

theorem reg {r : PhysReg} (hbp : decide (r = .rbp) = false) (hsp : decide (r = .rsp) = false) :
    t.regs r = s.regs r :=
  h.regs r (of_decide_eq_false hbp) (of_decide_eq_false hsp)

theorem set {r : PhysReg} (hbp : decide (r = .rbp) = false) (hsp : decide (r = .rsp) = false) (w : Word) :
    Framed top saved (s.set r w) (t.set r w) where
  regs := by
    intro q hqbp hqsp
    by_cases hq : q = r
    · rw [hq, State.regs_set, State.regs_set]
    · rw [State.regs_set_of_ne _ _ hq, State.regs_set_of_ne _ _ hq]
      exact h.regs q hqbp hqsp
  below := (State.regs_set_of_ne _ _ (Ne.symm (of_decide_eq_false hsp))).trans h.below
  stack := (State.regs_set_of_ne _ _ (Ne.symm (of_decide_eq_false hsp))).trans h.stack
  frame := (State.regs_set_of_ne _ _ (Ne.symm (of_decide_eq_false hbp))).trans h.frame
  flags := h.flags
  word := h.word
  memory := h.memory

theorem withFlags (f : Flags) : Framed top saved { s with flags := f } { t with flags := f } :=
  { h with flags := rfl }

theorem store {a : Word} (ha : Apart a top) (w : Word) :
    Framed top saved (s.store a w) (t.store a w) where
  regs := h.regs
  below := h.below
  stack := h.stack
  frame := h.frame
  flags := h.flags
  word := (Store.read_write_apart _ _ ha).trans h.word
  memory := by
    intro b hb
    show Store.write _ _ _ b = Store.write _ _ _ b
    rw [Store.write, Store.write, h.memory b hb]

theorem read {a : Word} (ha : Apart a top) : t.memory.read a = s.memory.read a :=
  Store.read_congr a fun _ hk => h.memory _ (ha.symm.le_distance hk)

theorem address {m : Mem} (hbp : m.uses .rbp = false) (hsp : m.uses .rsp = false) :
    m.address env t = m.address env s := by
  cases m with
  | base b disp =>
    have hb := h.reg hbp hsp
    exact congrArg (· + disp) hb
  | label => rfl

theorem value {x : Arg} (hbp : x.uses .rbp = false) (hsp : x.uses .rsp = false)
    (hx : ∀ a ∈ x.touches env s, Apart a top) : x.value env t = x.value env s := by
  cases x with
  | reg r => exact h.reg hbp hsp
  | imm => rfl
  | mem m =>
    show t.memory.read (m.address env t) = _
    rw [h.address hbp hsp]
    exact h.read (hx _ mem_cons_self)

end Framed

/-! ## Instructions of a body -/

/-- Whether an instruction may stand in a body without a frame: it involves neither the frame pointer
nor the stack pointer, and it neither calls nor returns. -/
def Instr.isUnframed (i : Instr) : Bool :=
  !i.uses .rbp && !i.uses .rsp &&
    match i with
    | .push _ | .pop _ | .call _ | .ret => false
    | _ => true

theorem Arg.touches_framed {env : Env} {top saved : Word} {s t : State} (h : Framed top saved s t)
    {x : Arg} (hbp : x.uses .rbp = false) (hsp : x.uses .rsp = false) :
    x.touches env t = x.touches env s := by
  cases x with
  | mem m => exact congrArg (fun a => [a]) (h.address hbp hsp)
  | reg | imm => rfl

section Instructions

variable {env : Env} {top saved : Word} {s t : State} {i : Instr}

theorem touches_framed (h : Framed top saved s t) (hi : i.isUnframed) :
    i.touches env t = i.touches env s := by
  simp only [Instr.isUnframed, Bool.and_eq_true, Bool.not_eq_true'] at hi
  obtain ⟨⟨hbp, hsp⟩, -⟩ := hi
  cases i with
  | mov dst src =>
    obtain ⟨hdbp, hsbp⟩ := Bool.or_eq_false_iff.1 hbp
    obtain ⟨hdsp, hssp⟩ := Bool.or_eq_false_iff.1 hsp
    exact congrArg₂ (· ++ ·) (Arg.touches_framed h hdbp hdsp) (Arg.touches_framed h hsbp hssp)
  | push src => exact Arg.touches_framed h hbp hsp
  | alu op d src | cmp l src =>
    exact Arg.touches_framed h (Bool.or_eq_false_iff.1 hbp).2 (Bool.or_eq_false_iff.1 hsp).2
  | _ => rfl

/-- **An instruction of the body** keeps the states in step. -/
theorem exec_framed (h : Framed top saved s t) (hi : i.isUnframed)
    (ha : ∀ a ∈ i.touches env s, Apart a top) {s' : State} (hs : exec env i s = some s') :
    ∃ t', exec env i t = some t' ∧ Framed top saved s' t' := by
  simp only [Instr.isUnframed, Bool.and_eq_true, Bool.not_eq_true'] at hi
  obtain ⟨⟨hbp, hsp⟩, hkind⟩ := hi
  cases i with
  | mov dst src =>
    obtain ⟨hdbp, hsbp⟩ := Bool.or_eq_false_iff.1 hbp
    obtain ⟨hdsp, hssp⟩ := Bool.or_eq_false_iff.1 hsp
    have hvalue := h.value hsbp hssp fun a hmem => ha a (mem_append_right _ hmem)
    cases dst with
    | reg d =>
      cases hs
      refine ⟨_, rfl, ?_⟩
      rw [hvalue]
      exact h.set hdbp hdsp _
    | imm => cases hs
    | mem m =>
      have hapart := ha _ (mem_append_left _ mem_cons_self)
      cases src with
      | mem => cases hs
      | reg | imm =>
        cases hs
        refine ⟨_, rfl, ?_⟩
        rw [hvalue, h.address hdbp hdsp]
        exact h.store hapart _
  | lea d m =>
    obtain ⟨hdbp, hmbp⟩ := Bool.or_eq_false_iff.1 hbp
    obtain ⟨hdsp, hmsp⟩ := Bool.or_eq_false_iff.1 hsp
    cases hs
    refine ⟨_, rfl, ?_⟩
    rw [h.address hmbp hmsp]
    exact h.set hdbp hdsp _
  | movzx d r =>
    obtain ⟨hdbp, hrbp⟩ := Bool.or_eq_false_iff.1 hbp
    obtain ⟨hdsp, hrsp⟩ := Bool.or_eq_false_iff.1 hsp
    cases hs
    refine ⟨_, rfl, ?_⟩
    rw [h.reg hrbp hrsp]
    exact h.set hdbp hdsp _
  | alu op d src =>
    obtain ⟨hdbp, hsbp⟩ := Bool.or_eq_false_iff.1 hbp
    obtain ⟨hdsp, hssp⟩ := Bool.or_eq_false_iff.1 hsp
    have hd := h.reg hdbp hdsp
    cases hs
    refine ⟨_, rfl, ?_⟩
    rw [h.value hsbp hssp ha, hd]
    exact (h.set hdbp hdsp _).withFlags _
  | shift op d count =>
    obtain ⟨hdbp, -⟩ := Bool.or_eq_false_iff.1 hbp
    obtain ⟨hdsp, -⟩ := Bool.or_eq_false_iff.1 hsp
    have hd := h.reg hdbp hdsp
    cases hs
    refine ⟨_, rfl, ?_⟩
    rw [h.regs .rcx (by decide) (by decide), hd, h.flags]
    exact (h.set hdbp hdsp _).withFlags _
  | neg d =>
    have hd := h.reg hbp hsp
    cases hs
    refine ⟨_, rfl, ?_⟩
    rw [hd]
    exact (h.set hbp hsp _).withFlags _
  | not d =>
    have hd := h.reg hbp hsp
    cases hs
    refine ⟨_, rfl, ?_⟩
    rw [hd]
    exact h.set hbp hsp _
  | cqo =>
    cases hs
    refine ⟨_, rfl, ?_⟩
    rw [h.regs .rax (by decide) (by decide)]
    exact h.set (by decide) (by decide) _
  | idiv r =>
    obtain ⟨⟨quotient, remainder⟩, hdivide, hs⟩ := Option.bind_eq_some_iff.1 hs
    cases hs
    refine ⟨{ (t.set .rax quotient).set .rdx remainder with flags := .undefined }, ?_, ?_⟩
    · show (divide (t.regs .rdx) (t.regs .rax) (t.regs r)).bind _ = _
      rw [h.regs .rdx (by decide) (by decide), h.regs .rax (by decide) (by decide),
        h.reg hbp hsp, hdivide]
      rfl
    · exact ((h.set (by decide) (by decide) _).set (by decide) (by decide) _).withFlags _
  | cmp l r =>
    obtain ⟨hlbp, hrbp⟩ := Bool.or_eq_false_iff.1 hbp
    obtain ⟨hlsp, hrsp⟩ := Bool.or_eq_false_iff.1 hsp
    have hl := h.reg hlbp hlsp
    cases hs
    refine ⟨_, rfl, ?_⟩
    rw [h.value hrbp hrsp ha, hl]
    exact h.withFlags _
  | set c d =>
    obtain ⟨b, hholds, hs⟩ := Option.bind_eq_some_iff.1 hs
    cases hs
    refine ⟨t.set d (withLowByte (t.regs d) b), ?_, ?_⟩
    · show (t.flags.holds c).bind _ = _
      rw [h.flags, hholds]
      rfl
    · rw [h.reg hbp hsp]
      exact h.set hbp hsp _
  | push | pop | call | ret => cases hkind
  | jmp | jcc => cases hs

end Instructions

/-! ## Runs of a body -/

theorem linesFrom_append (name : String) (front back : List Line) :
    linesFrom name (front ++ back) =
      match linesFrom name front with
      | some rest => some (rest ++ back)
      | none => linesFrom name back := by
  induction front with
  | nil => rfl
  | cons a front ih =>
    rw [cons_append, linesFrom, linesFrom]
    split
    · rfl
    · exact ih

def framePush : List Line := [plain (.push (.reg .rbp)), plain (.mov (.reg .rbp) (.reg .rsp))]

def framePop : List Line := [.label epilogueLabel, plain (.pop .rbp), plain .ret]

/-- The second state is the same, but for what is just below the stack. -/
structure SameAbove (s t : State) : Prop where
  regs : t.regs = s.regs
  flags : t.flags = s.flags
  memory : ∀ a, 8 ≤ distance (s.regs .rsp - 8) a → t.memory a = s.memory a

theorem SameAbove.refl (s : State) : SameAbove s s := ⟨rfl, rfl, fun _ _ => rfl⟩

theorem sub_add_eight (a : Word) : a - 8 + 8 = a := Int64.sub_add_cancel a 8

theorem add_sub_eight (a : Word) : a + 8 - 8 = a := Int64.add_sub_cancel a 8

theorem Framed.pop {top saved : Word} {s t : State} (h : Framed top saved s t) :
    SameAbove ((s.set .rsp (s.regs .rsp + 8)).set .rbp (s.memory.read (s.regs .rsp))) t where
  regs := by
    funext r
    by_cases hbp : r = .rbp
    · rw [hbp, State.regs_set, h.frame, h.below, h.word]
    · rw [State.regs_set_of_ne _ _ hbp]
      by_cases hsp : r = .rsp
      · rw [hsp, State.regs_set, h.stack, h.below]
      · rw [State.regs_set_of_ne _ _ hsp, h.regs r hbp hsp]
  flags := h.flags
  memory := by
    intro a ha
    refine h.memory a ?_
    have hsp : ((s.set .rsp (s.regs .rsp + 8)).set .rbp (s.memory.read (s.regs .rsp))).regs .rsp =
        top + 8 := by
      rw [State.regs_set_of_ne _ _ (by decide), State.regs_set, h.below]
    rwa [hsp, add_sub_eight] at ha

/-- The places in a body with a frame and without it that belong together. -/
inductive FrameStep (top saved : Word) (body : List Line) : State → List Line → State → List Line → Prop
  | inside {s t : State} {rest : List Line} (h : Framed top saved s t) (hrest : rest <:+ body) :
    FrameStep top saved body s (rest ++ framePop) t (rest ++ bareReturn)
  | restore {s t : State} (h : Framed top saved s t) :
    FrameStep top saved body s [plain (.pop .rbp), plain .ret] t [plain .ret]
  | back {s t : State} (h : SameAbove s t) : FrameStep top saved body s [plain .ret] t [plain .ret]

section Body

variable {env : Env} {top saved : Word} {body : List Line} {s t : State}

/-- A label of the body or its end is found in both. -/
theorem linesFrom_frame (h : Framed top saved s t) {lines : List Line}
    (hlines : linesFrom name (framePush ++ body ++ framePop) = some lines) :
    ∃ lines', linesFrom name (body ++ bareReturn) = some lines' ∧
      FrameStep top saved body s lines t lines' := by
  have hlines : linesFrom name (body ++ framePop) = some lines := by
    rw [append_assoc, linesFrom_append] at hlines
    exact hlines
  rw [linesFrom_append] at hlines ⊢
  cases hbody : linesFrom name body with
  | some rest =>
    rw [hbody] at hlines
    cases hlines
    exact ⟨_, rfl, .inside h (linesFrom_suffix hbody)⟩
  | none =>
    rw [hbody] at hlines
    have hname : name = epilogueLabel ∧ lines = framePop := by
      by_cases hname : name = epilogueLabel
      · rw [hname] at hlines
        exact ⟨hname, (Option.some.inj hlines).symm⟩
      · have hnone : linesFrom name framePop = none := by
          simp [framePop, linesFrom, plain, Ne.symm hname]
        rw [hnone] at hlines
        cases hlines
    obtain ⟨rfl, rfl⟩ := hname
    exact ⟨bareReturn, rfl, .inside h (nil_suffix)⟩

theorem matches_jump (h : Framed top saved s t) {rest' : List Line}
    (hstep : step env (body ++ bareReturn) t rest' = jumpTo (body ++ bareReturn) t name) :
    Matches env (body ++ bareReturn) (FrameStep top saved body) SameAbove s t rest'
      (jumpTo (framePush ++ body ++ framePop) s name) := by
  rw [jumpTo]
  cases hlines : linesFrom name (framePush ++ body ++ framePop) with
  | none => trivial
  | some lines =>
    obtain ⟨lines', hlines', hnext⟩ := linesFrom_frame h hlines
    refine .inr ⟨[], t, lines', List.Subset.refl _, ?_, hnext⟩
    rw [hstep, jumpTo, hlines']

theorem matches_inside (hbody : ∀ i ∈ instrsOf body, i.isUnframed) (h : Framed top saved s t)
    {a : Line} {rest : List Line} (hrest : a :: rest <:+ body)
    (hapart : ∀ calls touched s1 rest1, step env (framePush ++ body ++ framePop) s
      (a :: rest ++ framePop) = .goes calls touched s1 rest1 → ∀ a ∈ touched, Apart a top) :
    Matches env (body ++ bareReturn) (FrameStep top saved body) SameAbove s t
      (a :: rest ++ bareReturn) (step env (framePush ++ body ++ framePop) s (a :: rest ++ framePop)) := by
  have hsuffix : rest <:+ body := (suffix_cons a rest).trans hrest
  cases a with
  | label name => exact .inr ⟨[], t, _, List.Subset.refl _, rfl, .inside h hsuffix⟩
  | instr i comment =>
    have hi : i.isUnframed :=
      hbody i (mem_filterMap.2 ⟨_, hrest.subset mem_cons_self, rfl⟩)
    by_cases hstraight : i.isStraight
    · have hstep : step env (framePush ++ body ++ framePop) s
        (.instr i comment :: (rest ++ framePop)) = _ := step_straight hstraight
      rw [cons_append, hstep] at hapart
      rw [cons_append, cons_append, hstep]
      cases hexec : exec env i s with
      | none => trivial
      | some s1 =>
        rw [hexec] at hapart
        obtain ⟨t1, hexec', h1⟩ := exec_framed h hi (hapart _ _ _ _ rfl) hexec
        refine .inr ⟨i.touches env t, t1, _, ?_, ?_, .inside h1 hsuffix⟩
        · rw [touches_framed h hi]
          exact List.Subset.refl _
        · rw [step_straight hstraight, hexec']
    · cases i with
      | jmp name => exact matches_jump h rfl
      | jcc c name =>
        have hflags := congrArg (Flags.holds · c) h.flags
        rw [cons_append, cons_append, step_jcc]
        cases hc : s.flags.holds c with
        | none => trivial
        | some taken =>
          have hct : t.flags.holds c = some taken := hflags.trans hc
          cases taken with
          | true =>
            refine matches_jump h ?_
            rw [step_jcc, hct]
          | false =>
            refine .inr ⟨[], t, _, List.Subset.refl _, ?_, .inside h hsuffix⟩
            rw [step_jcc, hct]
      | push | pop | call | ret => simp [Instr.isUnframed] at hi
      | _ => exact absurd rfl hstraight

theorem matches_frameStep (hbody : ∀ i ∈ instrsOf body, i.isUnframed) {lines lines' : List Line}
    (h : FrameStep top saved body s lines t lines')
    (hapart : ∀ calls touched s1 rest1, step env (framePush ++ body ++ framePop) s lines =
      .goes calls touched s1 rest1 → ∀ a ∈ touched, Apart a top) :
    Matches env (body ++ bareReturn) (FrameStep top saved body) SameAbove s t lines'
      (step env (framePush ++ body ++ framePop) s lines) := by
  cases h with
  | inside h hrest =>
    rename_i rest
    cases rest with
    | nil => exact .inr ⟨[], t, _, List.Subset.refl _, rfl, .restore h⟩
    | cons a rest => exact matches_inside hbody h hrest hapart
  | restore h => exact .inl ⟨rfl, .back h.pop⟩
  | back h => exact ⟨rfl, h⟩

theorem framed_start (s : State) :
    Framed (s.regs .rsp - 8) (s.regs .rbp)
      (((s.set .rsp (s.regs .rsp - 8)).store (s.regs .rsp - 8) (s.regs .rbp)).set .rbp
        (s.regs .rsp - 8)) s where
  regs := by
    intro r hbp hsp
    rw [State.regs_set_of_ne _ _ hbp, State.regs_store, State.regs_set_of_ne _ _ hsp]
  below := by
    rw [State.regs_set_of_ne _ _ (by decide), State.regs_store, State.regs_set]
  stack := (sub_add_eight _).symm
  frame := rfl
  flags := rfl
  word := Store.read_write _ _ _
  memory := by
    intro a ha
    show _ = Store.write _ _ _ a
    rw [Store.write, if_neg (Nat.not_lt.2 ha)]
    rfl

/-- **Leaving the frame out.** A body that may stand without a frame does the same without it, if it
does not access the word in which the frame pointer would be saved. -/
theorem runs_omitFrame (hbody : ∀ i ∈ instrsOf body, i.isUnframed) {trace : Trace}
    (hruns : Runs env (framePush ++ body ++ framePop) s trace)
    (hapart : ∀ a ∈ trace.touched, Apart a (s.regs .rsp - 8)) :
    ∃ trace', Runs env (body ++ bareReturn) s trace' ∧ trace'.calls = trace.calls ∧
      trace'.touched ⊆ trace.touched ∧ SameAbove trace.final trace'.final := by
  obtain ⟨fuel, hrun⟩ := hruns
  -- The first two lines are run by themselves.
  obtain ⟨fuel, rest, hrun, hcalls, htouched, hfinal⟩ : ∃ fuel rest,
      run env (framePush ++ body ++ framePop) fuel
        (((s.set .rsp (s.regs .rsp - 8)).store (s.regs .rsp - 8) (s.regs .rbp)).set .rbp
          (s.regs .rsp - 8)) (body ++ framePop) = some rest ∧
      rest.calls = trace.calls ∧ rest.touched = trace.touched ∧ rest.final = trace.final := by
    match fuel, hrun with
    | 1, hrun => cases hrun
    | fuel + 2, hrun =>
      obtain ⟨rest1, hrun1, heq1⟩ := Option.bind_eq_some_iff.1 hrun
      obtain ⟨rest, hrun2, heq⟩ := Option.bind_eq_some_iff.1 hrun1
      cases heq
      cases heq1
      exact ⟨fuel, rest, hrun2, rfl, rfl, rfl⟩
  obtain ⟨fuel', trace', hrun', hcalls', htouched', hfinal'⟩ :=
    run_follows (P := fun a => Apart a (s.regs .rsp - 8))
      (fun s lines t lines' h hapart => matches_frameStep hbody h hapart)
      (.inside (framed_start s) (suffix_refl body)) hrun (htouched ▸ hapart)
  exact ⟨trace', ⟨fuel', hrun'⟩, hcalls'.trans hcalls, htouched ▸ htouched', hfinal ▸ hfinal'⟩

end Body

/-! ## Returns in place -/

/-- The places that belong together when jumps to the epilogue become returns. -/
inductive ReturnStep (body : List Line) : List Line → List Line → Prop
  | inside {rest : List Line} (hrest : rest <:+ body) :
    ReturnStep body (rest ++ bareReturn) (rest.map returnInPlace ++ [plain .ret])
  | label (rest : List Line) : ReturnStep body bareReturn (plain .ret :: rest)
  | back (rest : List Line) : ReturnStep body [plain .ret] (plain .ret :: rest)

theorem returnInPlace_label (name : String) : returnInPlace (.label name) = .label name := rfl

theorem returnInPlace_eq_label {a : Line} (h : returnInPlace a = .label name) :
    a = .label name := by
  rw [returnInPlace] at h
  split at h
  · cases h
  · exact h

theorem linesFrom_map_returnInPlace (name : String) (body : List Line) :
    linesFrom name (body.map returnInPlace) = (linesFrom name body).map (·.map returnInPlace) := by
  induction body with
  | nil => rfl
  | cons a body ih =>
    rw [map_cons, linesFrom, linesFrom]
    by_cases ha : a = .label name
    · rw [if_pos ha, if_pos (ha ▸ returnInPlace_label name)]
      rfl
    · rw [if_neg ha, if_neg fun h => ha (returnInPlace_eq_label h), ih]

/-- **Returning in place** improves code, if the label of the epilogue is not in the body and no
conditional jump goes there. -/
theorem improves_inlineReturns {env : Env} {body : List Line}
    (hlabel : .label epilogueLabel ∉ body)
    (hjcc : ∀ c, .jcc c epilogueLabel ∉ instrsOf body) :
    Improves env (body ++ bareReturn) (body.map returnInPlace ++ [plain .ret]) := by
  have hnone : linesFrom epilogueLabel body = none := by
    cases h : linesFrom epilogueLabel body with
    | none => rfl
    | some lines =>
      obtain ⟨rest, rfl⟩ := linesFrom_head h
      exact absurd ((linesFrom_suffix h).subset mem_cons_self) hlabel
  have hback : linesFrom epilogueLabel (body ++ bareReturn) = some bareReturn := by
    rw [linesFrom_append, hnone]
    rfl
  refine .of_matches (R := fun s lines t lines' => t = s ∧ ReturnStep body lines lines')
    (fun s => ⟨rfl, .inside (suffix_refl body)⟩) ?_
  intro s lines t lines' ⟨hst, h⟩
  subst hst
  cases h with
  | label rest => exact .inl ⟨rfl, rfl, .back rest⟩
  | back rest => exact ⟨rfl, rfl⟩
  | inside hrest =>
    rename_i rest
    cases rest with
    | nil => exact .inl ⟨rfl, rfl, .back []⟩
    | cons a rest =>
      by_cases ha : a.instr?.bind Instr.jumpTarget? = some epilogueLabel
      · -- The jump is not taken, since the return is here.
        have hline : ∃ comment, a = .instr (.jmp epilogueLabel) comment := by
          cases a with
          | label => cases ha
          | instr i comment =>
            cases i with
            | jmp name =>
              cases ha
              exact ⟨comment, rfl⟩
            | _ => cases ha
        obtain ⟨comment, rfl⟩ := hline
        have hstep : step env (body ++ bareReturn) t
            (.instr (.jmp epilogueLabel) comment :: rest ++ bareReturn) =
            .goes [] [] t bareReturn := by
          show jumpTo _ _ _ = _
          rw [jumpTo, hback]
        rw [hstep]
        exact .inl ⟨rfl, rfl, .label _⟩
      · rw [map_cons, returnInPlace, if_neg ha, cons_append, cons_append]
        refine matches_same ?_ ?_
        · intro _ _ t _
          exact ⟨rfl, .inside ((suffix_cons a rest).trans hrest)⟩
        · intro name found hname hfound
          have hne : name ≠ epilogueLabel := by
            intro he
            subst he
            cases a with
            | label => cases hname
            | instr i comment =>
              have hi : i ∈ instrsOf body :=
                mem_filterMap.2 ⟨_, hrest.subset mem_cons_self, rfl⟩
              cases i with
              | jmp => exact ha hname
              | jcc c =>
                cases hname
                exact hjcc c hi
              | _ => cases hname
          rw [linesFrom_append] at hfound
          cases hbody : linesFrom name body with
          | none =>
            rw [hbody] at hfound
            have hnone : linesFrom name bareReturn = none := by
              simp [bareReturn, linesFrom, plain, Ne.symm hne]
            rw [hnone] at hfound
            cases hfound
          | some found0 =>
            rw [hbody] at hfound
            cases hfound
            refine ⟨found0.map returnInPlace ++ [plain .ret], ?_, rfl,
              .inside (linesFrom_suffix hbody)⟩
            rw [linesFrom_append, linesFrom_map_returnInPlace, hbody]
            rfl

end MxStar.Asm
