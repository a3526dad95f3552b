import MxStar.Proofs.ClosedListings
import MxStar.Proofs.FrameRuns
import MxStar.Proofs.StackArguments

/-!
Routines that follow the calling convention.

`FollowsConvention` is what the convention asks of a routine that is entered with the stack as a call
leaves it, `LaysOut` says that what it has in its frame does not overlap, and `PassesValues` that it pushes
the values of arguments. The routine of an allocated function has a frame and a leveled body
(`regular_routine`); cleaning up leaves it like that, or takes the frame away (`Bare`). Where the saved
registers are overwritten they are not restored (`frame_lost_writeFirst`).
-/
namespace MxStar.Asm

open List

open IR (Word PhysReg Func)
open Interp (Apart position)

variable {saved : List PhysReg} {i : Instr}

/-- The state in which a called function is entered: the return address has been pushed. -/
def State.enter (s : State) (address : Word) : State :=
  (s.set .rsp (s.regs .rsp - 8)).store (s.regs .rsp - 8) address

/-- The number of words of a routine below the return address, without what it pushes for calls. -/
def Routine.frameDepth (y : Routine) : Nat := 1 + (y.frameSize / 8 + y.saved.length)

/-- A run of a routine entered in a state, in which calls and stores through pointers leave the words of
its stack alone. -/
abbrev Sparing (env : Env) (y : Routine) (s : State) : State × List Line → State × List Line → Prop :=
  Spares env (s.regs .rsp) y.frameDepth y.depth

/-- What the calling convention asks of a routine that is entered in a state. -/
structure FollowsConvention (env : Env) (call : String → State → State → Prop) (y : Routine)
    (s : State) : Prop where
  /-- At every call the stack pointer is a multiple of 16. -/
  aligned : ∀ t target comment rest,
    Reaches env call y.code (s, y.code) (t, .instr (.call target) comment :: rest) →
      position (t.regs .rsp) % 16 = 0
  /-- At the return the stack pointer is back. -/
  balanced : ∀ t comment rest,
    Reaches env call y.code (s, y.code) (t, .instr .ret comment :: rest) →
      t.regs .rsp = s.regs .rsp
  /-- At the return all registers are back that have to be kept, if the stack was spared. -/
  restores : y.depth < 2 ^ 61 → ∀ t comment rest,
    Relation.ReflTransGen (GoesBy env call y.code (Sparing env y s)) (s, y.code)
      (t, .instr .ret comment :: rest) → Restores s t
  /-- The words pushed when a call is reached are read by the called function as its arguments on the
  stack, the last pushed one first. -/
  passes : ∀ u t target comment rest ws, execs env y.prologue s = some u →
    Relation.ReflTransGen (Pushing env call y.code (Sparing env y s))
      ((u, y.body ++ y.epilogue), []) ((t, .instr (.call target) comment :: rest), ws) →
    ∀ slots saved address v, (∀ r ∈ saved, r ∈ PhysReg.calleeSaved) →
      y.depth + 2 + frameWords slots saved < 2 ^ 61 →
      execs env (prologue slots saved) (t.enter address) = some v →
      ∀ k w, ws[k]? = some w → v.memory.read ((incomingPlace k).address env v) = w

/-- The places of the words of a frame: the return address, the saved frame pointer, the slots, and the
saved registers. -/
def Routine.places (slots : Nat) (y : Routine) : List Mem :=
  .base .rbp 8 :: .base .rbp 0 ::
    (List.range slots ++ List.range' (y.frameSize / 8) y.saved.length).map slotPlace

/-- The words of a frame do not overlap, and once the frame of a routine is set up that is entered in a
state, they are where what has to be kept is. -/
structure LaysOut (env : Env) (slots : Nat) (y : Routine) (s : State) : Prop where
  apart : ∀ t, ((y.places slots).map (·.address env t)).Pairwise Apart
  returns : ∀ u, execs env y.prologue s = some u → (Mem.base .rbp 8).address env u = s.regs .rsp
  link : ∀ u, execs env y.prologue s = some u →
    u.memory.read ((Mem.base .rbp 0).address env u) = s.regs .rbp
  saves : ∀ u, execs env y.prologue s = some u → ∀ i r, y.saved[i]? = some r →
    u.memory.read ((slotPlace (y.frameSize / 8 + i)).address env u) = s.regs r

/-- What a routine pushes for a call are the values of its arguments. Wherever the interpreter gets in the
first program to a call with values for its arguments, it gets in the second to a call of the same
function. If the routine is at a call, with the stack spared, in a state that agrees with the interpreter
there, then the words it has pushed are the values past the sixth, and zeros below them. -/
def PassesValues (p r : IR.Program) (env : Env) (call : String → State → State → Prop) (y : Routine)
    (s : State) : Prop :=
  ∀ id f args input c dst callee operands n rest vs, p.functions[id]? = some f →
    args.length = f.params.length → Interp.CallReaches p id args input c →
    c.frame.code = .call dst callee operands n :: rest →
    Interp.Reads c.machine c.frame operands vs →
    ∃ d zeros, Interp.CallReaches r id args input d ∧ (∀ w ∈ zeros, w = 0) ∧
      Alloc.AtCall callee (vs.drop 6 ++ zeros) d ∧
      ∀ u t target comment rest ws area, y.depth < 2 ^ 61 → execs env y.prologue s = some u →
        Relation.ReflTransGen (Pushing env call y.code (Sparing env y s))
          ((u, y.body ++ y.epilogue), []) ((t, .instr (.call target) comment :: rest), ws) →
        area.top = position (u.regs .rsp) →
        Agrees env (.ofProgram r) area d.machine d.frame t → ws = vs.drop 6 ++ zeros

section Conventions

variable {env : Env} {call : String → State → State → Prop} {slots : Nat} {y : Routine} {s : State}
  {u t : State} {target : String} {comment : Option String} {rest : List Line} {ws : List Word}

/-! ## Routines with a frame -/

theorem Regular.frameDepth_eq (hy : Regular slots y) :
    y.frameDepth = 1 + frameWords slots y.saved := by
  rw [Routine.frameDepth, hy.frameSize, Nat.mul_div_cancel _ (by decide), frameWords]

theorem Regular.depth_le (hy : Regular slots y) : 1 + frameWords slots y.saved ≤ y.depth := by
  rw [hy.depth_eq]
  exact Nat.le_add_right _ _

/-- The words pushed for a call are where the called function looks for them. -/
theorem HoldsFrame.passes {saved' : List PhysReg} {slots' : Nat} {v : State}
    (h : HoldsFrame slots saved s ws t) (hframe : InFrame slots saved s ws.length t)
    (hsaved : ∀ r ∈ saved', r ∈ PhysReg.calleeSaved)
    (hroom : 1 + frameWords slots saved + ws.length + 2 + frameWords slots' saved' < 2 ^ 61)
    {address : Word} (hv : execs env (prologue slots' saved') (t.enter address) = some v) {k : Nat}
    {w : Word} (hk : ws[k]? = some w) : v.memory.read ((incomingPlace k).address env v) = w := by
  have hlt := (List.getElem?_eq_some_iff.1 hk).1
  have htop : t.regs .rsp - 8 = below (s.regs .rsp) (1 + frameWords slots saved + ws.length + 1) := by
    rw [hframe.stack, below_succ]
  have henter : (t.enter address).regs .rsp =
      below (s.regs .rsp) (1 + frameWords slots saved + ws.length + 1) :=
    (t.regs_set .rsp _).trans htop
  -- The place of the argument, counted from the top of the caller's stack.
  have hplace : (incomingPlace k).address env v =
      below (s.regs .rsp) (1 + frameWords slots saved + ws.length - k) := by
    show v.regs .rbp + (16 + Int64.ofNat k * 8) = _
    rw [(inFrame_prologue hv).frame, henter, ← below_add,
      ← below_add_words _ (1 + frameWords slots saved + ws.length - k) (k + 2),
      show 1 + frameWords slots saved + ws.length - k + (k + 2) =
        1 + frameWords slots saved + ws.length + 1 + 1 by omega, Int64.ofNat_add]
    have htwo : (Int64.ofNat k + Int64.ofNat 2) * 8 = 16 + Int64.ofNat k * 8 := by
      show (Int64.ofNat k + 2) * 8 = 16 + Int64.ofNat k * 8
      grind
    rw [htwo]
  have hkept := (memory_of_prologue hsaved (by omega) hv).2 _ fun i hlo hhi => by
    rw [henter, ← below_add]
    exact apart_below _ (j := 1 + frameWords slots saved + ws.length - k) (by omega) (by omega)
      (by omega)
  rw [hplace, hkept]
  show (t.memory.write (t.regs .rsp - 8) address).read _ = w
  rw [htop, Interp.Store.read_write_apart _ _ (apart_below _ (by omega) (by omega) (by omega))]
  exact h.pushed k w hk

theorem Regular.spares (hy : Regular slots y) (a b : State × List Line) (h : Sparing env y s a b) :
    Spares env (s.regs .rsp) (1 + frameWords slots y.saved) y.depth a b := by
  rwa [Sparing, hy.frameDepth_eq] at h

/-- At a call of a run that spared the stack, the frame is as it was set up, with the pushed words below. -/
theorem Regular.at_spared_call (hy : Regular slots y)
    (hcall : ∀ target s t, call target s t → Restores s t) (hroom : y.depth < 2 ^ 61)
    (hu : execs env y.prologue s = some u)
    (h : Relation.ReflTransGen (Pushing env call y.code (Sparing env y s))
      ((u, y.body ++ y.epilogue), []) ((t, .instr (.call target) comment :: rest), ws)) :
    1 + frameWords slots y.saved + ws.length ≤ y.depth ∧ InFrame slots y.saved s ws.length t ∧
      HoldsFrame slots y.saved s ws t := by
  have hinside : Inside slots y s True u y.body [] := hy.inside (fun _ => hroom) hu
  obtain ⟨-, hcount, hframe, hholds⟩ :=
    hy.at_call hcall (fun _ => hroom) (fun _ => hy.spares) hinside h
  have hdepth := hy.depth_eq
  exact ⟨by omega, hframe, hholds trivial⟩

/-- **A routine with a frame follows the convention.** -/
theorem Regular.followsConvention (hy : Regular slots y)
    (hcall : ∀ target s t, call target s t → Restores s t) (hs : position (s.regs .rsp) % 16 = 8) :
    FollowsConvention env call y s := by
  have heven := frameWords_even slots y.saved
  have hfree : ∀ {a b}, Reaches env call y.code a b →
      Relation.ReflTransGen (GoesBy env call y.code fun _ _ => True) a b := fun h =>
    Relation.ReflTransGen.mono (fun _ _ hgoes => ⟨hgoes, trivial⟩) _ _ h
  refine ⟨fun t target comment rest h => ?_, fun t comment rest h => ?_,
    fun hroom t comment rest h => ?_, ?_⟩
  · obtain ⟨u, hu, h⟩ := hy.exists_body rfl (hfree h)
    obtain ⟨ws, h⟩ := exists_pushing h []
    have hinside : Inside slots y s False u y.body [] := hy.inside False.elim hu
    obtain ⟨hws, -, hframe, -⟩ := hy.at_call hcall False.elim False.elim hinside h
    rw [hframe.stack]
    exact position_below_aligned hs (by omega)
  · obtain ⟨u, hu, h⟩ := hy.exists_body rfl (hfree h)
    obtain ⟨ws, h⟩ := exists_pushing h []
    have hinside : Inside slots y s False u y.body [] := hy.inside False.elim hu
    exact (hy.at_ret hcall False.elim False.elim hinside h).1
  · obtain ⟨u, hu, h⟩ := hy.exists_body rfl h
    obtain ⟨ws, h⟩ := exists_pushing h []
    have hinside : Inside slots y s True u y.body [] := hy.inside (fun _ => hroom) hu
    have hback := hy.at_ret hcall (fun _ => hroom) (fun _ => hy.spares) hinside h
    exact ⟨hback.1, hback.2 trivial⟩
  · intro u t target comment rest ws hu h slots' saved' address v hsaved hroom hv k w hk
    obtain ⟨hdepth, hframe, hholds⟩ := hy.at_spared_call hcall (by omega) hu h
    exact hholds.passes hframe hsaved (by omega) hv hk

theorem ofNat_position_sub {top : Word} {n : Nat} (h : 8 * n ≤ position top) :
    Int64.ofNat (position top - 8 * n) = below top n := by
  have hlt := Interp.position_lt top
  refine Interp.position_inj ?_
  rw [Interp.position_ofNat, position_below]
  omega

/-- **The words a routine has pushed are those of the interpreter**, in a state that agrees with it. -/
theorem Regular.eq_pushed (hy : Regular slots y)
    (hcall : ∀ target s t, call target s t → Restores s t) (hroom : y.depth < 2 ^ 61)
    (hu : execs env y.prologue s = some u)
    (h : Relation.ReflTransGen (Pushing env call y.code (Sparing env y s))
      ((u, y.body ++ y.epilogue), []) ((t, .instr (.call target) comment :: rest), ws))
    {syms : Symbols} {area : Area} {m : Interp.Machine} {fr : Interp.Frame}
    (htop : area.top = position (u.regs .rsp)) (hagrees : Agrees env syms area m fr t) :
    ws = fr.pushed := by
  obtain ⟨hdepth, hframe, hholds⟩ := hy.at_spared_call hcall hroom hu h
  have hinside : Inside slots y s True u y.body [] := hy.inside (fun _ => hroom) hu
  have hbase : u.regs .rsp = below (s.regs .rsp) (1 + frameWords slots y.saved) := hinside.frame.stack
  have hsp : t.regs .rsp = below (u.regs .rsp) ws.length := by
    rw [hframe.stack, hbase, below_add]
  have hstack := hagrees.stack
  -- The stack pointer tells how many words there are.
  have hlen : ws.length = fr.pushed.length := by
    have hlt := Interp.position_lt (u.regs .rsp)
    rw [hsp, htop, position_below] at hstack
    omega
  refine List.ext_getElem? fun k => ?_
  by_cases hk : k < ws.length
  · have hpushed : fr.pushed.reverse[fr.pushed.length - 1 - k]? = some fr.pushed[k] := by
      rw [List.getElem?_reverse (by omega),
        show fr.pushed.length - 1 - (fr.pushed.length - 1 - k) = k by omega]
      exact List.getElem?_eq_getElem _
    have hread := hagrees.pushed _ _ hpushed
    have hplace : area.pushed (fr.pushed.length - 1 - k) =
        below (s.regs .rsp) (1 + frameWords slots y.saved + ws.length - k) := by
      rw [Area.pushed, htop, show fr.pushed.length - 1 - k + 1 = ws.length - k by omega,
        ofNat_position_sub (by omega), hbase, ← below_add]
      congr 1
      omega
    rw [hplace, hholds.pushed k _ (List.getElem?_eq_getElem hk)] at hread
    rw [List.getElem?_eq_getElem hk, hread]
    exact (List.getElem?_eq_getElem _).symm
  · rw [List.getElem?_eq_none (by omega), List.getElem?_eq_none (by omega)]

/-- **What a routine has in its frame does not overlap.** -/
theorem Regular.laysOut (hy : Regular slots y) (hroom : y.depth < 2 ^ 61) : LaysOut env slots y s := by
  have hwords : y.frameSize / 8 = paddedSlots slots y.saved.length := by
    rw [hy.frameSize, Nat.mul_div_cancel _ (by decide)]
  have hdepth := hy.depth_le
  have hle := slots_le_paddedSlots slots y.saved.length
  rw [frameWords] at hdepth
  -- Counted from the return address, the words have different numbers.
  let numbers := 0 :: 1 ::
    (List.range slots ++ List.range' (y.frameSize / 8) y.saved.length).map fun k => 1 + (k + 1)
  have hbelow : ∀ t : State, (y.places slots).map (·.address env t) =
      numbers.map (below (t.regs .rbp + 8)) := by
    intro t
    have hone : below (t.regs .rbp + 8) 1 = t.regs .rbp := by
      rw [below_succ, below_zero]
      grind
    have hplaces : (y.places slots).map (·.address env t) = (t.regs .rbp + 8) :: (t.regs .rbp + 0) ::
        ((List.range slots ++ List.range' (y.frameSize / 8) y.saved.length).map slotPlace).map
          (·.address env t) := rfl
    rw [hplaces, map_cons, map_cons, below_zero, hone, Int64.add_zero, map_map,
      map_map]
    refine congrArg (_ :: _ :: ·) (map_congr_left fun k _ => ?_)
    show (slotPlace k).address env t = below (t.regs .rbp + 8) (1 + (k + 1))
    rw [address_slotPlace, below_add _ 1, hone]
  have hsaved : ∀ i ∈ List.range' (y.frameSize / 8) y.saved.length,
      paddedSlots slots y.saved.length ≤ i ∧
        i < paddedSlots slots y.saved.length + y.saved.length := by
    intro i hi
    rw [hwords] at hi
    exact mem_range'_1.1 hi
  have hnodup : numbers.Nodup := by
    refine nodup_cons.2 ⟨by simp, nodup_cons.2 ⟨by simp, ?_⟩⟩
    refine (List.Nodup.map fun i j hij => by omega) ?_
    refine nodup_append'.2 ⟨nodup_range, nodup_range', fun i hi hi' => ?_⟩
    have hlt := mem_range.1 hi
    have hge := (hsaved i hi').1
    omega
  have hlt : ∀ i ∈ numbers, i < 2 ^ 61 := by
    intro i hi
    rcases mem_cons.1 hi with rfl | hi
    · decide
    rcases mem_cons.1 hi with rfl | hi
    · decide
    obtain ⟨k, hk, rfl⟩ := mem_map.1 hi
    rcases mem_append.1 hk with hk | hk
    · have hlt := mem_range.1 hk
      omega
    · have hlt := (hsaved k hk).2
      omega
  have hset : ∀ u, execs env y.prologue s = some u →
      u.regs .rbp = below (s.regs .rsp) 1 ∧ HoldsFrame slots y.saved s [] u := by
    intro u hu
    have hinside : Inside slots y s True u y.body [] := hy.inside (fun _ => hroom) hu
    exact ⟨hinside.frame.frame, hinside.holds trivial⟩
  refine ⟨fun t => ?_, fun u hu => ?_, fun u hu => ?_, fun u hu i r hi => ?_⟩
  · rw [hbelow]
    exact pairwise_apart_below _ hnodup hlt
  · show u.regs .rbp + 8 = s.regs .rsp
    rw [(hset u hu).1, below_succ, below_zero]
    grind
  · show u.memory.read (u.regs .rbp + 0) = s.regs .rbp
    rw [Int64.add_zero, (hset u hu).1]
    exact (hset u hu).2.link
  · rw [address_slotPlace, (hset u hu).1, ← below_add, hwords]
    have hreg := (hset u hu).2.regs i r hi
    rwa [show 2 + paddedSlots slots y.saved.length + i =
      1 + (paddedSlots slots y.saved.length + i + 1) by omega] at hreg

/-! ## Routines without a frame -/

/-- A routine without a frame, whose body neither calls nor uses the stack. -/
structure Bare (y : Routine) : Prop where
  prologue : y.prologue = []
  epilogue : y.epilogue = [plain .ret]
  body : ∀ i ∈ instrsOf y.body, i = .ret ∨ i.branchTarget?.isSome = true ∨
    i.isStraight = true ∧ .rsp ∉ i.writes ∧ ∀ r ∈ keptRegs, r ∉ i.writes

theorem Bare.mem_code (hy : Bare y) (hi : i ∈ instrsOf y.code) : i = .ret ∨
    i.branchTarget?.isSome = true ∨
      i.isStraight = true ∧ .rsp ∉ i.writes ∧ ∀ r ∈ keptRegs, r ∉ i.writes := by
  rw [Routine.code, hy.prologue, hy.epilogue, instrsOf_append] at hi
  rcases mem_append.1 hi with hi | hi
  · exact hy.body i hi
  · exact .inl (mem_singleton.1 hi)

theorem Bare.restores (hy : Bare y) {b : State × List Line}
    (h : Reaches env call y.code (s, y.code) b) : b.2 <:+ y.code ∧ Restores s b.1 := by
  induction h with
  | refl => exact ⟨suffix_refl _, rfl, fun _ _ => rfl⟩
  | @tail b c _ hstep ih =>
    obtain ⟨t, lines⟩ := b
    obtain ⟨t', lines'⟩ := c
    obtain ⟨hsuffix, hback⟩ := ih
    cases lines with
    | nil =>
      cases hstep with
      | line h => cases h
    | cons a rest =>
      have hrest : rest <:+ y.code := (suffix_cons a rest).trans hsuffix
      cases a with
      | label name =>
        obtain ⟨rfl, rfl⟩ := goes_label hstep
        exact ⟨hrest, hback⟩
      | instr i comment =>
        have hmem : i ∈ instrsOf y.code := mem_instrsOf.2 ⟨comment, hsuffix.subset mem_cons_self⟩
        obtain rfl | hjump | ⟨hstraight, hsp, hkept⟩ := hy.mem_code hmem
        · exact (not_goes_ret hstep).elim
        · obtain ⟨rfl, rfl | ⟨name, hfound⟩⟩ := goes_branch hjump hstep
          · exact ⟨hrest, hback⟩
          · exact ⟨linesFrom_suffix hfound, hback⟩
        · obtain ⟨hexec, rfl⟩ := goes_straight hstraight hstep
          exact ⟨hrest, (regs_of_exec hexec hsp).trans hback.1,
            fun r hr => (regs_of_exec hexec (hkept r hr)).trans (hback.2 r hr)⟩

theorem Bare.not_at_call (hy : Bare y) :
    ¬Reaches env call y.code (s, y.code) (t, .instr (.call target) comment :: rest) := by
  intro h
  have hmem : .call target ∈ instrsOf y.code :=
    mem_instrsOf.2 ⟨comment, (hy.restores h).1.subset mem_cons_self⟩
  obtain heq | hjump | ⟨hstraight, -⟩ := hy.mem_code hmem
  · cases heq
  · cases hjump
  · cases hstraight

theorem Bare.not_pushing (hy : Bare y) : ¬Relation.ReflTransGen
      (Pushing env call y.code (Sparing env y s)) ((u, y.body ++ y.epilogue), [])
      ((t, .instr (.call target) comment :: rest), ws) := by
  intro h
  have hcode : y.code = y.body ++ y.epilogue := by
    rw [Routine.code, hy.prologue]
    rfl
  have hrun : Reaches env call y.code (u, y.code) (t, .instr (.call target) comment :: rest) := by
    nth_rewrite 2 [hcode]
    exact Relation.ReflTransGen.lift (p := Goes env call y.code) Prod.fst
      (fun _ _ hgoes => hgoes.1.1) _ _ h
  exact hy.not_at_call hrun

/-- **A routine without a frame follows the convention**: it does not call, and it leaves the registers
alone. -/
theorem Bare.followsConvention (hy : Bare y) : FollowsConvention env call y s := by
  refine ⟨fun t target comment rest h => (hy.not_at_call h).elim,
    fun t comment rest h => (hy.restores h).2.1, fun _ t comment rest h => ?_, ?_⟩
  · have hrun : Reaches env call y.code (s, y.code) (t, .instr .ret comment :: rest) :=
      Relation.ReflTransGen.mono (fun _ _ hgoes => hgoes.1) _ _ h
    exact (hy.restores hrun).2
  · intro u t target comment rest ws hu h
    exact (hy.not_pushing h).elim

/-! ## Routines of allocated functions -/

section Routines

variable {syms : Symbols} {f : Func} {x : Routine}

theorem mem_savedBy {body : List Line} {r : PhysReg} :
    r ∈ savedBy body ↔ r ∈ PhysReg.calleeSaved ∧ ∃ i ∈ instrsOf body, i.uses r = true := by
  rw [savedBy, List.mem_filter, any_eq_true]

theorem uses_of_mem_writes {r : PhysReg} (hr : r ∈ PhysReg.calleeSaved) (h : r ∈ i.writes) :
    i.uses r = true := by
  cases i with
  | mov d a =>
    cases d with
    | reg d =>
      obtain rfl := mem_singleton.1 h
      simp [Instr.uses, Arg.uses]
    | mem | imm => cases h
  | lea | movzx | alu | shift | neg | not | set =>
    obtain rfl := mem_singleton.1 h
    simp [Instr.uses]
  | push =>
    obtain rfl := mem_singleton.1 h
    exact absurd rfl (ne_pointers_of_calleeSaved hr).1
  | pop d =>
    obtain rfl | h := mem_cons.1 h
    · exact absurd rfl (ne_pointers_of_calleeSaved hr).1
    · obtain rfl := mem_singleton.1 h
      simp [Instr.uses]
  | cqo =>
    obtain rfl := mem_singleton.1 h
    exact absurd hr (by decide)
  | idiv =>
    obtain rfl | h := mem_cons.1 h
    · exact absurd hr (by decide)
    · obtain rfl := mem_singleton.1 h
      exact absurd hr (by decide)
  | cmp | jmp | jcc | call | ret => cases h

/-- **The routine of an allocated function has a frame that its body leaves alone.** -/
theorem regular_routine (hf : Alloc.Emittable f) (hkeeps : f.Every (Alloc.KeepsStack f.slots))
    (hx : routine syms f = .ok x) : Regular f.slots x := by
  obtain ⟨body, hbody, hx⟩ := Except.bind_eq_ok.1 hx
  cases hx
  refine ⟨rfl, rfl, rfl, fun r hr => (mem_savedBy.1 hr).1, ?_⟩
  refine (leveled_body hf hkeeps hbody).mono fun i hi hsteady => ⟨hsteady, fun r hr hwrites => ?_⟩
  exact mem_savedBy.2 ⟨hr, i, hi, uses_of_mem_writes hr hwrites⟩

theorem not_tame_jmp {slots : Nat} (name : String) : ¬Tame slots saved (.jmp name) := by
  intro h
  cases h.1.straight

theorem Tame.mov {slots : Nat} (d : PhysReg) (a b : Arg) (h : Tame slots saved (.mov (.reg d) a)) :
    Tame slots saved (.mov (.reg d) b) := by
  have hd : d ≠ .rsp ∧ d ≠ .rbp := by
    have hpointers := h.1.pointers
    simp only [Instr.writes, mem_singleton] at hpointers
    exact ⟨Ne.symm hpointers.1, Ne.symm hpointers.2⟩
  exact ⟨steady_mov_reg hd, h.2⟩

theorem Regular.straightened {slots : Nat} (hx : Regular slots x) : Regular slots (straightened x) :=
  ⟨hx.prologue, hx.epilogue, hx.frameSize, hx.saved,
    Leveled.straightened not_tame_jmp Tame.mov hx.leveled⟩

/-- The instructions of leveled lines: what concerns the stack is not among those that need no frame. -/
theorem Leveled.mem_cases {P : Instr → Prop} {n : Nat} {lines : List Line} (h : Leveled P n lines)
    (hi : i ∈ instrsOf lines) : P i ∨ i.branchTarget?.isSome = true ∨ i.isUnframed = false := by
  induction h with
  | nil => cases hi
  | label _ _ ih => exact ih hi
  | push _ _ _ ih | call _ _ _ _ ih =>
    rcases mem_cons.1 hi with rfl | hi
    · exact .inr (.inr (Bool.and_false _))
    · exact ih hi
  | release _ _ ih =>
    rcases mem_cons.1 hi with rfl | hi
    · exact .inr (.inr rfl)
    · exact ih hi
  | jump _ hjump _ ih =>
    rcases mem_cons.1 hi with rfl | hi
    · exact .inr (.inl hjump)
    · exact ih hi
  | other _ hP _ ih =>
    rcases mem_cons.1 hi with rfl | hi
    · exact .inl hP
    · exact ih hi

/-- Where nothing is saved, an instruction that needs no frame leaves all registers alone that have to be
kept. -/
theorem Regular.unframed_cases {slots : Nat} (hx : Regular slots x) (hsaved : x.saved = [])
    (hi : i ∈ instrsOf x.body) (hunframed : i.isUnframed = true) : i.branchTarget?.isSome = true ∨
      i.isStraight = true ∧ .rsp ∉ i.writes ∧ ∀ r ∈ keptRegs, r ∉ i.writes := by
  obtain ⟨hsteady, hkeeps⟩ | hjump | hframed := hx.leveled.mem_cases hi
  · refine .inr ⟨hsteady.straight, hsteady.pointers.1, fun r hr hwrites => ?_⟩
    rcases mem_cons.1 hr with rfl | hr
    · exact hsteady.pointers.2 hwrites
    · have hmem := hkeeps r hr hwrites
      rw [hsaved] at hmem
      cases hmem
  · exact .inl hjump
  · rw [hunframed] at hframed
    cases hframed

theorem saved_of_isFrameless (h : isFrameless x = true) : x.saved = [] := by
  simp only [isFrameless, Bool.and_eq_true, List.isEmpty_iff] at h
  exact h.1.2

/-- **Cleaning up keeps a routine regular, or takes its frame away.** -/
theorem regular_or_bare {slots : Nat} (horderly : Orderly x)
    (hpush : x.isLeaf = true → ∀ v, .push v ∉ instrsOf x.body) (hx : Regular slots x) :
    Regular slots (cleanRoutine x) ∨ Bare (cleanRoutine x) := by
  have hregular := hx.straightened
  by_cases hframeless : isFrameless (Asm.straightened x) = true
  · right
    have hleaf : x.isLeaf = true := by
      simp only [isFrameless, Bool.and_eq_true] at hframeless
      exact hframeless.1.1.1
    have hunframed := horderly.straightened.isUnframed
      (Orderly.push_not_mem_straightened (hpush hleaf)) hframeless
    rw [cleanRoutine_of_frameless hframeless]
    refine ⟨rfl, rfl, fun i hi => ?_⟩
    rw [instrsOf_dropLabels] at hi
    obtain ⟨comment, hmem⟩ := mem_instrsOf.1 hi
    obtain ⟨a, ha, heq⟩ := mem_map.1 hmem
    rw [returnInPlace] at heq
    split at heq
    · cases heq
      exact .inl rfl
    subst heq
    have hi : i ∈ instrsOf (Asm.straightened x).body := mem_instrsOf.2 ⟨comment, ha⟩
    exact .inr (hregular.unframed_cases (saved_of_isFrameless hframeless) hi (hunframed i hi))
  · left
    rw [horderly.cleanRoutine_of_framed hframeless]
    exact ⟨hregular.prologue, hregular.epilogue, hregular.frameSize, hregular.saved,
      Leveled.dropLabels not_tame_jmp hregular.leveled⟩

/-- **What is pushed for a call are the values of its arguments past the sixth.** -/
theorem passesValues {p q r : IR.Program} (hp : p.Complete) (hcalls : Alloc.CallsMatch p)
    (hq : Alloc.conventional p = .ok q) {palette : List PhysReg}
    (hpal : ∀ r ∈ palette, r ∈ PhysReg.allocatable) {stats : List Alloc.Stats}
    (hr : Alloc.allocated palette q = .ok (r, stats)) (hy : Regular slots y ∨ Bare y)
    (hcall : ∀ target s t, call target s t → Restores s t) : PassesValues p r env call y s := by
  intro id f args input c dst callee operands n rest vs hf hargs hc hcode hreads
  have hwell := Alloc.wellFormed_of_complete hp hcalls
  have hno := Alloc.noPhysRegs_of_complete hp
  obtain ⟨c', zeros, hc', hzeros, hat⟩ := Alloc.exists_atCall_conventional hwell hno
    (Alloc.noStackUse_of_complete hp) hq hf hargs hc hcode hreads
  obtain ⟨d, hd, hat⟩ := Alloc.exists_atCall_allocated hwell hno hq hf hargs hpal hr hc' hat
  refine ⟨d, zeros, hd, hzeros, hat, ?_⟩
  intro u t target comment rest ws area hroom hu hrun htop hagrees
  obtain hy | hy := hy
  · exact (hy.eq_pushed hcall hroom hu hrun htop hagrees).trans hat.2
  · exact (hy.not_pushing hrun).elim

end Routines

end Conventions

end MxStar.Asm

namespace MxStar

open IR (Program Func PhysReg)
open Asm (Env State Restores FollowsConvention LaysOut PassesValues)
open Interp (position)

def routinesOf (tree : Tree.Program) : Except CompileError (List Asm.Routine) := do
  let scope ← Scope.ofProgram tree
  let unit ← Lowering.lowerProgram scope tree
  let q ← Alloc.conventional unit
  let x ← Alloc.allocated PhysReg.allocatable q
  x.1.functions.toList.mapM (Asm.routine (.ofProgram x.1))

theorem exists_of_routinesOf {tree : Tree.Program} {P : Asm.Routine → Bool}
    (h : (do return (← routinesOf tree).any P) = Except.ok true) : ∃ scope unit q p stats f x,
      Scope.ofProgram tree = .ok scope ∧ Lowering.lowerProgram scope tree = .ok unit ∧
      Alloc.conventional unit = .ok q ∧ Alloc.allocated PhysReg.allocatable q = .ok (p, stats) ∧
      f ∈ p.functions ∧ Asm.routine (.ofProgram p) f = .ok x ∧ P x = true := by
  obtain ⟨xs, hxs, h⟩ := Except.bind_eq_ok.1 h
  obtain ⟨scope, hscope, hxs⟩ := Except.bind_eq_ok.1 hxs
  obtain ⟨unit, hunit, hxs⟩ := Except.bind_eq_ok.1 hxs
  obtain ⟨q, hq, hxs⟩ := Except.bind_eq_ok.1 hxs
  obtain ⟨⟨p, stats⟩, hp, hxs⟩ := Except.bind_eq_ok.1 hxs
  obtain ⟨x, hx, hP⟩ := List.any_eq_true.1 (Except.ok.inj h)
  obtain ⟨k, hk⟩ := List.getElem?_of_mem hx
  obtain ⟨f, hf, hroutine⟩ := Alloc.forall₂_getElem? (mapM_eq_ok_iff.1 hxs).flip hk
  exact ⟨scope, unit, q, p, stats, f, x, hscope, hunit, hq, hp,
    Array.mem_toList_iff.1 (List.mem_of_getElem? hf), hroutine, hP⟩

/-- A function of eight parameters, and a `main` that calls it. -/
def eightArguments : Tree.Program :=
  let last := Tree.Expr.named "h" .int
  let names := ["a", "b", "c", "d", "e", "f", "g", "h"]
  let pick : Tree.FuncDecl := {
    name := "pick", ret := .int, params := names.map (⟨·, .int⟩)
    body := [.giveBack (some last) {}] }
  let main : Tree.FuncDecl := {
    name := "main", ret := .int, params := []
    body := [.giveBack (some (.ofCall "pick" ([1, 2, 3, 4, 5, 6, 7, 8].map .ofInt) .int)) {}] }
  { decls := [.func pick, .func main] }

/-- A state in which a function is entered, with the stack as a call leaves it. -/
def enteredState (argument : IR.Word) : State := (Asm.startState argument).set .rsp 4104

/-- A function that writes the first element of an array and then calls `main`. -/
def writeFirst : Tree.Program :=
  let first := Tree.Expr.ofIndex (.named "a" (.array .int)) (.ofInt 0)
  let write : Tree.FuncDecl := {
    name := "write", ret := .void, params := [⟨"a", .array .int⟩]
    body := [.expr (.ofAssign first (.ofInt 5)), .expr (.ofCall "main" [] .int)] }
  let main : Tree.FuncDecl := { name := "main", ret := .int, params := [], body := [] }
  { decls := [.func write, .func main] }

/-- Calls leave registers alone, and overwrite the word that the frame pointer points to. -/
def meddlingEnv : Env := ⟨fun _ => 0, fun _ s => s.store (s.regs .rbp) 5⟩

/-- A routine returns with another frame pointer, though what it calls restores the registers. -/
def LosesFrame (env : Env) (y : Asm.Routine) (s : State) : Prop :=
  (∀ target s, Restores s (env.call target s)) ∧ position (s.regs .rsp) % 16 = 8 ∧
    ∃ t comment rest, Asm.Reaches env (fun target s t => t = env.call target s) y.code (s, y.code)
      (t, .instr .ret comment :: rest) ∧ t.regs .rbp ≠ s.regs .rbp

theorem losesFrame_of_run {env : Env} {y : Asm.Routine} {argument : IR.Word}
    (henv : ∀ target s, Restores s (env.call target s))
    (h : Asm.frameAtReturn env (enteredState argument) y.code = some 5) :
    LosesFrame env y (enteredState argument) := by
  obtain ⟨trace, hrun, hframe⟩ := Option.map_eq_some_iff.1 h
  obtain ⟨comment, rest, hreach⟩ := Asm.reaches_of_run hrun
  have haligned : position (4104 : IR.Word) % 16 = 8 := by decide
  refine ⟨henv, haligned, trace.final, comment, rest, hreach, ?_⟩
  rw [hframe]
  show (5 : IR.Word) ≠ 7
  decide

end MxStar
