import MxStar.Proofs.SelectedBlocks
import MxStar.Proofs.StackFrames

/-!
What a routine does to its stack.

While the body runs, the pointers are where the number of pushed words says, whatever is written to memory
(`InFrame`). As long as no store through a pointer and no call writes to the words of the frame (`Spares`),
they keep what was saved in them (`HoldsFrame`). Both follow from what one line does (`Inside.step`).
-/
namespace MxStar.Asm

open List

open IR (Word PhysReg)
open Interp (Store Apart position)

variable {comment : Option String} {name : String} {i : Instr} {u : State}

/-! ## Steps of the machine -/

section Steps

variable {env : Env} {call : String → State → State → Prop} {code : List Line} {s t : State}
  {rest lines : List Line} {comment : Option String}

theorem goes_label (h : Goes env call code (s, .label name :: rest) (t, lines)) :
    t = s ∧ lines = rest := by
  cases h with
  | line h =>
    cases h
    exact ⟨rfl, rfl⟩

theorem goes_straight (hi : i.isStraight = true)
    (h : Goes env call code (s, .instr i comment :: rest) (t, lines)) :
    exec env i s = some t ∧ lines = rest := by
  cases h with
  | line h =>
    rw [step_straight hi] at h
    cases hexec : exec env i s with
    | none =>
      rw [hexec] at h
      cases h
    | some u =>
      rw [hexec] at h
      cases h
      exact ⟨rfl, rfl⟩
  | call => cases hi

theorem goes_call {target : String}
    (h : Goes env call code (s, .instr (.call target) comment :: rest) (t, lines)) :
    call target s t ∧ lines = rest := by
  cases h with
  | line h => cases h
  | call h => exact ⟨h, rfl⟩

theorem jumpTo_eq_goes {calls : List (String × State)} {touched : List Word}
    (h : jumpTo code s name = .goes calls touched t lines) :
    t = s ∧ linesFrom name code = some lines := by
  rw [jumpTo] at h
  cases hfound : linesFrom name code with
  | none =>
    rw [hfound] at h
    cases h
  | some found =>
    rw [hfound] at h
    cases h
    exact ⟨rfl, rfl⟩

theorem goes_branch (hi : i.branchTarget?.isSome = true)
    (h : Goes env call code (s, .instr i comment :: rest) (t, lines)) :
    t = s ∧ (lines = rest ∨ ∃ name, linesFrom name code = some lines) := by
  cases h with
  | call => cases hi
  | line h =>
    cases i with
    | jmp name =>
      obtain ⟨rfl, hfound⟩ := jumpTo_eq_goes h
      exact ⟨rfl, .inr ⟨name, hfound⟩⟩
    | jcc c name =>
      cases hc : s.flags.holds c with
      | none =>
        rw [step, hc] at h
        cases h
      | some b =>
        rw [step, hc] at h
        cases b with
        | true =>
          obtain ⟨rfl, hfound⟩ := jumpTo_eq_goes h
          exact ⟨rfl, .inr ⟨name, hfound⟩⟩
        | false =>
          cases h
          exact ⟨rfl, .inl rfl⟩
    | _ => cases hi

theorem not_goes_ret (h : Goes env call code (s, .instr .ret comment :: rest) (t, lines)) : False := by
  cases h with
  | line h => cases h

/-- A run through lines without jumps and calls is still among them, or has executed them all. -/
theorem reaches_straight {G : State × List Line → State × List Line → Prop}
    (hG : ∀ a b, G a b → Goes env call code a b) {pre : List Line}
    (hpre : ∀ i ∈ instrsOf pre, i.isStraight = true)
    (h : Relation.ReflTransGen G (s, pre ++ rest) (t, lines)) :
    (∃ done todo, pre = done ++ todo ∧ todo ≠ [] ∧ lines = todo ++ rest ∧
      execs env done s = some t) ∨
    ∃ u, execs env pre s = some u ∧ Relation.ReflTransGen G (u, rest) (t, lines) := by
  induction pre generalizing s with
  | nil => exact .inr ⟨s, rfl, h⟩
  | cons a pre ih =>
    rcases Relation.ReflTransGen.cases_head h with heq | ⟨⟨u, lines'⟩, hstep, h⟩
    · cases heq
      exact .inl ⟨[], a :: pre, rfl, by simp, rfl, rfl⟩
    · have hgoes := hG _ _ hstep
      -- Whatever the line is, it leads to the next one, and does what it does on its own.
      have hexecs : lines' = pre ++ rest ∧ ∀ more, execs env (a :: more) s = execs env more u := by
        cases a with
        | label name =>
          obtain ⟨rfl, rfl⟩ := goes_label hgoes
          exact ⟨rfl, fun _ => rfl⟩
        | instr i comment =>
          obtain ⟨hexec, rfl⟩ := goes_straight (hpre i mem_cons_self) hgoes
          refine ⟨rfl, fun more => ?_⟩
          rw [execs, hexec]
          rfl
      obtain ⟨rfl, hexecs⟩ := hexecs
      have hpre' : ∀ i ∈ instrsOf pre, i.isStraight = true := by
        intro i hi
        obtain ⟨comment, hmem⟩ := mem_instrsOf.1 hi
        exact hpre i (mem_instrsOf.2 ⟨comment, mem_cons_of_mem _ hmem⟩)
      rcases ih hpre' h with ⟨done, todo, rfl, htodo, rfl, hdone⟩ | ⟨v, hv, h⟩
      · exact .inl ⟨a :: done, todo, rfl, htodo, rfl, (hexecs done).trans hdone⟩
      · exact .inr ⟨v, (hexecs pre).trans hv, h⟩

end Steps

/-! ## Routines with a frame -/

def pushCount (lines : List Line) : Nat :=
  (instrsOf lines).countP fun
    | .push _ => true
    | _ => false

def Routine.depth (y : Routine) : Nat := 1 + (y.frameSize / 8 + y.saved.length) + pushCount y.body

/-- An instruction of a body that does not concern the stack, and writes no register that has to be
saved and is not. -/
def Tame (slots : Nat) (saved : List PhysReg) (i : Instr) : Prop :=
  Steady slots i ∧ ∀ r ∈ PhysReg.calleeSaved, r ∈ i.writes → r ∈ saved

/-- A routine with a frame, and a body that leaves the frame alone. -/
structure Regular (slots : Nat) (y : Routine) : Prop where
  prologue : y.prologue = Asm.prologue slots y.saved
  epilogue : y.epilogue = Asm.epilogue slots y.saved
  frameSize : y.frameSize = paddedSlots slots y.saved.length * 8
  saved : ∀ r ∈ y.saved, r ∈ PhysReg.calleeSaved
  leveled : Leveled (Tame slots y.saved) 0 y.body

theorem Regular.depth_eq {slots : Nat} {y : Routine} (h : Regular slots y) :
    y.depth = 1 + frameWords slots y.saved + pushCount y.body := by
  rw [Routine.depth, h.frameSize, Nat.mul_div_cancel _ (by decide), frameWords]

/-! ## Runs through a body -/

/-- A function that returns in the second state gives back the stack pointer and the registers that it
has to keep. -/
def Restores (s t : State) : Prop := t.regs .rsp = s.regs .rsp ∧ ∀ r ∈ keptRegs, t.regs r = s.regs r

/-- What a step does with a stack that starts below an address: a store through a pointer keeps clear of
the first `depth` words, and a call leaves the first `frame` of them as they are. -/
def Spares (env : Env) (top : Word) (frame depth : Nat) :
    State × List Line → State × List Line → Prop
  | (s, .instr (.mov (.mem m) _) _ :: _), _ => m.uses .rbp = false →
      ∀ i, 1 ≤ i → i ≤ depth → Apart (m.address env s) (below top i)
  | (s, .instr (.call _) _ :: _), (t, _) =>
      ∀ i, 1 ≤ i → i ≤ frame → t.memory.read (below top i) = s.memory.read (below top i)
  | _, _ => True

/-- The words on the stack after a line, if `ws` were there before, the last one first. A function that
is called may change the words that were pushed for it. -/
def pushedAfter (env : Env) (s : State) (lines : List Line) (t : State) (ws : List Word) : List Word :=
  match lines with
  | .instr (.push a) _ :: _ => a.value env s :: ws
  | .instr (.call _) _ :: _ =>
    (List.range ws.length).map fun k => t.memory.read (t.regs .rsp + Int64.ofNat k * 8)
  | .instr (.alu .add .rsp _) _ :: _ => []
  | _ => ws

/-- The machine is in the body of a routine that was entered in the state `s`, before the lines `rest`,
with the words `ws` pushed. If the stack was spared, memory holds what it should. -/
structure Inside (slots : Nat) (y : Routine) (s : State) (spared : Prop) (t : State) (rest : List Line)
    (ws : List Word) : Prop where
  suffix : rest <:+ y.body
  leveled : Leveled (Tame slots y.saved) ws.length rest
  count : ws.length + pushCount rest ≤ pushCount y.body
  frame : InFrame slots y.saved s ws.length t
  holds : spared → HoldsFrame slots y.saved s ws t

section Frames

variable {slots n : Nat} {saved : List PhysReg} {s t u : State} {ws : List Word}

theorem InFrame.of_regs (h : InFrame slots saved s n t) (hsp : u.regs .rsp = t.regs .rsp)
    (hbp : u.regs .rbp = t.regs .rbp)
    (hkept : ∀ r ∈ PhysReg.calleeSaved, r ∉ saved → u.regs r = t.regs r) : InFrame slots saved s n u :=
  ⟨hbp.trans h.frame, hsp.trans h.stack, fun r hr hnot => (hkept r hr hnot).trans (h.kept r hr hnot)⟩

/-- What memory has to hold is in the words apart from the slots. -/
theorem HoldsFrame.of_read (h : HoldsFrame slots saved s ws t)
    (hread : ∀ i, i = 1 ∨ 2 + paddedSlots slots saved.length ≤ i →
      i ≤ 1 + frameWords slots saved + ws.length →
      u.memory.read (below (s.regs .rsp) i) = t.memory.read (below (s.regs .rsp) i)) :
    HoldsFrame slots saved s ws u where
  link := (hread 1 (.inl rfl) (by omega)).trans h.link
  regs := by
    intro i r hi
    have hlt := (List.getElem?_eq_some_iff.1 hi).1
    refine (hread _ (.inr (by omega)) ?_).trans (h.regs i r hi)
    rw [frameWords]
    omega
  pushed := by
    intro k w hk
    have hlt := (List.getElem?_eq_some_iff.1 hk).1
    refine (hread _ (.inr ?_) (by omega)).trans (h.pushed k w hk)
    rw [frameWords]
    omega

theorem slots_le_paddedSlots (slots saved : Nat) : slots ≤ paddedSlots slots saved :=
  Nat.le_add_right _ _

theorem InFrame.address_slotPlace (h : InFrame slots saved s n t) (env : Env) (k : Nat) :
    (slotPlace k).address env t = below (s.regs .rsp) (1 + (k + 1)) := by
  rw [Asm.address_slotPlace, h.frame, ← below_add]

theorem InFrame.push (h : InFrame slots saved s n t) (w : Word) :
    InFrame slots saved s (n + 1) ((t.set .rsp (t.regs .rsp - 8)).store (t.regs .rsp - 8) w) where
  frame := by
    show (t.set .rsp (t.regs .rsp - 8)).regs .rbp = _
    rw [State.regs_set_of_ne _ _ (by decide), h.frame]
  stack := by
    show (t.set .rsp (t.regs .rsp - 8)).regs .rsp = _
    rw [State.regs_set, h.stack, ← below_succ, Nat.add_assoc]
  kept := fun r hr hnot =>
    (t.regs_set_of_ne _ (ne_pointers_of_calleeSaved hr).1).trans (h.kept r hr hnot)

theorem HoldsFrame.push (h : HoldsFrame slots saved s ws t) (hframe : InFrame slots saved s ws.length t)
    (hroom : 1 + frameWords slots saved + ws.length + 1 < 2 ^ 61) (w : Word) :
    HoldsFrame slots saved s (w :: ws)
      ((t.set .rsp (t.regs .rsp - 8)).store (t.regs .rsp - 8) w) := by
  have htop : t.regs .rsp - 8 = below (s.regs .rsp) (1 + frameWords slots saved + ws.length + 1) := by
    rw [hframe.stack, below_succ]
  have hold : HoldsFrame slots saved s ws
      ((t.set .rsp (t.regs .rsp - 8)).store (t.regs .rsp - 8) w) := by
    refine h.of_read fun i _ hi => ?_
    rw [htop]
    exact Store.read_write_apart _ _ (apart_below _ (by omega) (by omega) (by omega))
  refine ⟨hold.link, hold.regs, fun k v hk => ?_⟩
  cases k with
  | zero =>
    cases hk
    rw [htop]
    exact Store.read_write _ _ _
  | succ k =>
    have hkept := hold.pushed k v hk
    rwa [length_cons, show 1 + frameWords slots saved + (ws.length + 1) - (k + 1) =
      1 + frameWords slots saved + ws.length - k by omega]

theorem InFrame.release (h : InFrame slots saved s n t) (f : Flags) :
    InFrame slots saved s 0
      { t.set .rsp (t.regs .rsp + Int64.ofNat n * 8) with flags := f } where
  frame := by
    show (t.set .rsp (t.regs .rsp + Int64.ofNat n * 8)).regs .rbp = _
    rw [State.regs_set_of_ne _ _ (by decide), h.frame]
  stack := by
    show (t.set .rsp (t.regs .rsp + Int64.ofNat n * 8)).regs .rsp = _
    rw [State.regs_set, h.stack, below_add_words, Nat.add_zero]
  kept := fun r hr hnot =>
    (t.regs_set_of_ne _ (ne_pointers_of_calleeSaved hr).1).trans (h.kept r hr hnot)

theorem HoldsFrame.forget (h : HoldsFrame slots saved s ws t) : HoldsFrame slots saved s [] t :=
  ⟨h.link, h.regs, by simp⟩

/-- After a call the frame is as it was, and the pushed words may be others. -/
theorem InFrame.call (h : InFrame slots saved s n t) (hu : Restores t u) : InFrame slots saved s n u :=
  h.of_regs hu.1 (hu.2 .rbp mem_cons_self) fun r hr _ => hu.2 r (mem_cons_of_mem _ hr)

theorem HoldsFrame.call (h : HoldsFrame slots saved s ws t) (hframe : InFrame slots saved s ws.length u)
    (hkept : ∀ i, 1 ≤ i → i ≤ 1 + frameWords slots saved →
      u.memory.read (below (s.regs .rsp) i) = t.memory.read (below (s.regs .rsp) i)) :
    HoldsFrame slots saved s
      ((List.range ws.length).map fun k => u.memory.read (u.regs .rsp + Int64.ofNat k * 8)) u := by
  have hforget : HoldsFrame slots saved s [] u := by
    refine h.forget.of_read fun i hi hlt => hkept i ?_ hlt
    omega
  refine ⟨hforget.link, hforget.regs, fun k w hk => ?_⟩
  obtain ⟨hlt, rfl⟩ := List.getElem?_eq_some_iff.1 hk
  rw [length_map, length_range] at hlt ⊢
  rw [getElem_map, getElem_range, hframe.stack,
    ← below_add_words _ (1 + frameWords slots saved + ws.length - k) k,
    Nat.sub_add_cancel (by omega)]

end Frames

/-! ## Lines of a body -/

theorem Leveled.exists_of_suffix {P : Instr → Prop} {n : Nat} {lines rest : List Line}
    (h : Leveled P n lines) (hs : rest <:+ lines) : ∃ m, Leveled P m rest := by
  induction h with
  | nil =>
    obtain rfl := suffix_nil.1 hs
    exact ⟨0, .nil⟩
  | label name h ih =>
    rcases suffix_cons_iff.1 hs with rfl | hs
    · exact ⟨_, .label name h⟩
    · exact ih hs
  | push a comment h ih =>
    rcases suffix_cons_iff.1 hs with rfl | hs
    · exact ⟨_, .push a comment h⟩
    · exact ih hs
  | call target comment hn h ih =>
    rcases suffix_cons_iff.1 hs with rfl | hs
    · exact ⟨_, .call target comment hn h⟩
    · exact ih hs
  | release comment h ih =>
    rcases suffix_cons_iff.1 hs with rfl | hs
    · exact ⟨_, .release comment h⟩
    · exact ih hs
  | jump comment hi h ih =>
    rcases suffix_cons_iff.1 hs with rfl | hs
    · exact ⟨_, .jump comment hi h⟩
    · exact ih hs
  | other comment hi h ih =>
    rcases suffix_cons_iff.1 hs with rfl | hs
    · exact ⟨_, .other comment hi h⟩
    · exact ih hs

theorem pushCount_le_of_suffix {lines rest : List Line} (hs : rest <:+ lines) :
    pushCount rest ≤ pushCount lines :=
  (hs.sublist.filterMap Line.instr?).countP_le

theorem pushCount_le_cons (a : Line) (rest : List Line) : pushCount rest ≤ pushCount (a :: rest) :=
  pushCount_le_of_suffix (suffix_cons a rest)

theorem pushCount_push (a : Arg) (comment : Option String) (rest : List Line) :
    pushCount (.instr (.push a) comment :: rest) = pushCount rest + 1 :=
  countP_cons_of_pos rfl

theorem linesFrom_epilogue {slots : Nat} {saved : List PhysReg} {found : List Line}
    (h : linesFrom name (epilogue slots saved) = some found) : found = epilogue slots saved := by
  obtain ⟨rest, rfl⟩ := linesFrom_head h
  have hsuffix := linesFrom_suffix h
  have hlabels := labels_epilogue slots saved
  obtain ⟨tail, htail⟩ : ∃ tail, epilogue slots saved = .label epilogueLabel :: tail := ⟨_, rfl⟩
  rw [htail] at hsuffix hlabels ⊢
  rcases suffix_cons_iff.1 hsuffix with heq | hsuffix
  · exact heq
  · have hnone : tail.filterMap Line.label? = [] := (List.cons.inj hlabels).2
    have hmem : name ∈ tail.filterMap Line.label? :=
      mem_filterMap.2 ⟨.label name, hsuffix.subset mem_cons_self, rfl⟩
    rw [hnone] at hmem
    cases hmem

section Body

variable {env : Env} {call : String → State → State → Prop} {slots : Nat} {y : Routine}
  {s t t' : State} {rest lines : List Line} {ws : List Word} {spared : Prop}

/-- A label is in the body, where nothing is on the stack, or at the epilogue. -/
theorem Regular.linesFrom (hy : Regular slots y) {found : List Line}
    (h : linesFrom name y.code = some found) :
    ∃ rest, found = rest ++ y.epilogue ∧ rest <:+ y.body ∧ Leveled (Tame slots y.saved) 0 rest := by
  have hprologue : Asm.linesFrom name y.prologue = none := by
    rw [hy.prologue]
    cases hfound : Asm.linesFrom name (Asm.prologue slots y.saved) with
    | none => rfl
    | some found =>
      obtain ⟨rest, rfl⟩ := linesFrom_head hfound
      have hmem : name ∈ (Asm.prologue slots y.saved).filterMap Line.label? := mem_filterMap.2
        ⟨.label name, (linesFrom_suffix hfound).subset mem_cons_self, rfl⟩
      rw [labels_prologue] at hmem
      cases hmem
  rw [Routine.code, append_assoc, linesFrom_append, hprologue] at h
  dsimp only at h
  rw [linesFrom_append] at h
  cases hbody : Asm.linesFrom name y.body with
  | some found' =>
    rw [hbody] at h
    cases h
    obtain ⟨rest, rfl⟩ := linesFrom_head hbody
    have hsuffix := linesFrom_suffix hbody
    obtain ⟨m, hm⟩ := hy.leveled.exists_of_suffix hsuffix
    refine ⟨_, rfl, hsuffix, ?_⟩
    cases hm with
    | label _ hm => exact .label name hm
  | none =>
    rw [hbody] at h
    dsimp only at h
    rw [hy.epilogue] at h
    refine ⟨[], ?_, nil_suffix, .nil⟩
    rw [linesFrom_epilogue h, hy.epilogue]
    rfl

/-- What a store writes in the frame goes to a slot, and so apart from what the frame holds. -/
theorem HoldsFrame.store {m : Mem} {a : Arg} (h : HoldsFrame slots y.saved s ws t)
    (hframe : InFrame slots y.saved s ws.length t) (hroom : y.depth < 2 ^ 61)
    (hdepth : 1 + frameWords slots y.saved + ws.length ≤ y.depth)
    (hi : Steady slots (.mov (.mem m) a)) (hexec : exec env (.mov (.mem m) a) t = some t')
    (hpointer : m.uses .rbp = false →
      ∀ i, 1 ≤ i → i ≤ y.depth → Apart (m.address env t) (below (s.regs .rsp) i)) :
    HoldsFrame slots y.saved s ws t' := by
  refine h.of_read fun i hslots hlt => read_of_exec_store hexec ?_
  cases hrbp : m.uses .rbp with
  | false => exact hpointer hrbp i (by omega) (by omega)
  | true =>
    obtain ⟨k, hk, rfl⟩ := hi.stores m a rfl hrbp
    have hle := slots_le_paddedSlots slots y.saved.length
    have hwords : paddedSlots slots y.saved.length ≤ frameWords slots y.saved := Nat.le_add_right _ _
    rw [hframe.address_slotPlace]
    exact apart_below _ (by omega) (by omega) (by omega)

theorem pushedAfter_of_steady (hi : Steady slots i) (comment : Option String) :
    pushedAfter env t (.instr i comment :: rest) t' ws = ws := by
  cases i with
  | push a => exact absurd rfl (hi.stack a)
  | call => cases hi.straight
  | alu op d a =>
    have hd : d ≠ .rsp := fun hd => hi.pointers.1 (by simp [Instr.writes, hd])
    unfold pushedAfter
    split
    · next heq => cases heq
    · next heq => cases heq
    · next heq =>
      cases heq
      exact absurd rfl hd
    · rfl
  | _ => rfl

/-- **One line of the body.** -/
theorem Inside.step (hy : Regular slots y) (hcall : ∀ target s t, call target s t → Restores s t)
    (hroom : spared → y.depth < 2 ^ 61) {a : Line} (h : Inside slots y s spared t (a :: rest) ws)
    (hgoes : Goes env call y.code (t, a :: rest ++ y.epilogue) (t', lines))
    (hspares : spared → Spares env (s.regs .rsp) (1 + frameWords slots y.saved) y.depth
      (t, a :: rest ++ y.epilogue) (t', lines)) :
    ∃ rest', lines = rest' ++ y.epilogue ∧ Inside slots y s spared t' rest'
      (pushedAfter env t (a :: rest ++ y.epilogue) t' ws) := by
  obtain ⟨hsuffix, hlevel, hcount, hframe, hholds⟩ := h
  have hrest : rest <:+ y.body := (suffix_cons a rest).trans hsuffix
  have hcount' : ws.length + pushCount rest ≤ pushCount y.body :=
    Nat.le_trans (Nat.add_le_add_left (pushCount_le_cons a rest) _) hcount
  have hdepth : 1 + frameWords slots y.saved + ws.length ≤ y.depth := by
    rw [hy.depth_eq]
    omega
  rw [cons_append] at hgoes
  generalize hn : ws.length = n at hlevel
  cases hlevel with
  | label name hlevel =>
    obtain ⟨rfl, rfl⟩ := goes_label hgoes
    exact ⟨rest, rfl, hrest, hn ▸ hlevel, hcount', hframe, hholds⟩
  | push x comment hlevel =>
    obtain ⟨hexec, rfl⟩ := goes_straight rfl hgoes
    cases hexec
    rw [pushCount_push] at hcount
    refine ⟨rest, rfl, hrest, ?_, ?_, hframe.push _, fun hs => (hholds hs).push hframe ?_ _⟩
    · rw [← hn] at hlevel
      exact hlevel
    · show ws.length + 1 + pushCount rest ≤ _
      omega
    · have hlt := hroom hs
      rw [hy.depth_eq] at hlt
      omega
  | call target comment heven hlevel =>
    obtain ⟨hcalled, rfl⟩ := goes_call hgoes
    have hframe' := hframe.call (hcall target t t' hcalled)
    have hlen : (pushedAfter env t (.instr (.call target) comment :: rest ++ y.epilogue) t' ws).length =
        ws.length := by
      simp [pushedAfter]
    refine ⟨rest, rfl, hrest, ?_, ?_, ?_, fun hs => (hholds hs).call hframe' (hspares hs)⟩
    · rw [hlen, hn]
      exact hlevel
    · rw [hlen]
      exact hcount'
    · rw [hlen]
      exact hframe'
  | release comment hlevel =>
    obtain ⟨hexec, rfl⟩ := goes_straight rfl hgoes
    cases hexec
    refine ⟨rest, rfl, hrest, hlevel, ?_, ?_, fun hs => ?_⟩
    · show 0 + pushCount rest ≤ _
      omega
    · subst hn
      exact hframe.release _
    · have hforget := (hholds hs).forget
      exact ⟨hforget.link, hforget.regs, by simp [pushedAfter]⟩
  | jump comment hi hlevel =>
    obtain rfl := length_eq_zero_iff.1 hn
    rename_i i
    have hpushed : pushedAfter env t (.instr i comment :: rest ++ y.epilogue) t' [] = [] := by
      cases i with
      | jmp | jcc => rfl
      | _ => cases hi
    rw [hpushed]
    obtain ⟨rfl, rfl | ⟨name, hfound⟩⟩ := goes_branch hi hgoes
    · exact ⟨rest, rfl, hrest, hlevel, hcount', hframe, hholds⟩
    · obtain ⟨rest', rfl, hrest', hlevel'⟩ := hy.linesFrom hfound
      refine ⟨rest', rfl, hrest', hlevel', ?_, hframe, hholds⟩
      have hle := pushCount_le_of_suffix hrest'
      simpa using hle
  | other comment hi hlevel =>
    rename_i i
    obtain ⟨hsteady, hsaves⟩ := hi
    obtain ⟨hexec, rfl⟩ := goes_straight hsteady.straight hgoes
    rw [cons_append, pushedAfter_of_steady hsteady]
    refine ⟨rest, rfl, hrest, hn ▸ hlevel, hcount', ?_, fun hs => ?_⟩
    · refine hframe.of_regs (regs_of_exec hexec hsteady.pointers.1)
        (regs_of_exec hexec hsteady.pointers.2) fun r hr hnot => ?_
      exact regs_of_exec hexec fun hwrites => hnot (hsaves r hr hwrites)
    · by_cases hstore : ∃ m x, i = .mov (.mem m) x
      · obtain ⟨m, x, rfl⟩ := hstore
        exact (hholds hs).store hframe (hroom hs) hdepth hsteady hexec (hspares hs)
      · have hmem : t'.memory = t.memory :=
          memory_of_exec hexec hsteady.stack fun m x heq => hstore ⟨m, x, heq⟩
        exact (hholds hs).of_read fun _ _ _ => by rw [hmem]

/-! ## Whole runs -/

/-- A step under a condition. -/
def GoesBy (env : Env) (call : String → State → State → Prop) (code : List Line)
    (G : State × List Line → State × List Line → Prop) (a b : State × List Line) : Prop :=
  Goes env call code a b ∧ G a b

/-- A step under a condition, together with the words that are on the stack before and after it. -/
def Pushing (env : Env) (call : String → State → State → Prop) (code : List Line)
    (G : State × List Line → State × List Line → Prop) (a b : (State × List Line) × List Word) : Prop :=
  GoesBy env call code G a.1 b.1 ∧ b.2 = pushedAfter env a.1.1 a.1.2 b.1.1 a.2

variable {G : State × List Line → State × List Line → Prop}

theorem exists_pushing {code : List Line} {a b : State × List Line}
    (h : Relation.ReflTransGen (GoesBy env call code G) a b) (ws : List Word) :
    ∃ ws', Relation.ReflTransGen (Pushing env call code G) (a, ws) (b, ws') := by
  induction h with
  | refl => exact ⟨ws, .refl⟩
  | tail _ hstep ih =>
    rename_i b c _
    obtain ⟨ws', hrun⟩ := ih
    exact ⟨pushedAfter env b.1 b.2 c.1 ws', hrun.tail ⟨hstep, rfl⟩⟩

theorem isStraight_prologue (slots : Nat) (saved : List PhysReg) :
    ∀ i ∈ instrsOf (prologue slots saved), i.isStraight = true := by
  intro i hi
  obtain rfl | rfl | rfl | ⟨r, -, rfl⟩ := mem_prologue hi <;> rfl

theorem isStraight_takeDown (slots : Nat) (saved : List PhysReg) :
    ∀ i ∈ instrsOf (takeDown slots saved), i.isStraight = true := by
  intro i hi
  rw [takeDown, instrsOf_append, instrsOf_append, instrsOf_append] at hi
  rw [mem_append, mem_append, mem_append] at hi
  obtain ((hi | hi) | hi) | hi := hi
  · cases hi
  · split at hi
    · cases hi
    · obtain rfl | hi := mem_cons.1 hi
      · rfl
      · obtain ⟨comment, hi⟩ := mem_instrsOf.1 hi
        obtain ⟨r, -, heq⟩ := mem_map.1 hi
        cases heq
        rfl
  · split at hi
    · cases hi
    · obtain rfl := mem_singleton.1 hi
      rfl
  · obtain rfl := mem_singleton.1 hi
    rfl

/-- A run through the epilogue is at its return with the frame taken down, or before that on a line that
neither calls nor returns. -/
theorem leaving_cases (hy : Regular slots y) {v : State} (hv : Inside slots y s spared v [] [])
    (h : Relation.ReflTransGen (GoesBy env call y.code G) (v, y.epilogue) (t, lines)) :
    (∃ a rest, lines = a :: rest ∧ ∀ i, a.instr? = some i → i.isStraight = true) ∨
    lines = [plain .ret] ∧ t.regs .rsp = s.regs .rsp ∧
      (spared → ∀ r ∈ keptRegs, t.regs r = s.regs r) := by
  rw [hy.epilogue, epilogue_eq] at h
  obtain ⟨done, todo, heq, htodo, rfl, -⟩ | ⟨u, hu, h⟩ :=
    reaches_straight (fun _ _ hab => hab.1) (isStraight_takeDown slots y.saved) h
  · cases todo with
    | nil => exact absurd rfl htodo
    | cons a todo =>
      refine .inl ⟨a, _, rfl, fun i hi => isStraight_takeDown slots y.saved i ?_⟩
      rw [heq]
      exact mem_filterMap.2 ⟨a, mem_append_right _ mem_cons_self, hi⟩
  · rcases Relation.ReflTransGen.cases_head h with heq | ⟨⟨w, lines'⟩, hstep, -⟩
    · cases heq
      obtain ⟨hstack, hkept⟩ := execs_takeDown hy.saved hv.frame hu
      exact .inr ⟨rfl, hstack, fun hs => hkept [] (hv.holds hs)⟩
    · exact (not_goes_ret hstep.1).elim

section Regular

variable (hy : Regular slots y) (hcall : ∀ target s t, call target s t → Restores s t)
  (hroom : spared → y.depth < 2 ^ 61)
  (hG : spared → ∀ a b, G a b →
    Spares env (s.regs .rsp) (1 + frameWords slots y.saved) y.depth a b)

include hy hcall hroom hG

/-- **A run from the start of the body on** is inside it, or it has come to its end and is in the
epilogue. -/
theorem inside_or_leaving (hu : Inside slots y s spared u y.body [])
    {b : (State × List Line) × List Word}
    (h : Relation.ReflTransGen (Pushing env call y.code G) ((u, y.body ++ y.epilogue), []) b) :
    (∃ rest, b.1.2 = rest ++ y.epilogue ∧ Inside slots y s spared b.1.1 rest b.2) ∨
    ∃ v, Inside slots y s spared v [] [] ∧
      Relation.ReflTransGen (GoesBy env call y.code G) (v, y.epilogue) b.1 := by
  induction h with
  | refl => exact .inl ⟨y.body, rfl, hu⟩
  | tail _ hstep ih =>
    rename_i a b hrun
    obtain ⟨⟨t, lines⟩, ws⟩ := a
    obtain ⟨⟨t', lines'⟩, ws'⟩ := b
    obtain ⟨⟨hgoes, hguard⟩, hws⟩ := hstep
    obtain ⟨rest, hlines, hinside⟩ | ⟨v, hv, hrun⟩ := ih
    · obtain rfl : lines = rest ++ y.epilogue := hlines
      cases rest with
      | nil =>
        -- At the end of the body nothing is on the stack.
        have hlength := hinside.leveled
        generalize hn : ws.length = n at hlength
        cases hlength
        obtain rfl := length_eq_zero_iff.1 hn
        exact .inr ⟨t, hinside, .single ⟨hgoes, hguard⟩⟩
      | cons a rest =>
        obtain ⟨rest', hrest', hinside'⟩ := hinside.step hy hcall hroom hgoes
          fun hs => hG hs _ _ hguard
        refine .inl ⟨rest', hrest', ?_⟩
        rw [show ws' = _ from hws]
        exact hinside'
    · exact .inr ⟨v, hv, hrun.tail ⟨hgoes, hguard⟩⟩

/-- **At a call** an even number of words is on the stack besides the frame. -/
theorem Regular.at_call (hu : Inside slots y s spared u y.body []) {target : String}
    {rest : List Line}
    (h : Relation.ReflTransGen (Pushing env call y.code G) ((u, y.body ++ y.epilogue), [])
      ((t, .instr (.call target) comment :: rest), ws)) :
    ws.length % 2 = 0 ∧ ws.length ≤ pushCount y.body ∧ InFrame slots y.saved s ws.length t ∧
      (spared → HoldsFrame slots y.saved s ws t) := by
  obtain ⟨rest', hlines, hinside⟩ | ⟨v, hv, hrun⟩ := inside_or_leaving hy hcall hroom hG hu h
  · refine ⟨?_, Nat.le_trans (Nat.le_add_right _ _) hinside.count, hinside.frame, hinside.holds⟩
    cases rest' with
    | nil =>
      have hlines : Line.instr (.call target) comment :: rest = y.epilogue := hlines
      rw [hy.epilogue] at hlines
      cases hlines
    | cons a rest' =>
      obtain ⟨rfl, -⟩ := List.cons.inj hlines
      have hlevel := hinside.leveled
      generalize hn : ws.length = n at hlevel
      cases hlevel with
      | call _ _ heven => exact heven
      | jump _ hi => cases hi
      | other _ hi => cases hi.1.straight
  · obtain ⟨a, _, heq, hstraight⟩ | ⟨heq, -⟩ := leaving_cases hy hv hrun
    · cases heq
      exact absurd (hstraight _ rfl) (by simp [Instr.isStraight])
    · cases heq

/-- **At the return** the stack pointer is back, and so are the registers if the stack was spared. -/
theorem Regular.at_ret (hu : Inside slots y s spared u y.body []) {rest : List Line}
    (h : Relation.ReflTransGen (Pushing env call y.code G) ((u, y.body ++ y.epilogue), [])
      ((t, .instr .ret comment :: rest), ws)) :
    t.regs .rsp = s.regs .rsp ∧ (spared → ∀ r ∈ keptRegs, t.regs r = s.regs r) := by
  obtain ⟨rest', hlines, hinside⟩ | ⟨v, hv, hrun⟩ := inside_or_leaving hy hcall hroom hG hu h
  · cases rest' with
    | nil =>
      have hlines : Line.instr .ret comment :: rest = y.epilogue := hlines
      rw [hy.epilogue] at hlines
      cases hlines
    | cons a rest' =>
      obtain ⟨rfl, -⟩ := List.cons.inj hlines
      have hlevel := hinside.leveled
      generalize hn : ws.length = n at hlevel
      cases hlevel with
      | jump _ hi => cases hi
      | other _ hi => cases hi.1.straight
  · obtain ⟨a, _, heq, hstraight⟩ | ⟨-, hback⟩ := leaving_cases hy hv hrun
    · cases heq
      exact absurd (hstraight _ rfl) (by simp [Instr.isStraight])
    · exact hback

end Regular

theorem Regular.inside (hy : Regular slots y) (hroom : spared → y.depth < 2 ^ 61)
    (h : execs env y.prologue s = some u) : Inside slots y s spared u y.body [] := by
  rw [hy.prologue] at h
  refine ⟨suffix_refl _, hy.leveled, ?_, inFrame_prologue h, fun hs => ?_⟩
  · show 0 + pushCount y.body ≤ pushCount y.body
    omega
  · have hlt := hroom hs
    rw [hy.depth_eq] at hlt
    exact (memory_of_prologue hy.saved (by omega) h).1

/-- A run that is at a call or a return has set up the frame and gone on from there. -/
theorem Regular.exists_body (hy : Regular slots y) (hi : i.isStraight = false) {rest : List Line}
    (h : Relation.ReflTransGen (GoesBy env call y.code G) (s, y.code) (t, .instr i comment :: rest)) :
    ∃ u, execs env y.prologue s = some u ∧ Relation.ReflTransGen (GoesBy env call y.code G)
      (u, y.body ++ y.epilogue) (t, .instr i comment :: rest) := by
  have hstraight : ∀ j ∈ instrsOf y.prologue, j.isStraight = true := by
    rw [hy.prologue]
    exact isStraight_prologue slots y.saved
  rw [show (s, y.code) = (s, y.prologue ++ (y.body ++ y.epilogue)) by
    rw [Routine.code, append_assoc]] at h
  obtain ⟨done, todo, heq, htodo, hlines, -⟩ | hbody :=
    reaches_straight (fun _ _ hab => hab.1) hstraight h
  · cases todo with
    | nil => exact absurd rfl htodo
    | cons a todo =>
      obtain ⟨rfl, -⟩ := List.cons.inj hlines
      have hmem : i ∈ instrsOf y.prologue := by
        rw [heq]
        exact mem_instrsOf.2 ⟨comment, mem_append_right _ mem_cons_self⟩
      rw [hstraight i hmem] at hi
      cases hi
  · exact hbody

end Body

end MxStar.Asm
