import MxStar.Proofs.SelectedInstrs
import MxStar.Proofs.StackLevels

/-!
The frame of a routine in memory.

The words of the stack are numbered from the return address down (`below`). `InFrame` says where the pointers
are while a routine has its frame, and `HoldsFrame` what memory holds then. Setting up a frame establishes
both (`inFrame_prologue`, `memory_of_prologue`), and taking it down moves the stack pointer back
(`execs_takeDown`).
-/
namespace MxStar.Asm

open List

open IR (Word PhysReg)
open Interp (Store Apart distance position position_sub position_ofNat)

variable {j : Nat}

/-! ## Words of the stack -/

def below (top : Word) (i : Nat) : Word := top - Int64.ofNat i * 8

theorem below_zero (top : Word) : below top 0 = top := by
  show top - 0 * 8 = top
  grind

theorem below_add (top : Word) (i j : Nat) : below top (i + j) = below (below top i) j := by
  rw [below, below, below, Int64.ofNat_add]
  grind

theorem below_succ (top : Word) (i : Nat) : below top (i + 1) = below top i - 8 := by
  rw [below_add]
  show below top i - 1 * 8 = below top i - 8
  grind

theorem below_add_words (top : Word) (i j : Nat) :
    below top (i + j) + Int64.ofNat j * 8 = below top i := by
  rw [below_add]
  show below top i - Int64.ofNat j * 8 + Int64.ofNat j * 8 = below top i
  grind

theorem add_neg_words (a : Word) (j : Nat) : a + -Int64.ofNat j * 8 = below a j := by
  rw [below]
  grind

theorem position_words (i : Nat) : position (Int64.ofNat i * 8) = i * 8 % 2 ^ 64 := by
  have hmul : Int64.ofNat i * 8 = Int64.ofNat (i * 8) := (Int64.ofNat_mul i 8).symm
  rw [hmul, position_ofNat]

theorem position_below (top : Word) (i : Nat) :
    position (below top i) = (2 ^ 64 - i * 8 % 2 ^ 64 + position top) % 2 ^ 64 := by
  rw [below, position_sub, position_words]

theorem apart_below (top : Word) {i : Nat} (hij : i ≠ j) (hi : i < 2 ^ 61) (hj : j < 2 ^ 61) :
    Apart (below top i) (below top j) := by
  have htop := Interp.position_lt top
  rw [Apart, Interp.distance_eq, Interp.distance_eq, position_below, position_below]
  omega

theorem pairwise_apart_below (top : Word) {numbers : List Nat} (h : numbers.Nodup)
    (hlt : ∀ i ∈ numbers, i < 2 ^ 61) : (numbers.map (below top)).Pairwise Apart :=
  pairwise_map.2 (h.imp_of_mem fun hi hj hne => apart_below top hne (hlt _ hi) (hlt _ hj))

theorem address_slotPlace (env : Env) (s : State) (k : Nat) :
    (slotPlace k).address env s = below (s.regs .rbp) (k + 1) := by
  have hsucc : Int64.ofNat k + 1 = Int64.ofNat (k + 1) := (Int64.ofNat_add k 1).symm
  show s.regs .rbp + -(Int64.ofNat k + 1) * 8 = _
  rw [hsucc, add_neg_words]

/-- An odd number of words below an address that is eight past a multiple of 16 is a multiple of 16. -/
theorem position_below_aligned {top : Word} (htop : position top % 16 = 8) {i : Nat}
    (hi : i % 2 = 1) : position (below top i) % 16 = 0 := by
  rw [position_below]
  omega

/-! ## Instructions -/

section Instructions

variable {env : Env} {i : Instr} {s t : State}

theorem regs_of_exec (h : exec env i s = some t) {r : PhysReg} (hr : r ∉ i.writes) :
    t.regs r = s.regs r := by
  have hset : ∀ (u : State) (d : PhysReg) (w : Word), r ≠ d → (u.set d w).regs r = u.regs r :=
    fun u d w hne => u.regs_set_of_ne w hne
  cases i with
  | mov d a =>
    cases d with
    | reg d =>
      cases h
      exact hset s d _ (by simpa [Instr.writes] using hr)
    | mem m =>
      cases a with
      | mem => cases h
      | reg | imm => cases h; rfl
    | imm => cases h
  | lea d m | movzx d a | alu op d a | shift op d a | neg d | not d =>
    cases h
    exact hset s d _ (by simpa [Instr.writes] using hr)
  | push a =>
    cases h
    exact hset s .rsp _ (by simpa [Instr.writes] using hr)
  | pop d =>
    cases h
    obtain ⟨hsp, hd⟩ : r ≠ .rsp ∧ r ≠ d := by simpa [Instr.writes] using hr
    rw [hset _ d _ hd, hset _ .rsp _ hsp]
  | cqo =>
    cases h
    exact hset s .rdx _ (by simpa [Instr.writes] using hr)
  | idiv q =>
    obtain ⟨x, -, h⟩ := Option.bind_eq_some_iff.1 h
    cases h
    obtain ⟨hax, hdx⟩ : r ≠ .rax ∧ r ≠ .rdx := by simpa [Instr.writes] using hr
    show ((s.set .rax _).set .rdx _).regs r = _
    rw [hset _ .rdx _ hdx, hset _ .rax _ hax]
  | cmp => cases h; rfl
  | set c d =>
    obtain ⟨x, -, h⟩ := Option.bind_eq_some_iff.1 h
    cases h
    exact hset s d _ (by simpa [Instr.writes] using hr)
  | jmp | jcc | call | ret => cases h

/-- Only pushes and stores change memory. -/
theorem memory_of_exec (h : exec env i s = some t) (hpush : ∀ a, i ≠ .push a)
    (hstore : ∀ m a, i ≠ .mov (.mem m) a) : t.memory = s.memory := by
  cases i with
  | mov d a =>
    cases d with
    | reg d => cases h; rfl
    | mem m => exact absurd rfl (hstore m a)
    | imm => cases h
  | push a => exact absurd rfl (hpush a)
  | idiv | set =>
    obtain ⟨x, -, h⟩ := Option.bind_eq_some_iff.1 h
    cases h
    rfl
  | lea | movzx | alu | shift | neg | not | pop | cqo | cmp => cases h; rfl
  | jmp | jcc | call | ret => cases h

theorem read_of_exec_store {m : Mem} {a : Arg} (h : exec env (.mov (.mem m) a) s = some t) {w : Word}
    (hw : Apart (m.address env s) w) : t.memory.read w = s.memory.read w := by
  cases a with
  | mem => cases h
  | reg | imm =>
    cases h
    exact Store.read_write_apart _ _ hw

end Instructions

/-! ## Saving and restoring registers -/

section Saving

variable {env : Env} {s t : State} {top : Word} {comment : PhysReg → Option String}

theorem regs_of_pushes {saved : List PhysReg}
    (h : execs env (saved.map fun r => .instr (.push (.reg r)) (comment r)) s = some t)
    (hrsp : s.regs .rsp = below top j) :
    t.regs .rsp = below top (j + saved.length) ∧ ∀ r, r ≠ .rsp → t.regs r = s.regs r := by
  induction saved generalizing s j with
  | nil =>
    cases h
    exact ⟨hrsp, fun _ _ => rfl⟩
  | cons q saved ih =>
    obtain ⟨u, hu, h⟩ := Option.bind_eq_some_iff.1 h
    cases hu
    have hsp : (s.set .rsp (s.regs .rsp - 8)).regs .rsp = below top (j + 1) := by
      rw [State.regs_set, hrsp, below_succ]
    obtain ⟨hstack, hregs⟩ := ih h hsp
    refine ⟨?_, fun r hr => (hregs r hr).trans (s.regs_set_of_ne _ hr)⟩
    rw [hstack, length_cons, Nat.add_assoc, Nat.add_comm 1]

theorem memory_of_pushes {saved : List PhysReg} (hsaved : ∀ r ∈ saved, r ≠ .rsp)
    (h : execs env (saved.map fun r => .instr (.push (.reg r)) (comment r)) s = some t)
    (hrsp : s.regs .rsp = below top j) (hroom : j + saved.length < 2 ^ 61) :
    (∀ i r, saved[i]? = some r → t.memory.read (below top (j + 1 + i)) = s.regs r) ∧
    ∀ a, (∀ i, j < i → i ≤ j + saved.length → Apart (below top i) a) →
      t.memory.read a = s.memory.read a := by
  induction saved generalizing s j with
  | nil =>
    cases h
    exact ⟨by simp, fun _ _ => rfl⟩
  | cons q saved ih =>
    obtain ⟨u, hu, h⟩ := Option.bind_eq_some_iff.1 h
    cases hu
    rw [length_cons] at hroom ⊢
    have hsp : (s.set .rsp (s.regs .rsp - 8)).regs .rsp = below top (j + 1) := by
      rw [State.regs_set, hrsp, below_succ]
    obtain ⟨hmem, hkept⟩ := ih (fun r hr => hsaved r (mem_cons_of_mem _ hr)) h hsp (by omega)
    refine ⟨fun i r hi => ?_, fun a ha => ?_⟩
    · cases i with
      | zero =>
        obtain rfl : q = r := Option.some.inj hi
        rw [Nat.add_zero, hkept]
        · show ((s.memory.write (s.regs .rsp - 8) (s.regs q)).read (below top (j + 1))) = s.regs q
          rw [hrsp, ← below_succ, Store.read_write]
        · exact fun i hlo hhi => apart_below top (by omega) (by omega) (by omega)
      | succ i =>
        have hq := hmem i r hi
        rw [show j + 1 + (i + 1) = j + 1 + 1 + i by omega, hq]
        exact s.regs_set_of_ne _ (hsaved r (mem_cons_of_mem _ (mem_of_getElem? hi)))
    · rw [hkept a fun i hlo hhi => ha i (by omega) (by omega)]
      show (s.memory.write (s.regs .rsp - 8) (s.regs q)).read a = s.memory.read a
      rw [hrsp, ← below_succ]
      exact Store.read_write_apart _ _ (ha (j + 1) (by omega) (by omega))

theorem execs_pops {rs : List PhysReg} (hrs : ∀ r ∈ rs, r ≠ .rsp)
    (h : execs env (rs.map fun r => .instr (.pop r) (comment r)) s = some t)
    (hrsp : s.regs .rsp = below top (j + rs.length)) :
    t.regs .rsp = below top j ∧ t.memory = s.memory ∧ (∀ r, r ≠ .rsp → r ∉ rs → t.regs r = s.regs r) ∧
    ∀ value : PhysReg → Word, (∀ i r, rs.reverse[i]? = some r →
      s.memory.read (below top (j + 1 + i)) = value r) → ∀ r ∈ rs, t.regs r = value r := by
  induction rs generalizing s with
  | nil =>
    cases h
    exact ⟨hrsp, rfl, fun _ _ _ => rfl, by simp⟩
  | cons q rs ih =>
    obtain ⟨u, hu, h⟩ := Option.bind_eq_some_iff.1 h
    cases hu
    have hq : q ≠ .rsp := hrs q mem_cons_self
    rw [length_cons, ← Nat.add_assoc] at hrsp
    have hsp : ((s.set .rsp (s.regs .rsp + 8)).set q (s.memory.read (s.regs .rsp))).regs .rsp =
        below top (j + rs.length) := by
      rw [State.regs_set_of_ne _ _ hq.symm, State.regs_set, hrsp]
      exact below_add_words top (j + rs.length) 1
    obtain ⟨hstack, hmem, hkept, hvalue⟩ := ih (fun r hr => hrs r (mem_cons_of_mem _ hr)) h hsp
    refine ⟨hstack, hmem, fun r hr hnot => ?_, fun value hval r hr => ?_⟩
    · rw [hkept r hr fun hmem => hnot (mem_cons_of_mem _ hmem),
        State.regs_set_of_ne _ _ (fun heq : r = q => hnot (heq ▸ mem_cons_self)),
        State.regs_set_of_ne _ _ hr]
    · rw [reverse_cons] at hval
      by_cases hmem' : r ∈ rs
      · refine hvalue value (fun i r hi => hval i r ?_) r hmem'
        rw [getElem?_append_left (List.getElem?_eq_some_iff.1 hi).1]
        exact hi
      · obtain rfl | hr := mem_cons.1 hr
        · rw [hkept r hq hmem', State.regs_set, hrsp]
          have hlast := hval rs.length r (by simp)
          rwa [show j + 1 + rs.length = j + rs.length + 1 by omega] at hlast
        · exact absurd hr hmem'

end Saving

/-! ## Frames -/

def frameWords (slots : Nat) (saved : List PhysReg) : Nat :=
  paddedSlots slots saved.length + saved.length

theorem frameWords_even (slots : Nat) (saved : List PhysReg) : frameWords slots saved % 2 = 0 := by
  rw [frameWords, paddedSlots]
  omega

/-- The registers that a called function has to give back as it found them, apart from the stack
pointer. -/
def keptRegs : List PhysReg := .rbp :: PhysReg.calleeSaved

theorem ne_pointers_of_calleeSaved {r : PhysReg} (h : r ∈ PhysReg.calleeSaved) :
    r ≠ .rsp ∧ r ≠ .rbp := by
  revert r
  decide

/-- The registers are where a frame has them that was set up in a state, with a number of words on the
stack besides: the pointers at their words, and those that are not saved unchanged. -/
structure InFrame (slots : Nat) (saved : List PhysReg) (s : State) (n : Nat) (t : State) : Prop where
  frame : t.regs .rbp = below (s.regs .rsp) 1
  stack : t.regs .rsp = below (s.regs .rsp) (1 + frameWords slots saved + n)
  kept : ∀ r ∈ PhysReg.calleeSaved, r ∉ saved → t.regs r = s.regs r

/-- Memory holds what a frame has that was set up in a state, and words that were pushed after that,
the last one first. -/
structure HoldsFrame (slots : Nat) (saved : List PhysReg) (s : State) (ws : List Word) (t : State) :
    Prop where
  link : t.memory.read (below (s.regs .rsp) 1) = s.regs .rbp
  regs : ∀ i r, saved[i]? = some r →
    t.memory.read (below (s.regs .rsp) (2 + paddedSlots slots saved.length + i)) = s.regs r
  pushed : ∀ k w, ws[k]? = some w →
    t.memory.read (below (s.regs .rsp) (1 + frameWords slots saved + ws.length - k)) = w

section Frames

variable {env : Env} {slots : Nat} {saved : List PhysReg} {s t u : State}

/-- The lines of a prologue before it saves registers. -/
def openFrame (size slots : Nat) : List Line :=
  [plain (.push (.reg .rbp)), plain (.mov (.reg .rbp) (.reg .rsp))] ++
    if size = 0 then [] else
      [.instr (.alu .sub .rsp (.imm (Int64.ofNat size))) (some (slots.repr ++ " spill slot(s)"))]

theorem execs_openFrame {words : Nat} (h : execs env (openFrame (words * 8) slots) s = some t) :
    t.regs .rbp = below (s.regs .rsp) 1 ∧ t.regs .rsp = below (s.regs .rsp) (1 + words) ∧
    (∀ r, r ≠ .rsp → r ≠ .rbp → t.regs r = s.regs r) ∧
    t.memory = s.memory.write (below (s.regs .rsp) 1) (s.regs .rbp) := by
  have hone : s.regs .rsp - 8 = below (s.regs .rsp) 1 := by
    rw [below_succ, below_zero]
  rw [openFrame, execs_append] at h
  obtain ⟨u, hu, h⟩ := Option.bind_eq_some_iff.1 h
  -- The frame pointer is saved, and points at its saved value.
  have hopen : u.regs .rbp = below (s.regs .rsp) 1 ∧ u.regs .rsp = below (s.regs .rsp) 1 ∧
      (∀ r, r ≠ .rsp → r ≠ .rbp → u.regs r = s.regs r) ∧
      u.memory = s.memory.write (below (s.regs .rsp) 1) (s.regs .rbp) := by
    rw [← hone]
    cases hu
    refine ⟨?_, ?_, fun r hsp hbp => ?_, rfl⟩
    · show ((s.set .rsp (s.regs .rsp - 8)).set .rbp
        ((s.set .rsp (s.regs .rsp - 8)).regs .rsp)).regs .rbp = _
      rw [State.regs_set, State.regs_set]
    · show ((s.set .rsp (s.regs .rsp - 8)).set .rbp _).regs .rsp = _
      rw [State.regs_set_of_ne _ _ (by decide), State.regs_set]
    · show ((s.set .rsp (s.regs .rsp - 8)).set .rbp _).regs r = _
      rw [State.regs_set_of_ne _ _ hbp, State.regs_set_of_ne _ _ hsp]
  obtain ⟨hframe, hstack, hregs, hmem⟩ := hopen
  by_cases hwords : words * 8 = 0
  · rw [if_pos hwords] at h
    cases h
    obtain rfl : words = 0 := by omega
    exact ⟨hframe, hstack, hregs, hmem⟩
  · rw [if_neg hwords] at h
    cases h
    refine ⟨?_, ?_, fun r hsp hbp => ?_, hmem⟩
    · show (u.set .rsp (u.regs .rsp - Int64.ofNat (words * 8))).regs .rbp = _
      rw [State.regs_set_of_ne _ _ (by decide), hframe]
    · show (u.set .rsp (u.regs .rsp - Int64.ofNat (words * 8))).regs .rsp = _
      rw [State.regs_set, hstack, below_add, Int64.ofNat_mul]
      rfl
    · exact (u.regs_set_of_ne _ hsp).trans (hregs r hsp hbp)

theorem prologue_eq (slots : Nat) (saved : List PhysReg) :
    prologue slots saved = openFrame (paddedSlots slots saved.length * 8) slots ++
      saved.map fun r => .instr (.push (.reg r)) (some ("save " ++ r.name)) := rfl

/-- **Setting up a frame** puts the pointers in place. -/
theorem inFrame_prologue (h : execs env (prologue slots saved) s = some t) :
    InFrame slots saved s 0 t := by
  rw [prologue_eq, execs_append] at h
  obtain ⟨u, hu, h⟩ := Option.bind_eq_some_iff.1 h
  obtain ⟨hframe, hstack, hregs, -⟩ := execs_openFrame hu
  obtain ⟨hsp, hkept⟩ := regs_of_pushes h hstack
  refine ⟨(hkept .rbp (by decide)).trans hframe, ?_, fun r hr _ => ?_⟩
  · rw [hsp, frameWords, Nat.add_zero, Nat.add_assoc]
  · have hne := ne_pointers_of_calleeSaved hr
    exact (hkept r hne.1).trans (hregs r hne.1 hne.2)

/-- Setting up a frame writes to its own words, and saves what it has to. -/
theorem memory_of_prologue (hsaved : ∀ r ∈ saved, r ∈ PhysReg.calleeSaved)
    (hroom : 1 + frameWords slots saved < 2 ^ 61) (h : execs env (prologue slots saved) s = some t) :
    HoldsFrame slots saved s [] t ∧
      ∀ a, (∀ i, 1 ≤ i → i ≤ 1 + frameWords slots saved → Apart (below (s.regs .rsp) i) a) →
        t.memory.read a = s.memory.read a := by
  have hne : ∀ r ∈ saved, r ≠ .rsp ∧ r ≠ .rbp := fun r hr => ne_pointers_of_calleeSaved (hsaved r hr)
  rw [frameWords] at hroom ⊢
  rw [prologue_eq, execs_append] at h
  obtain ⟨u, hu, h⟩ := Option.bind_eq_some_iff.1 h
  obtain ⟨-, hstack, hregs, hmem⟩ := execs_openFrame hu
  obtain ⟨hpushed, hkept⟩ := memory_of_pushes (fun r hr => (hne r hr).1) h hstack (by omega)
  refine ⟨⟨?_, fun i r hi => ?_, by simp⟩, fun a ha => ?_⟩
  · rw [hkept, hmem, Store.read_write]
    exact fun i hlo hhi => apart_below _ (by omega) (by omega) (by omega)
  · rw [show 2 + paddedSlots slots saved.length + i = 1 + paddedSlots slots saved.length + 1 + i by
      omega, hpushed i r hi]
    have hr := hne r (mem_of_getElem? hi)
    exact hregs r hr.1 hr.2
  · rw [hkept a fun i hlo hhi => ha i (by omega) (by omega), hmem]
    exact Store.read_write_apart _ _ (ha 1 (Nat.le_refl 1) (by omega))

/-- The lines of an epilogue before it returns. -/
def takeDown (slots : Nat) (saved : List PhysReg) : List Line :=
  [.label epilogueLabel] ++
    (if saved.isEmpty then [] else
      plain (.lea .rsp (.base .rbp (-Int64.ofNat (frameWords slots saved) * 8))) ::
        saved.reverse.map fun r => .instr (.pop r) (some ("restore " ++ r.name))) ++
    (if paddedSlots slots saved.length = 0 then [] else [plain (.mov (.reg .rsp) (.reg .rbp))]) ++
    [plain (.pop .rbp)]

theorem epilogue_eq (slots : Nat) (saved : List PhysReg) :
    epilogue slots saved = takeDown slots saved ++ [plain .ret] := by
  rw [epilogue, takeDown, append_assoc _ [plain (.pop .rbp)]]
  rfl

/-- The restoring part of an epilogue leaves the stack pointer at the padded slots, or where it was if
nothing is saved, and the registers as they were saved. -/
theorem execs_restores (hsaved : ∀ r ∈ saved, r ∈ PhysReg.calleeSaved) (hu : InFrame slots saved s 0 u)
    (h : execs env (if saved.isEmpty then [] else
      plain (.lea .rsp (.base .rbp (-Int64.ofNat (frameWords slots saved) * 8))) ::
        saved.reverse.map fun r => .instr (.pop r) (some ("restore " ++ r.name))) u = some t) :
    t.regs .rbp = below (s.regs .rsp) 1 ∧
    t.regs .rsp = below (s.regs .rsp) (1 + paddedSlots slots saved.length) ∧
    t.memory = u.memory ∧ (∀ r ∈ PhysReg.calleeSaved, r ∉ saved → t.regs r = s.regs r) ∧
    ∀ ws, HoldsFrame slots saved s ws u → ∀ r ∈ saved, t.regs r = s.regs r := by
  have hstack := hu.stack
  rw [frameWords, Nat.add_zero] at hstack
  by_cases hempty : saved.isEmpty = true
  · obtain rfl := List.isEmpty_iff.1 hempty
    cases h
    exact ⟨hu.frame, hstack, rfl, hu.kept, by simp⟩
  · rw [if_neg hempty] at h
    obtain ⟨v, hv, h⟩ := Option.bind_eq_some_iff.1 h
    cases hv
    -- The stack pointer is already where the address says.
    have hsp : (u.set .rsp (u.regs .rbp + -Int64.ofNat (frameWords slots saved) * 8)).regs .rsp =
        below (s.regs .rsp) (1 + paddedSlots slots saved.length + saved.reverse.length) := by
      rw [State.regs_set, hu.frame, length_reverse, Nat.add_assoc, below_add, ← frameWords]
      exact add_neg_words _ _
    have hne : ∀ r ∈ saved.reverse, r ≠ .rsp := fun r hr =>
      (ne_pointers_of_calleeSaved (hsaved r (mem_reverse.1 hr))).1
    obtain ⟨hstack', hmem, hkept, hvalue⟩ := execs_pops hne h hsp
    refine ⟨?_, hstack', hmem, fun r hr hnot => ?_, fun ws hholds r hr => ?_⟩
    · rw [hkept .rbp (by decide), State.regs_set_of_ne _ _ (by decide), hu.frame]
      exact fun hbp => (ne_pointers_of_calleeSaved (hsaved _ (mem_reverse.1 hbp))).2 rfl
    · have hr' := (ne_pointers_of_calleeSaved hr).1
      rw [hkept r hr' (fun hmem => hnot (mem_reverse.1 hmem)), State.regs_set_of_ne _ _ hr',
        hu.kept r hr hnot]
    · refine hvalue s.regs (fun i q hi => ?_) r (mem_reverse.2 hr)
      rw [reverse_reverse] at hi
      rw [show 1 + paddedSlots slots saved.length + 1 + i = 2 + paddedSlots slots saved.length + i by
        omega]
      exact hholds.regs i q hi

/-- **Taking a frame down** moves the stack pointer back, and gives the registers back as they were, if
the words of the frame still hold them. -/
theorem execs_takeDown (hsaved : ∀ r ∈ saved, r ∈ PhysReg.calleeSaved) (hu : InFrame slots saved s 0 u)
    (h : execs env (takeDown slots saved) u = some t) :
    t.regs .rsp = s.regs .rsp ∧
      ∀ ws, HoldsFrame slots saved s ws u → ∀ r ∈ keptRegs, t.regs r = s.regs r := by
  rw [takeDown, execs_append, execs_append, execs_append] at h
  obtain ⟨w, h2, h⟩ := Option.bind_eq_some_iff.1 h
  obtain ⟨v, h1, h2⟩ := Option.bind_eq_some_iff.1 h2
  obtain ⟨u', h0, h1⟩ := Option.bind_eq_some_iff.1 h1
  cases h0
  obtain ⟨hframe, hstack, hmem, hkept, hvalue⟩ := execs_restores hsaved hu h1
  -- Whether there are slots or not, the stack pointer is at the saved frame pointer now.
  have hw : w.regs .rsp = below (s.regs .rsp) 1 ∧ w.memory = v.memory ∧
      ∀ r, r ≠ .rsp → w.regs r = v.regs r := by
    by_cases hpad : paddedSlots slots saved.length = 0
    · rw [if_pos hpad] at h2
      cases h2
      rw [hpad] at hstack
      exact ⟨hstack, rfl, fun _ _ => rfl⟩
    · rw [if_neg hpad] at h2
      cases h2
      exact ⟨(v.regs_set .rsp (v.regs .rbp)).trans hframe, rfl, fun r hr => v.regs_set_of_ne _ hr⟩
  obtain ⟨hsp, hmem', hregs⟩ := hw
  cases h
  refine ⟨?_, fun ws hholds r hr => ?_⟩
  · show ((w.set .rsp (w.regs .rsp + 8)).set .rbp _).regs .rsp = _
    rw [State.regs_set_of_ne _ _ (by decide), State.regs_set, hsp]
    have hback := below_add_words (s.regs .rsp) 0 1
    rw [below_zero] at hback
    exact hback
  · obtain rfl | hr := mem_cons.1 hr
    · show ((w.set .rsp (w.regs .rsp + 8)).set .rbp (w.memory.read (w.regs .rsp))).regs .rbp = _
      rw [State.regs_set, hsp, hmem', hmem]
      exact hholds.link
    · have hne := ne_pointers_of_calleeSaved hr
      show ((w.set .rsp (w.regs .rsp + 8)).set .rbp _).regs r = _
      rw [State.regs_set_of_ne _ _ hne.2, State.regs_set_of_ne _ _ hne.1, hregs r hne.1]
      by_cases hmem'' : r ∈ saved
      · exact hvalue ws hholds r hmem''
      · exact hkept r hr hmem''

end Frames

end MxStar.Asm
