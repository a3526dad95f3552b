import MxStar.Proofs.ConventionCalls
import MxStar.Proofs.DefinedPasses
import MxStar.Proofs.HeapBlocks
import MxStar.Proofs.MachineStates
import MxStar.Proofs.RegionRuns

/-!
Global variables in registers: the function does the same, and leaves the same memory.

While the function runs, the register of a cached variable holds the word that the plain function has in
memory (`Shadows`), and each instruction keeps that up (`Tracks.follows`). The stores before a return put the
words back (`steps_stores`).
-/
namespace MxStar.Interp

open IR List

/-! ## Words that do not touch -/

namespace Memory

variable {m m' : Memory} {a b v w : Word}

theorem not_covers_of_apart (h : Apart a b) (ha : m.place a 8 = .ok (position a))
    (hb : m'.place b 8 = .ok (position b)) {k : Nat} (hk : Covers b k) : ¬Covers a k := by
  obtain ⟨-, -, -, ha⟩ := place_eq_ok ha
  obtain ⟨-, -, -, hb⟩ := place_eq_ok hb
  obtain ⟨hab, hba⟩ := h
  rw [distance_eq] at hab hba
  simp only [Covers] at hk ⊢
  omega

theorem readWord_writeWord_apart (hw : m.writeWord a w = .ok m') (h : Apart a b)
    (hr : m.readWord b = .ok v) : m'.readWord b = .ok v := by
  obtain ⟨n, hn, -⟩ := writeWord_eq_ok hw
  rw [readWord_congr (size_writeWord hw), hr]
  intro k hk
  rw [getElem?_writeWord hw,
    if_neg (not_covers_of_apart h (place_eq_position hn) (readWord_eq_ok.1 hr).1 hk)]

end Memory

/-! ## Steps that are repeated -/

/-- From `d` the program `q` can do what a step led to: reach a related configuration, return the
same value on the same machine, or fail with the same error if that is definite. -/
def Repeats (q : Program) (R : Config → Config → Prop) (d : Config) : Progress → Prop
  | .running c => ∃ d', Steps q d d' ∧ R c d'
  | .finished w m => ∃ d', Steps q d d' ∧ step q d' = .finished w m
  | .failed e => e.Definite → ∃ d', Steps q d d' ∧ step q d' = .failed e

theorem repeats_ofExcept {q : Program} {R : Config → Config → Prop} {d : Config}
    {x y : Except RunError Config} (h : Lifts R x y) (hd : step q d = .ofExcept y) :
    Repeats q R d (.ofExcept x) := by
  have hanswers := Answers.of_lifts h hd
  cases x <;> exact hanswers

/-! ## Runs of a function that calls nothing -/

def Reached (f : Func) : BlockId → Prop :=
  Relation.ReflTransGen (fun b t => ∃ i ∈ f.code b, t ∈ i.successors) f.entry

/-- Control is in a block of the function that it can get to, and no call is active. -/
structure Within (f : Func) (c : Config) : Prop where
  func : c.frame.func = f
  callers : c.callers = []
  code : ∃ b, Reached f b ∧ c.frame.code ⊆ f.code b

namespace Within

variable {p q : Program} {f : Func} {c d : Config} {i : Instr} {rest : List Instr}

theorem enter (f : Func) (m : Machine) (args : List Word) : Within f ⟨m, .enter f args, []⟩ :=
  ⟨rfl, rfl, f.entry, .refl, List.Subset.refl _⟩

/-- An instruction that goes to another block goes to one that control can get to. -/
theorem goto (h : Within f c) (hcode : c.frame.code = i :: rest) {t : BlockId}
    (ht : t ∈ i.successors) : Within f ⟨c.machine, c.frame.goto t, []⟩ := by
  obtain ⟨b, hb, hsub⟩ := h.code
  have hi : i ∈ f.code b := hsub (hcode ▸ mem_cons_self)
  refine ⟨h.func, rfl, t, hb.tail ⟨i, hi, ht⟩, ?_⟩
  rw [Frame.goto, h.func]
  exact List.Subset.refl _

theorem mem (h : Within f c) (hcode : c.frame.code = i :: rest) : ∃ b, Reached f b ∧ i ∈ f.code b := by
  obtain ⟨b, hb, hsub⟩ := h.code
  exact ⟨b, hb, hsub (hcode ▸ mem_cons_self)⟩

theorem advance (h : Within f c) (hcode : c.frame.code = i :: rest) {m : Machine} {fr : Frame}
    (hfunc : fr.func = c.frame.func) (hrest : fr.code = rest) : Within f ⟨m, fr, []⟩ := by
  obtain ⟨b, hb, hsub⟩ := h.code
  refine ⟨hfunc.trans h.func, rfl, b, hb, ?_⟩
  rw [hcode] at hsub
  exact hrest ▸ (cons_subset.1 hsub).2

variable (h : Within f c) (hcalls : ∀ b, Reached f b → ∀ i ∈ f.code b, i.isCall = false)

include h hcalls

theorem next (hs : step p c = .running d) : Within f d := by
  obtain ⟨m, fr, k⟩ := c
  obtain rfl : k = [] := h.callers
  obtain ⟨i, rest, hcode, hgoes⟩ := goes hs
  obtain ⟨b, hb, hi⟩ := h.mem hcode
  cases hgoes with
  | action _ _ happly =>
    have hkeeps := Action.apply_keeps happly
    exact h.advance hcode hkeeps.func hkeeps.code
  | jump => exact h.goto hcode mem_cons_self
  | branch => exact h.goto hcode (mem_successors_branch ..)
  | builtin | enter => cases hcalls b hb _ hi

/-- What a function that calls nothing does is the same in every program. -/
theorem step_eq : step q c = step p c := by
  cases hcode : c.frame.code with
  | nil => simp only [step, hcode]
  | cons i rest =>
    obtain ⟨b, hb, hi⟩ := h.mem hcode
    simp only [step, hcode]
    cases i with
    | call => cases hcalls b hb _ hi
    | _ => rfl

theorem steps (hs : Steps p c d) (q : Program) : Within f d ∧ Steps q c d := by
  induction hs with
  | refl => exact ⟨h, .refl⟩
  | tail _ hnext ih => exact ⟨ih.1.next hcalls hnext, ih.2.tail ((ih.1.step_eq hcalls).trans hnext)⟩

end Within

/-! ## Where the statics are -/

section Start

variable {p : Program} {input : String}
  (hfits : (Machine.start p input).memory.size ≤ 2 ^ 63)

include hfits

theorem exists_blocks_start : ∃ h, HeapHolds (Machine.start p input).memory h ∧
    h.reverse.map HeapBlock.ref = (Machine.start p input).statics.toList ∧
    h.length = p.statics.size ∧ ∀ b ∈ h, 8 ≤ b.size := by
  rw [Machine.start, ← Array.foldl_toList] at hfits ⊢
  obtain ⟨h, hholds, href, htexts, hsizes⟩ := exists_heap_statics p.statics.toList hfits
  refine ⟨h, hholds, href, ?_, hsizes⟩
  simpa only [length_map, length_reverse, Array.length_toList] using congrArg length htexts

/-- A static can be read from every memory that is large enough. -/
theorem exists_readWord_static {mem : Memory} (hmem : (Machine.start p input).memory.size ≤ mem.size)
    {s : StaticId} (hs : s < p.statics.size) :
    ∃ t w, (Machine.start p input).statics[s]? = some t ∧ mem.readWord t = .ok w := by
  obtain ⟨h, hholds, href, hlen, hsizes⟩ := exists_blocks_start hfits
  have hlt : s < h.reverse.length := by rwa [length_reverse, hlen]
  obtain ⟨-, hlow, hhigh⟩ := hholds.inside _ (mem_reverse.1 (getElem_mem hlt))
  have hsize := hsizes _ (mem_reverse.1 (getElem_mem hlt))
  rw [HeapBlock.start] at hlow hhigh
  have hread : ∃ w, mem.readWord h.reverse[s].ref = .ok w := by
    rw [Memory.readWord, Memory.place_position hlow (by omega) (by omega) (by decide)]
    exact ⟨_, rfl⟩
  obtain ⟨w, hw⟩ := hread
  refine ⟨h.reverse[s].ref, w, ?_, hw⟩
  rw [← Array.getElem?_toList, ← href, getElem?_map, getElem?_eq_getElem hlt]
  rfl

theorem apart_statics {s s' : StaticId} {t t' : Word} (hne : s ≠ s')
    (ht : (Machine.start p input).statics[s]? = some t)
    (ht' : (Machine.start p input).statics[s']? = some t') : Apart t t' := by
  obtain ⟨h, hholds, href, -, hsizes⟩ := exists_blocks_start hfits
  rw [← Array.getElem?_toList, ← href, getElem?_map] at ht ht'
  obtain ⟨b, hb, rfl⟩ := Option.map_eq_some_iff.1 ht
  obtain ⟨b', hb', rfl⟩ := Option.map_eq_some_iff.1 ht'
  have hin := hholds.inside b (mem_reverse.1 (mem_of_getElem? hb))
  have hin' := hholds.inside b' (mem_reverse.1 (mem_of_getElem? hb'))
  have hsize := hsizes b (mem_reverse.1 (mem_of_getElem? hb))
  have hsize' := hsizes b' (mem_reverse.1 (mem_of_getElem? hb'))
  obtain ⟨hs, rfl⟩ := List.getElem?_eq_some_iff.1 hb
  obtain ⟨hs', rfl⟩ := List.getElem?_eq_some_iff.1 hb'
  have hblocks : HeapBlock.Apart h.reverse[s] h.reverse[s'] := by
    have hpairs := pairwise_iff_getElem.1 (pairwise_reverse.2 hholds.apart)
    rcases Nat.lt_or_gt_of_ne hne with hlt | hgt
    · exact (hpairs s s' hs hs' hlt).symm
    · exact hpairs s' s hs' hs hgt
  simp only [HeapBlock.start, HeapBlock.Apart] at hin hin' hblocks
  rcases hblocks with hle | hle
  · exact apart_of_le (by omega) (by omega)
  · exact (apart_of_le (by omega) (by omega)).symm

end Start

end MxStar.Interp

namespace MxStar.Pass

open IR Interp List

variable {mem mem' : Memory} {s : StaticId} {vs : List Word} {t w : Word} {i : Instr} {r : VReg}
  {m : Machine} {l : List StaticId} {fr : Frame}

/-! ## Cached variables -/

variable {c : Cache} {W : SortedSet StaticId} {A : Array Word}

theorem Cache.reg?_inj {s' : StaticId} (h : c.reg? s = some r) (h' : c.reg? s' = some r) :
    s = s' := by
  obtain ⟨k, hk, rfl⟩ := Option.map_eq_some_iff.1 h
  obtain ⟨k', hk', heq⟩ := Option.map_eq_some_iff.1 h'
  obtain rfl := Nat.add_left_cancel heq
  obtain ⟨_, hget, -⟩ := idxOf?_eq_some_iff.1 hk
  obtain ⟨_, hget', -⟩ := idxOf?_eq_some_iff.1 hk'
  rw [← hget, hget']

/-- The cached variables do not touch each other or other statics, whose addresses are `A`. -/
def Cache.Separate (c : Cache) (A : Array Word) : Prop :=
  ∀ s r s' t t', c.reg? s = some r → s' ≠ s → A[s]? = some t → A[s']? = some t' → Apart t' t

/-- A byte of memory belongs to a cached variable of a list. -/
def Cache.Hides (c : Cache) (A : Array Word) (l : List StaticId) (k : Nat) : Prop :=
  ∃ s ∈ l, ∃ r t, c.reg? s = some r ∧ A[s]? = some t ∧ Covers t k

/-- Two memories are the same but for cached variables of a list. -/
structure Cache.Agree (c : Cache) (A : Array Word) (l : List StaticId) (mem mem' : Memory) : Prop where
  size : mem'.size = mem.size
  bytes : ∀ k, ¬c.Hides A l k → mem'.bytes[k]? = mem.bytes[k]?

/-- Every cached variable has its word of memory in its register. -/
def Cache.Holds (c : Cache) (A : Array Word) (mem : Memory) (reg : VReg → Option Word) : Prop :=
  ∀ s r, c.reg? s = some r → ∃ t w, A[s]? = some t ∧ mem.readWord t = .ok w ∧ reg r = some w

/-- What a frame with cached variables, on memory `mem'`, has to do with the plain one. -/
structure Shadows (c : Cache) (W : SortedSet StaticId) (A : Array Word) (m : Machine) (fr : Frame)
    (mem' : Memory) (fr' : Frame) : Prop where
  statics : m.statics = A
  memory : c.Agree A W.toList m.memory mem'
  size : fr.regs.size = c.base
  size' : fr'.regs.size = c.base + c.globals.toList.length
  regs : ∀ v w, fr.reg v = some w → fr'.reg v = some w
  slots : fr'.slots = fr.slots
  incoming : fr'.incoming = fr.incoming
  pushed : fr'.pushed = fr.pushed
  cached : c.Holds A m.memory fr'.reg

/-- The machines differ in memory alone, and the second frame has the cached variables. -/
def Beside (c : Cache) (W : SortedSet StaticId) (A : Array Word) (x y : Machine × Frame) : Prop :=
  y.1 = { x.1 with memory := y.1.memory } ∧ Shadows c W A x.1 x.2 y.1.memory y.2

theorem Cache.Agree.writeWord (h : c.Agree A l mem mem') (a w : Word) :
    Lifts (c.Agree A l) (mem.writeWord a w) (mem'.writeWord a w) := by
  have hplace := Memory.place_congr h.size a 8
  refine ⟨fun mem1 hw => ?_, fun e _ he => ?_⟩
  · obtain ⟨n, hn, -⟩ := Memory.writeWord_eq_ok hw
    obtain ⟨mem2, hw'⟩ := Memory.exists_writeWord (hplace.trans hn) w
    refine ⟨mem2, hw', ?_, fun k hk => ?_⟩
    · rw [Memory.size_writeWord hw', Memory.size_writeWord hw, h.size]
    · rw [Memory.getElem?_writeWord hw', Memory.getElem?_writeWord hw, h.bytes k hk]
  · rcases Except.bind_eq_error.1 he with hn | ⟨_, _, h⟩
    · rw [Memory.writeWord, hplace, hn]
      rfl
    · cases h

theorem Cache.Agree.readWord (h : c.Agree A l mem mem') {a : Word}
    (ha : ∀ s r t, c.reg? s = some r → A[s]? = some t → Apart a t)
    (hin : ∀ s r t, c.reg? s = some r → A[s]? = some t → mem.place t 8 = .ok (position t)) :
    mem'.readWord a = mem.readWord a := by
  cases hplace : mem.place a 8 with
  | error e =>
    rw [Memory.readWord, Memory.place_congr h.size, hplace, Memory.readWord, hplace]
    rfl
  | ok n =>
    refine Memory.readWord_congr h.size fun k hk => h.bytes k ?_
    rintro ⟨s, -, r, t, hr, ht, hcovers⟩
    exact Memory.not_covers_of_apart (ha s r t hr ht) (Memory.place_eq_position hplace)
      (hin s r t hr ht) hcovers hk

theorem act_load_static (hm : m.statics = A) (ht : A[s]? = some t)
    (hw : m.memory.readWord t = .ok w) (dst : Operand) :
    act m fr (.load dst (.static s)) [] = .ok (.write dst w) := by
  simp only [act, actLoad, place, Machine.staticAddress, hm, ht, Except.ok_bind, hw]
  rfl

theorem act_store_static (hm : m.statics = A) (ht : A[s]? = some t)
    (hw : m.memory.writeWord t w = .ok mem) (src : Operand) :
    act m fr (.store (.static s) src) [w] = .ok (.memory mem) := by
  simp only [act, actStore, place, Machine.staticAddress, hm, ht, Except.ok_bind]
  rw [show ([w] : List Word).getLastD 0 = w from rfl, hw]
  rfl

theorem address_eq_place {b : Operand} {offset : Word} (hi : i.address? = some (.base b offset))
    (hvs : Reads m fr i.sources vs) :
    address m fr (.base b offset) = place m (.base b offset) vs := by
  cases i with
  | load dst addr =>
    cases hi
    obtain ⟨w, hw, rfl⟩ := reads_one.1 hvs
    simp only [address, hw, place, Except.ok_bind]
    rfl
  | store addr src =>
    cases hi
    obtain ⟨w, v, hw, -, rfl⟩ := reads_two.1 hvs
    simp only [address, hw, place, Except.ok_bind]
    rfl
  | _ => cases hi

namespace Shadows

variable {m : Machine} {fr fr' : Frame} {mem' : Memory} (h : Shadows c W A m fr mem' fr')

include h

theorem value {o : Operand} (hw : value m fr o = .ok w) :
    Interp.value { m with memory := mem' } fr' o = .ok w := by
  cases o with
  | vreg v => exact value_vreg.2 (h.regs v w (value_vreg.1 hw))
  | phys r => exact value_phys.2 (value_phys.1 hw)
  | _ => exact hw

theorem reads {os : List Operand} (hvs : Reads m fr os vs) :
    Reads { m with memory := mem' } fr' os vs :=
  hvs.imp fun _ _ _ hw => h.value hw

theorem assign (dst : Operand) (w : Word) :
    Lifts (Beside c W A) (assign m fr dst w)
      (Interp.assign { m with memory := mem' } fr' dst w) := by
  cases dst with
  | vreg v =>
    by_cases hv : v < fr.regs.size
    · have hv' : v < fr'.regs.size := by rw [h.size', ← h.size]; exact Nat.lt_add_right _ hv
      rw [Interp.assign, if_pos hv, Interp.assign, if_pos hv']
      refine .ok ⟨rfl, { h with
        size := by rw [Array.size_setIfInBounds, h.size]
        size' := by rw [Array.size_setIfInBounds, h.size']
        regs := fun u x hu => ?_
        cached := fun s r hr => ?_ }⟩
      · exact join_set_mono (t := id) (fun _ => id) hv hv' (h.regs u x) hu
      · obtain ⟨t, x, ht, hx, hreg⟩ := h.cached s r hr
        refine ⟨t, x, ht, hx, ?_⟩
        have hne : v ≠ r := Nat.ne_of_lt (Nat.lt_of_lt_of_le (h.size ▸ hv) (Cache.reg?_eq_some hr).2.1)
        rw [Frame.reg] at hreg ⊢
        rw [join_setIfInBounds _ _ _ _ hv', if_neg hne, hreg]
    · rw [Interp.assign, if_neg hv]
      exact .void id _
  | phys p => exact .ok ⟨rfl, { h with }⟩
  | imm _ => exact .void id _
  | static _ => exact .void id _

/-- What an action does on both sides: the same, or two writes to memory that match. -/
inductive Matching (c : Cache) (W : SortedSet StaticId) (A : Array Word) (reg : VReg → Option Word) :
    Action → Action → Prop
  | write (dst : Operand) (w : Word) : Matching c W A reg (.write dst w) (.write dst w)
  | divide (dst : Operand) (op : BinOp) (quot rem : Word) :
      Matching c W A reg (.divide dst op quot rem) (.divide dst op quot rem)
  | slot (k : SlotId) (w : Word) : Matching c W A reg (.slot k w) (.slot k w)
  | push (w : Word) : Matching c W A reg (.push w) (.push w)
  | memory {mem mem' : Memory} (memory : c.Agree A W.toList mem mem') (cached : c.Holds A mem reg) :
      Matching c W A reg (.memory mem) (.memory mem')

theorem place_cached (hr : c.reg? s = some r) (ht : A[s]? = some t) :
    m.memory.place t 8 = .ok (position t) := by
  obtain ⟨t', w, ht', hw, -⟩ := h.cached s r hr
  cases ht.symm.trans ht'
  exact (Memory.readWord_eq_ok.1 hw).1

section Access

variable {addr : Address}
  (hapart : ∀ a, place m addr vs = .ok a →
    ∀ s r t, c.reg? s = some r → A[s]? = some t → Apart a t)

include hapart

theorem load (dst : Operand) : Lifts (Matching c W A fr'.reg)
    (do return .write dst (← m.memory.readWord (← place m addr vs)))
    (do return .write dst (← mem'.readWord (← place { m with memory := mem' } addr vs))) := by
  rw [show place { m with memory := mem' } addr vs = place m addr vs from rfl]
  cases hplace : place m addr vs with
  | error e => exact .void (place_error hplace).not_definite _
  | ok a =>
    simp only [Except.ok_bind, h.memory.readWord (hapart a hplace) fun _ _ _ => h.place_cached]
    cases m.memory.readWord a with
    | error e => exact .error e
    | ok w => exact .ok (.write dst w)

theorem store (w : Word) : Lifts (Matching c W A fr'.reg)
    (do return .memory (← m.memory.writeWord (← place m addr vs) w))
    (do return .memory (← mem'.writeWord (← place { m with memory := mem' } addr vs) w)) := by
  rw [show place { m with memory := mem' } addr vs = place m addr vs from rfl]
  cases hplace : place m addr vs with
  | error e => exact .void (place_error hplace).not_definite _
  | ok a =>
    refine (h.memory.writeWord a w).bind fun mem1 mem2 hw _ hagree => .ok (.memory hagree ?_)
    intro s r hr
    obtain ⟨t, x, ht, hx, hreg⟩ := h.cached s r hr
    exact ⟨t, x, ht, Memory.readWord_writeWord_apart hw (hapart a hplace s r t hr ht) hx, hreg⟩

end Access

/-- An instruction that names no cached variable, and reaches none through a register, does the same
on both sides. -/
theorem act (hi : IsSimple i) (vs : List Word)
    (hapart : ∀ addr a, i.address? = some addr → place m addr vs = .ok a →
      ∀ s r t, c.reg? s = some r → A[s]? = some t → Apart a t) :
    Lifts (Matching c W A fr'.reg) (act m fr i vs)
      (Interp.act { m with memory := mem' } fr' i vs) := by
  cases i with
  | binary dst op lhs rhs =>
    simp only [Interp.act, actBinary]
    split
    · split
      · exact .ok (.divide ..)
      · exact .error _
    · split
      · exact .ok (.write ..)
      · exact .error _
  | unary | compare | move => exact .ok (.write ..)
  | push => exact .ok (.push _)
  | load dst addr =>
    cases addr with
    | slot k =>
      simp only [Interp.act, actLoad, Frame.slot, h.slots]
      split
      · exact .ok (.write ..)
      · exact .void id _
    | incoming k =>
      simp only [Interp.act, actLoad, h.incoming]
      split
      · exact .ok (.write ..)
      · exact .error _
    | _ => exact h.load (fun a => hapart _ a rfl) dst
  | store addr src =>
    cases addr with
    | slot k => exact .ok (.slot ..)
    | _ => exact h.store (fun a => hapart _ a rfl) _
  | call | jump | branch | ret => simp [IsSimple, Instr.isCall, Instr.isTerminator] at hi

theorem apply {a b : Action} (hab : Matching c W A fr'.reg a b) :
    Lifts (Beside c W A) (a.apply m fr) (b.apply { m with memory := mem' } fr') := by
  cases hab with
  | write dst w => exact h.assign dst w
  | divide dst op quot rem =>
    simp only [Action.apply]
    cases dst with
    | phys r =>
      have h' : Shadows c W A { m with regs := (m.regs.set .rax (some quot)).set .rdx (some rem) } fr
          mem' fr' := { h with }
      exact h'.assign _ _
    | _ => exact h.assign _ _
  | slot k w =>
    simp only [Action.apply, h.slots]
    split
    · exact .ok ⟨rfl, { h with slots := rfl }⟩
    · exact .error _
  | push w => exact .ok ⟨rfl, { h with pushed := congrArg (w :: ·) h.pushed }⟩
  | memory hagree hcached => exact .ok ⟨rfl, { h with memory := hagree, cached := hcached }⟩

/-- Writing a cached variable: one side writes memory, the other the register. -/
theorem write_cached (hsep : c.Separate A) (hr : c.reg? s = some r) (hs : s ∈ W.toList) (ht : A[s]? = some t)
    (hwrite : m.memory.writeWord t w = .ok mem) :
    Lifts (Beside c W A) ((Action.memory mem).apply m fr)
      ((Action.write (.vreg r) w).apply { m with memory := mem' } fr') := by
  obtain ⟨-, hbase, hlt⟩ := Cache.reg?_eq_some hr
  rw [← h.size'] at hlt
  simp only [Action.apply, Interp.assign, if_pos hlt]
  refine .ok ⟨rfl, { h with
    memory := ⟨?_, fun k hk => ?_⟩
    size' := by rw [Array.size_setIfInBounds, h.size']
    regs := fun v x hv => ?_
    cached := fun s' r' hr' => ?_ }⟩
  · rw [h.memory.size, Memory.size_writeWord hwrite]
  · rw [h.memory.bytes k hk, Memory.getElem?_writeWord hwrite, if_neg]
    exact fun hcovers => hk ⟨s, hs, r, t, hr, ht, hcovers⟩
  · have hne : r ≠ v := Nat.ne_of_gt (Nat.lt_of_lt_of_le (h.size ▸ Alloc.reg_lt hv) hbase)
    rw [Frame.reg, join_setIfInBounds _ _ _ _ hlt, if_neg hne]
    exact h.regs v x hv
  · rw [Frame.reg, join_setIfInBounds _ _ _ _ hlt]
    obtain ⟨t', x, ht', hx, hreg⟩ := h.cached s' r' hr'
    by_cases hsame : s = s'
    · subst hsame
      cases ht.symm.trans ht'
      rw [if_pos (Option.some.inj (hr.symm.trans hr'))]
      exact ⟨t, w, ht, Memory.readWord_writeWord hwrite, rfl⟩
    · rw [if_neg (fun heq : r = r' => hsame (Cache.reg?_inj hr (heq ▸ hr')))]
      exact ⟨t', x, ht',
        Memory.readWord_writeWord_apart hwrite (hsep s' r' s t' t hr' hsame ht' ht) hx, hreg⟩

end Shadows

/-! ## The code with cached variables -/

/-- What an instruction is replaced by. A block that the layout has twice is gone through twice,
which turns the stores before its return into moves of registers to themselves. -/
inductive Cache.Becomes (c : Cache) (W : SortedSet StaticId) : Instr → List Instr → Prop
  | ret (v : Option Operand) {idle : List Instr}
      (h : ∀ j ∈ idle, ∃ s r, c.reg? s = some r ∧ j = .move (.vreg r) (.vreg r)) :
      Becomes c W (.ret v) (idle ++ (c.stores W ++ [.ret v]))
  | other {i : Instr} (h : ∀ v, i ≠ .ret v) : Becomes c W i (c.instr W i)

theorem Cache.becomes_instr (c : Cache) (W : SortedSet StaticId) (i : Instr) :
    c.Becomes W i (c.instr W i) := by
  cases i with
  | ret v =>
    have h := Cache.Becomes.ret (c := c) (W := W) v (forall_mem_nil _)
    exact h
  | _ => exact .other (by simp)

theorem Cache.instr_instr (h : ∀ v, i ≠ .ret v) :
    (c.instr W i).flatMap (c.instr W) = c.instr W i := by
  cases i with
  | ret v => exact absurd rfl (h v)
  | load dst addr | store addr src =>
    cases addr with
    | static s => cases hr : c.reg? s <;> simp [Cache.instr, hr]
    | _ => rfl
  | _ => rfl

theorem Cache.instr_eq_self (h : ∀ v, i ≠ .ret v)
    (hi : ∀ s, i.staticAccess? = some s → c.reg? s = none) : c.instr W i = [i] := by
  cases i with
  | ret v => exact absurd rfl (h v)
  | load dst addr | store addr src =>
    cases addr with
    | static s => rw [Cache.instr, hi s rfl]; rfl
    | _ => rfl
  | _ => rfl

theorem Cache.Becomes.again {new : List Instr} (h : c.Becomes W i new) :
    c.Becomes W i (new.flatMap (c.instr W)) := by
  cases h with
  | other h => rw [Cache.instr_instr h]; exact .other h
  | @ret v idle h =>
    have hret : [Instr.ret v].flatMap (c.instr W) = c.stores W ++ [.ret v] := by simp [Cache.instr]
    rw [flatMap_append, flatMap_append, hret, ← append_assoc]
    refine .ret v fun j hj => ?_
    rcases mem_append.1 hj with hj | hj
    · obtain ⟨j', hj', hj⟩ := mem_flatMap.1 hj
      obtain ⟨s, r, hr, rfl⟩ := h j' hj'
      exact ⟨s, r, hr, mem_singleton.1 hj⟩
    · obtain ⟨j', hj', hj⟩ := mem_flatMap.1 hj
      obtain ⟨s, -, hs⟩ := mem_filterMap.1 hj'
      obtain ⟨r, hr, rfl⟩ := Option.map_eq_some_iff.1 hs
      rw [Cache.instr, hr] at hj
      exact ⟨s, r, hr, mem_singleton.1 hj⟩

theorem Cache.replaced_iterate (code : List Instr) (n : Nat) :
    Replaced (c.Becomes W) code ((·.flatMap (c.instr W))^[n + 1] code) := by
  induction n with
  | zero =>
    refine (replaced_flatMap (c.instr W) code).mono fun i new h => ?_
    rw [h]
    exact c.becomes_instr W i
  | succ n ih =>
    rw [Function.iterate_succ_apply']
    generalize (·.flatMap (c.instr W))^[n + 1] code = code' at ih
    induction ih with
    | nil => exact .nil
    | cons h _ ih => rw [flatMap_append]; exact .cons h.again ih

/-- Rewriting blocks one after another rewrites each as often as it is listed. -/
theorem rewrite_iterate (h : List Instr → List Instr) (l : List BlockId) (f : Func) :
    Func.rewrite h l f = { f with blocks := (Func.rewrite h l f).blocks } ∧
      (Func.rewrite h l f).blocks.size = f.blocks.size ∧
      ∀ b, b < f.blocks.size → (Func.rewrite h l f).code b = h^[l.count b] (f.code b) := by
  induction l generalizing f with
  | nil => exact ⟨rfl, rfl, fun _ _ => rfl⟩
  | cons d l ih =>
    obtain ⟨hsame, hsize, hcode⟩ := ih (f.setCode d (h (f.code d)))
    refine ⟨hsame, hsize.trans (f.size_setCode ..), fun b hb => ?_⟩
    refine (hcode b (by rwa [f.size_setCode])).trans ?_
    rw [Func.code, Func.setCode, Func.block_modifyBlock, count_cons]
    by_cases hd : d = b
    · subst hd
      rw [if_pos ⟨rfl, hb⟩, if_pos (beq_self_eq_true d), Function.iterate_succ_apply]
    · rw [if_neg (fun hand => hd hand.1), if_neg (by simpa using hd)]
      rfl

/-- A function and the function with cached variables. -/
structure Cached (c : Cache) (W : SortedSet StaticId) (f g : Func) : Prop where
  base : c.base = f.vregCount
  regs : g.vregCount = c.base + c.globals.toList.length
  slots : g.slots = f.slots
  params : g.params = f.params
  entry : g.code g.entry = c.loads ++ [.jump f.entry]
  /-- A block that does not exist has no code in the plain function. -/
  code : ∀ b ∈ f.layout, f.code b = [] ∨ Replaced (c.Becomes W) (f.code b) (g.code b)

theorem cached_cacheGlobals (statics : Array Static) (f : Func)
    (h : ((accessed f).filter (isGlobal statics)).isEmpty = false) :
    Cached ⟨(accessed f).filter (isGlobal statics), f.vregCount⟩ (written f) f
      (cacheGlobals statics f) := by
  unfold cacheGlobals
  extract_lets globals c hints g
  rw [if_neg (by rw [h]; exact Bool.false_ne_true)]
  obtain ⟨hsame, hsize, hcode⟩ := rewrite_iterate (·.flatMap (c.instr (written f))) g.layout g
  rw [show g.expandLayout (c.instr (written f)) = Func.rewrite _ g.layout g from rfl]
  generalize Func.rewrite (·.flatMap (c.instr (written f))) g.layout g = g' at hsame hsize hcode
  exact {
    base := rfl
    regs := by
      refine (congrArg Func.vregCount hsame :).trans ?_
      change (f.hints ++ hints.toArray).size = f.hints.size + _
      simp [hints, globals]
    slots := (congrArg Func.slots hsame :)
    params := (congrArg Func.params hsame :)
    entry := by
      change (g'.addEntry _ _).code g'.blocks.size = _
      rw [Func.code_addEntry, if_pos rfl, (congrArg Func.entry hsame :)]
    code := fun b hb => by
      by_cases hlt : b < f.blocks.size
      · right
        rw [Func.code_addEntry, if_neg (Nat.ne_of_lt (Nat.lt_of_lt_of_eq hlt hsize.symm))]
        obtain ⟨n, hn⟩ := Nat.exists_eq_succ_of_ne_zero (count_pos_iff.2 hb).ne'
        rw [hcode b hlt, show g.layout.count b = n + 1 from hn]
        exact Cache.replaced_iterate (f.code b) n
      · exact .inl (f.code_eq_nil (Nat.le_of_not_lt hlt)) }

/-! ## Filling the registers and writing them back -/

section Runs

variable {q : Program} {m : Machine} {fr : Frame} {mem : Memory} {rest : List Instr}

theorem Cache.Agree.eq (h : c.Agree A [] mem mem') : mem' = mem := by
  have hbytes : mem'.bytes = mem.bytes :=
    Array.ext_getElem? fun k => h.bytes k (by simp [Cache.Hides])
  cases mem
  cases mem'
  exact congrArg Memory.mk hbytes

/-- Writing a cached variable back takes it out of what the memories differ in. -/
theorem Cache.Agree.writeBack {mem1 : Memory} (h : c.Agree A (s :: l) mem mem')
    (ht : A[s]? = some t) (hw : mem.readWord t = .ok w) (hwrite : mem'.writeWord t w = .ok mem1) :
    c.Agree A l mem mem1 := by
  refine ⟨(Memory.size_writeWord hwrite).trans h.size, fun k hk => ?_⟩
  rw [Memory.getElem?_writeWord hwrite]
  split
  · next hcovers =>
    obtain ⟨hle, hlt⟩ := hcovers
    have hword := (Memory.readWord_eq_ok.1 hw).2 (k - position t) (by omega)
    rw [Nat.add_sub_cancel' hle] at hword
    exact hword.symm
  · next hcovers =>
    refine h.bytes k ?_
    rintro ⟨s', hs', r, t', hr, ht', hk'⟩
    rcases mem_cons.1 hs' with rfl | hs'
    · cases ht.symm.trans ht'
      exact hcovers hk'
    · exact hk ⟨s', hs', r, t', hr, ht', hk'⟩

/-- The stores before a return bring memory to what it is without a cache. -/
theorem steps_stores (hstatics : m.statics = A) (hheld : c.Holds A m.memory fr.reg)
    (l : List StaticId) (h : c.Agree A l m.memory mem') (rest : List Instr) :
    Steps q ⟨{ m with memory := mem' }, { fr with code :=
        (l.filterMap fun s => (c.reg? s).map fun v => .store (.static s) (.vreg v)) ++ rest }, []⟩
      ⟨m, { fr with code := rest }, []⟩ := by
  induction l generalizing mem' with
  | nil =>
    rw [h.eq]
    exact .refl
  | cons s l ih =>
    cases hr : c.reg? s with
    | none =>
      rw [filterMap_cons_none (by rw [hr]; rfl)]
      refine ih ⟨h.size, fun k hk => h.bytes k ?_⟩
      rintro ⟨s', hs', r, t, hr', ht⟩
      rcases mem_cons.1 hs' with rfl | hs'
      · cases hr.symm.trans hr'
      · exact hk ⟨s', hs', r, t, hr', ht⟩
    | some r =>
      rw [filterMap_cons_some (by rw [hr]; rfl)]
      obtain ⟨t, w, ht, hw, hreg⟩ := hheld s r hr
      have hplace := (Memory.readWord_eq_ok.1 hw).1
      obtain ⟨mem1, hwrite⟩ :=
        Memory.exists_writeWord ((Memory.place_congr h.size t 8).trans hplace) w
      refine .cons ?_ (ih (h.writeBack ht hw hwrite))
      rw [step_simple rfl ⟨rfl, rfl⟩ (reads_one.2 ⟨w, value_vreg.2 hreg, rfl⟩),
        act_store_static (m := { m with memory := mem' }) hstatics ht hwrite]
      rfl

theorem assign_same (h : fr.reg r = some w) : assign m fr (.vreg r) w = .ok (m, fr) := by
  have hget : fr.regs[r]? = some (some w) := Option.join_eq_some_iff.1 h
  obtain ⟨hlt, -⟩ := Array.getElem?_eq_some_iff.1 hget
  have hsame : fr.regs.setIfInBounds r (some w) = fr.regs := by
    refine Array.ext_getElem? fun k => ?_
    rw [Array.getElem?_setIfInBounds]
    split
    · next hk => rw [← hk, hget]
    · rfl
  rw [assign, if_pos hlt, hsame]

theorem steps_idle (hheld : c.Holds A mem fr.reg) (idle : List Instr)
    (h : ∀ j ∈ idle, ∃ s r, c.reg? s = some r ∧ j = .move (.vreg r) (.vreg r)) :
    Steps q ⟨m, { fr with code := idle ++ rest }, []⟩ ⟨m, { fr with code := rest }, []⟩ := by
  induction idle with
  | nil => exact .refl
  | cons j idle ih =>
    obtain ⟨⟨s, r, hr, rfl⟩, hidle⟩ := forall_mem_cons.1 h
    obtain ⟨t, w, -, -, hreg⟩ := hheld s r hr
    refine .cons ?_ (ih hidle)
    rw [step_simple rfl ⟨rfl, rfl⟩ (reads_one.2 ⟨w, value_vreg.2 hreg, rfl⟩)]
    have hassign : assign m { fr with code := idle ++ rest } (.vreg r) w = .ok _ := assign_same hreg
    exact congrArg (fun x => Progress.ofExcept (x >>= fun y => pure ⟨y.1, y.2, []⟩)) hassign

/-- The loads at the start fill the registers from `base` on, and change no other. -/
theorem steps_loads {base : Nat} (hstatics : m.statics = A) (l : List StaticId) (n : Nat) (fr : Frame)
    (hread : ∀ s ∈ l, ∃ t w, A[s]? = some t ∧ m.memory.readWord t = .ok w)
    (hsize : base + n + l.length ≤ fr.regs.size)
    (hcode : fr.code = (l.zipIdx n).map (fun x => .load (.vreg (base + x.2)) (.static x.1)) ++ rest) :
    ∃ regs, Steps q ⟨m, fr, []⟩ ⟨m, { fr with regs := regs, code := rest }, []⟩ ∧
      regs.size = fr.regs.size ∧ (∀ v : Nat, v < base + n → (regs[v]?).join = fr.reg v) ∧
      ∀ k s, l[k]? = some s → ∃ t w, A[s]? = some t ∧ m.memory.readWord t = .ok w ∧
        (regs[base + (n + k)]?).join = some w := by
  induction l generalizing n fr with
  | nil =>
    refine ⟨fr.regs, ?_, rfl, fun _ _ => rfl, fun k s hs => by cases hs⟩
    obtain rfl : fr.code = rest := hcode
    exact .refl
  | cons s l ih =>
    obtain ⟨⟨t, w, ht, hw⟩, hread⟩ := forall_mem_cons.1 hread
    rw [length_cons] at hsize
    have hlt : base + n < fr.regs.size := by omega
    let fr1 : Frame := { fr with
      regs := fr.regs.setIfInBounds (base + n) (some w)
      code := ((l.zipIdx (n + 1)).map fun x => .load (.vreg (base + x.2)) (.static x.1)) ++ rest }
    obtain ⟨regs, hsteps, hregs, hbelow, hloaded⟩ := ih (n + 1) fr1 hread
      (by rw [Array.size_setIfInBounds]; omega) rfl
    rw [Array.size_setIfInBounds] at hregs
    refine ⟨regs, .cons ?_ hsteps, hregs, fun v hv => ?_, fun k s' hs' => ?_⟩
    · rw [step_simple hcode ⟨rfl, rfl⟩ (reads_nil.2 rfl), act_load_static hstatics ht hw,
        Except.ok_bind, Action.apply, assign, if_pos hlt]
      rfl
    · rw [hbelow v (by omega), Frame.reg, join_setIfInBounds _ _ _ _ hlt, if_neg (by omega)]
      rfl
    · cases k with
      | zero =>
        cases hs'
        refine ⟨t, w, ht, hw, ?_⟩
        rw [Nat.add_zero, hbelow _ (by omega), Frame.reg, join_setIfInBounds _ _ _ _ hlt, if_pos rfl]
      | succ k =>
        obtain ⟨t', w', ht', hw', hreg⟩ := hloaded k s' hs'
        exact ⟨t', w', ht', hw', by rw [← hreg, Nat.add_right_comm n 1 k, Nat.add_assoc]⟩

end Runs

/-! ## Step by step -/

/-- A function that calls nothing, and the function with cached variables. -/
structure Setting (c : Cache) (W : SortedSet StaticId) (A : Array Word) (f g : Func) : Prop where
  cached : Cached c W f g
  layout : ∀ b, Reached f b → b ∈ f.layout
  calls : ∀ b, Reached f b → ∀ i ∈ f.code b, i.isCall = false
  separate : c.Separate A
  written : ∀ b, Reached f b → ∀ s src, .store (.static s) src ∈ f.code b → s ∈ W.toList

/-- The plain function and the one with cached variables are at the same point. -/
structure Tracks (c : Cache) (W : SortedSet StaticId) (A : Array Word) (f g : Func) (x y : Config) :
    Prop where
  within : Within f x
  func : y.frame.func = g
  callers : y.callers = []
  code : x.frame.code = [] ∨ Replaced (c.Becomes W) x.frame.code y.frame.code
  beside : Beside c W A (x.machine, x.frame) (y.machine, y.frame)

/-- What the next instruction accesses through a register does not touch these statics. -/
def Spares (P : StaticId → Prop) (x : Config) : Prop :=
  ∀ i rest b offset a, x.frame.code = i :: rest → i.address? = some (.base b offset) →
    address x.machine x.frame (.base b offset) = .ok a →
    ∀ s t, P s → x.machine.statics[s]? = some t → Apart a t

namespace Tracks

variable {p q : Program} {f g : Func} {x y : Config} {m : Machine} {fr fr' : Frame} {mem' : Memory}
  {i : Instr} {rest rest' : List Instr}

theorem goto (hset : Setting c W A f g) (h : Tracks c W A f g x y) (hcode : x.frame.code = i :: rest)
    {t : BlockId} (ht : t ∈ i.successors) :
    Tracks c W A f g ⟨x.machine, x.frame.goto t, []⟩ ⟨y.machine, y.frame.goto t, []⟩ where
  within := h.within.goto hcode ht
  func := h.func
  callers := rfl
  code := by
    obtain ⟨b, hb, hi⟩ := h.within.mem hcode
    have hcode := hset.cached.code t (hset.layout t (hb.tail ⟨i, hi, ht⟩))
    rwa [Frame.goto, Frame.goto, h.within.func, h.func]
  beside := ⟨h.beside.1, { h.beside.2 with }⟩

section

variable (h : Tracks c W A f g ⟨m, fr, []⟩ ⟨{ m with memory := mem' }, fr', []⟩)

include h

theorem shadows : Shadows c W A m fr mem' fr' := h.beside.2

theorem advance (hcode : fr.code = i :: rest) (hrest : Replaced (c.Becomes W) rest rest') {a b : Action}
    (hab : Shadows c W A m { fr with code := rest } mem' { fr' with code := rest' } →
      Lifts (Beside c W A) (a.apply m { fr with code := rest })
        (b.apply { m with memory := mem' } { fr' with code := rest' })) :
    Lifts (Tracks c W A f g)
      (do
        let (m, fr) ← a.apply m { fr with code := rest }
        return ⟨m, fr, []⟩)
      (do
        let (m, fr) ← b.apply { m with memory := mem' } { fr' with code := rest' }
        return ⟨m, fr, []⟩) := by
  refine (hab { h.beside.2 with }).bind fun z z' hz hz' hbeside => ?_
  have hkeeps := Action.apply_keeps hz
  have hkeeps' := Action.apply_keeps hz'
  exact .ok {
    within := h.within.advance hcode hkeeps.func hkeeps.code
    func := hkeeps'.func.trans h.func
    callers := rfl
    code := .inr (by rwa [hkeeps.code, hkeeps'.code])
    beside := hbeside }

theorem follows_load {dst : Operand} (hcode : fr.code = .load dst (.static s) :: rest)
    (hcode' : fr'.code = .move dst (.vreg r) :: rest') (hrest : Replaced (c.Becomes W) rest rest')
    (hr : c.reg? s = some r) :
    Repeats q (Tracks c W A f g) ⟨{ m with memory := mem' }, fr', []⟩ (step p ⟨m, fr, []⟩) := by
  obtain ⟨t, w, ht, hw, hreg⟩ := h.shadows.cached s r hr
  rw [step_simple hcode ⟨rfl, rfl⟩ (reads_nil.2 rfl), act_load_static h.shadows.statics ht hw]
  exact repeats_ofExcept (h.advance hcode hrest fun hs => hs.apply (.write dst w))
    (step_simple hcode' ⟨rfl, rfl⟩ (reads_one.2 ⟨w, value_vreg.2 hreg, rfl⟩))

theorem follows_store (hset : Setting c W A f g) {src : Operand}
    (hcode : fr.code = .store (.static s) src :: rest)
    (hcode' : fr'.code = .move (.vreg r) src :: rest') (hrest : Replaced (c.Becomes W) rest rest')
    (hr : c.reg? s = some r) (hvs : Reads m fr [src] vs) :
    Repeats q (Tracks c W A f g) ⟨{ m with memory := mem' }, fr', []⟩ (step p ⟨m, fr, []⟩) := by
  obtain ⟨b, hb, hi⟩ := h.within.mem hcode
  obtain ⟨t, x, ht, hx, -⟩ := h.shadows.cached s r hr
  obtain ⟨w, hw, rfl⟩ := reads_one.1 hvs
  obtain ⟨mem, hwrite⟩ := Memory.exists_writeWord (Memory.readWord_eq_ok.1 hx).1 w
  rw [step_simple hcode ⟨rfl, rfl⟩ hvs, act_store_static h.shadows.statics ht hwrite]
  exact repeats_ofExcept (h.advance hcode hrest fun hs =>
      hs.write_cached hset.separate hr (hset.written b hb s src hi) ht hwrite)
    (step_simple hcode' ⟨rfl, rfl⟩ (h.shadows.reads hvs))

/-- At a return, the cached variables are written back first. -/
theorem follows_ret {v : Option Operand} {idle : List Instr} (hcode : fr.code = .ret v :: rest)
    (hidle : ∀ j ∈ idle, ∃ s r, c.reg? s = some r ∧ j = .move (.vreg r) (.vreg r))
    (hcode' : fr'.code = idle ++ (c.stores W ++ [.ret v]) ++ rest') (hvs : Reads m fr v.toList vs) :
    Repeats q (Tracks c W A f g) ⟨{ m with memory := mem' }, fr', []⟩ (step p ⟨m, fr, []⟩) := by
  rw [step_ret hcode hvs]
  have hstores := steps_stores (q := q) h.shadows.statics h.shadows.cached W.toList
    h.shadows.memory (.ret v :: rest')
  have hsteps := (steps_idle (q := q) h.shadows.cached idle hidle).trans hstores
  have hreads : Reads m { fr' with code := .ret v :: rest' } v.toList vs :=
    (h.shadows.reads hvs).imp fun o _ w hw => by cases o <;> exact hw
  have hlast : step q ⟨m, { fr' with code := .ret v :: rest' }, []⟩ = .finished (vs.getD 0 0) m :=
    step_ret rfl hreads
  have hsame : fr' = { fr' with code := idle ++ (c.stores W ++ .ret v :: rest') } := by
    rw [append_assoc, append_assoc] at hcode'
    rw [← singleton_append, ← hcode']
  exact ⟨_, hsame ▸ hsteps, hlast⟩

theorem follows_plain (hset : Setting c W A f g)
    (hspares : Spares (· ∈ c.globals) ⟨m, fr, []⟩) (hcode : fr.code = i :: rest)
    (hcode' : fr'.code = i :: rest') (hrest : Replaced (c.Becomes W) rest rest')
    (hvs : Reads m fr i.sources vs) (hret : ∀ v, i ≠ .ret v)
    (hplain : ∀ s, i.staticAccess? = some s → c.reg? s = none) :
    Repeats q (Tracks c W A f g) ⟨{ m with memory := mem' }, fr', []⟩ (step p ⟨m, fr, []⟩) := by
  by_cases hsimple : IsSimple i
  · have hact := h.shadows.act hsimple vs fun addr a haddr hplace s r t hr ht => by
      cases addr with
      | base b offset =>
        exact hspares i rest b offset a hcode haddr ((address_eq_place haddr hvs).trans hplace) s t
          (Cache.reg?_eq_some hr).1 (h.shadows.statics ▸ ht)
      | static s' =>
        have hnone : c.reg? s' = none := hplain s' (by cases i <;> cases haddr <;> rfl)
        have hs' : A[s']? = some a := by
          simp only [place, Machine.staticAddress, h.shadows.statics] at hplace
          split at hplace <;> cases hplace
          assumption
        refine hset.separate s r s' t a hr ?_ ht hs'
        rintro rfl
        cases hr.symm.trans hnone
      | _ => cases hplace
    rw [step_simple hcode hsimple hvs]
    exact repeats_ofExcept
      (hact.bind fun a b _ _ hab => h.advance hcode hrest fun hs => hs.apply hab)
      (step_simple hcode' hsimple (h.shadows.reads hvs))
  · cases i with
    | jump t =>
      rw [step_jump hcode]
      exact ⟨_, .one (step_jump hcode'), h.goto hset hcode mem_cons_self⟩
    | branch cond lhs rhs t e =>
      obtain ⟨l, r, hl, hr, rfl⟩ := reads_two.1 hvs
      rw [step_branch hcode hl hr]
      exact ⟨_, .one (step_branch hcode' (h.shadows.value hl) (h.shadows.value hr)),
        h.goto hset hcode (mem_successors_branch ..)⟩
    | ret v => exact absurd rfl (hret v)
    | call =>
      obtain ⟨b, hb, hi⟩ := h.within.mem hcode
      cases hset.calls b hb _ hi
    | _ => exact absurd ⟨rfl, rfl⟩ hsimple

end

/-- **One step.** The function with cached variables does what the plain one does. -/
theorem follows (hset : Setting c W A f g) (h : Tracks c W A f g x y)
    (hspares : Spares (· ∈ c.globals) x) :
    Repeats q (Tracks c W A f g) y (step p x) := by
  obtain ⟨m, fr, k⟩ := x
  obtain ⟨m', fr', k'⟩ := y
  obtain rfl : k = [] := h.within.callers
  obtain rfl : k' = [] := h.callers
  have hmachine : m' = { m with memory := m'.memory } := h.beside.1
  generalize m'.memory = mem' at hmachine
  subst hmachine
  cases hcode : fr.code with
  | nil =>
    simp only [step, hcode]
    exact fun hd => hd.elim
  | cons i rest =>
    obtain ⟨new, rest', hnew, hrest, hcode'⟩ : ∃ new rest', c.Becomes W i new ∧
        Replaced (c.Becomes W) rest rest' ∧ fr'.code = new ++ rest' := by
      rcases h.code with hnil | hrep
      · cases hcode.symm.trans hnil
      · have hrep : Replaced (c.Becomes W) fr.code fr'.code := hrep
        rw [hcode] at hrep
        generalize hc' : fr'.code = code' at hrep
        cases hrep with
        | cons hnew hrest => exact ⟨_, _, hnew, hrest, rfl⟩
    obtain ⟨vs, hvs⟩ | ⟨e, he, hvoid⟩ := reads_or_failed (p := p) (m := m) (k := []) hcode
    · cases hnew with
      | ret v hidle => exact h.follows_ret hcode hidle hcode' hvs
      | other hret =>
        by_cases hcached : ∃ s r, i.staticAccess? = some s ∧ c.reg? s = some r
        · obtain ⟨s, r, hs, hr⟩ := hcached
          cases i with
          | load dst addr =>
            cases addr with
            | static s' =>
              cases hs
              rw [Cache.instr, hr] at hcode'
              exact h.follows_load hcode hcode' hrest hr
            | _ => cases hs
          | store addr src =>
            cases addr with
            | static s' =>
              cases hs
              rw [Cache.instr, hr] at hcode'
              exact h.follows_store hset hcode hcode' hrest hr hvs
            | _ => cases hs
          | _ => cases hs
        · have hplain : ∀ s, i.staticAccess? = some s → c.reg? s = none := fun s hs =>
            Option.eq_none_iff_forall_not_mem.2 fun r hr => hcached ⟨s, r, hs, hr⟩
          rw [Cache.instr_eq_self hret hplain] at hcode'
          exact h.follows_plain hset hspares hcode hcode' hrest hvs hret hplain
    · rw [he]
      exact fun hd => absurd hd hvoid.not_definite

end Tracks

theorem tracks_start {q : Program} {f g : Func} (hset : Setting c W A f g)
    (hstatics : m.statics = A)
    (hread : ∀ s ∈ c.globals.toList, ∃ t w, A[s]? = some t ∧ m.memory.readWord t = .ok w)
    (args : List Word) :
    ∃ y, Steps q ⟨m, .enter g args, []⟩ y ∧ Tracks c W A f g ⟨m, .enter f args, []⟩ y := by
  have hsize : (Frame.enter f args).regs.size = c.base :=
    ((size_foldl_set _ _ _).trans Array.size_replicate).trans hset.cached.base.symm
  have hsize' : (Frame.enter g args).regs.size = c.base + c.globals.toList.length :=
    ((size_foldl_set _ _ _).trans Array.size_replicate).trans hset.cached.regs
  obtain ⟨regs, hsteps, hregs, hbelow, hloaded⟩ := steps_loads (q := q) hstatics c.globals.toList 0
    (.enter g args) hread hsize'.ge hset.cached.entry
  refine ⟨_, hsteps.tail (step_jump rfl), ?_⟩
  exact {
    within := .enter f m args
    func := rfl
    callers := rfl
    code := hset.cached.code f.entry (hset.layout _ .refl)
    beside := ⟨rfl, {
      statics := hstatics
      memory := ⟨rfl, fun _ _ => rfl⟩
      size := hsize
      size' := hregs.trans hsize'
      regs := fun v w hv => by
        refine (hbelow v (Nat.lt_of_lt_of_eq (Alloc.reg_lt hv) hsize)).trans ?_
        change ((Alloc.setParams args g.params.zipIdx (Array.replicate g.vregCount none))[v]?).join = _
        rw [hset.cached.params]
        refine Alloc.setParams_mono (fun _ => rfl) _ ?_ (fun u x hx => ?_) v w hv
        · rw [Array.size_replicate, Array.size_replicate, hset.cached.regs, hset.cached.base]
          exact Nat.le_add_right _ _
        · rw [join_replicate_none] at hx
          cases hx
      slots := congrArg (Array.replicate · none) hset.cached.slots
      incoming := rfl
      pushed := rfl
      cached := fun s r hr => by
        obtain ⟨k, hk, rfl⟩ := Option.map_eq_some_iff.1 hr
        obtain ⟨hlt, hget, -⟩ := idxOf?_eq_some_iff.1 hk
        obtain ⟨t, w, ht, hw, hreg⟩ := hloaded k s (List.getElem?_eq_some_iff.2 ⟨hlt, hget⟩)
        exact ⟨t, w, ht, hw, by rwa [Nat.zero_add] at hreg⟩ }⟩ }

/-! ## Whole runs -/

def Finishes (p : Program) (x : Config) (w : Word) (m : Machine) : Prop :=
  ∃ x', Steps p x x' ∧ step p x' = .finished w m

section Meaning

variable {p q : Program} {f g : Func} {m : Machine} {args : List Word}

theorem exists_tracks {x y x' : Config} (hset : Setting c W A f g) (h : Tracks c W A f g x y)
    (hspares : ∀ z, Steps p x z → Spares (· ∈ c.globals) z) (hs : Steps p x x') :
    ∃ y', Steps q y y' ∧ Tracks c W A f g x' y' := by
  induction hs with
  | refl => exact ⟨y, .refl, h⟩
  | @tail x1 x2 hs hnext ih =>
    obtain ⟨y1, hy, h1⟩ := ih
    have hrepeats := h1.follows (p := p) (q := q) hset (hspares x1 hs)
    rw [show step p x1 = .running x2 from hnext] at hrepeats
    obtain ⟨y2, hy2, h2⟩ := hrepeats
    exact ⟨y2, hy.trans hy2, h2⟩

/-- The blocks that control can get to call nothing, in a function that calls nothing. -/
theorem isCall_of_reached (hcalls : f.hasCalls = false) (hlayout : ∀ b, Reached f b → b ∈ f.layout)
    (b : BlockId) (hb : Reached f b) (i : Instr) (hi : i ∈ f.code b) : i.isCall = false := by
  have hall := any_eq_false.1 hcalls i (mem_flatMap.2 ⟨b, hlayout b hb, hi⟩)
  simpa using hall

theorem repeats_self (x : Config) : Repeats q Eq x (step q x) := by
  cases h : step q x with
  | running y => exact ⟨y, .one h, rfl⟩
  | finished w m => exact ⟨x, .refl, h⟩
  | failed e => exact fun _ => ⟨x, .refl, h⟩

/-- Where the statics are as a program starts with them, the cached variables are readable and lie
apart. -/
theorem setting_cacheGlobals {input : String}
    (hcalls : ∀ b, Reached f b → ∀ i ∈ f.code b, i.isCall = false)
    (hlayout : ∀ b, Reached f b → b ∈ f.layout)
    (hfits : (Machine.start p input).memory.size ≤ 2 ^ 63)
    (hempty : ((accessed f).filter (isGlobal p.statics)).isEmpty = false) :
    Setting ⟨(accessed f).filter (isGlobal p.statics), f.vregCount⟩ (written f)
      (Machine.start p input).statics f (cacheGlobals p.statics f) where
  cached := cached_cacheGlobals p.statics f hempty
  layout := hlayout
  calls := hcalls
  separate := fun _ _ _ _ _ _ hne ht ht' => apart_statics hfits hne ht' ht
  written := fun b hb s src hi => by
    have hmem : .store (.static s) src ∈ f.instrs := mem_flatMap.2 ⟨b, hlayout b hb, hi⟩
    exact SortedSet.mem_ofList.2 (mem_filterMap.2 ⟨_, hmem, rfl⟩)

/-- Wherever the plain run is, the run with cached variables can do the same. -/
theorem exists_repeats {input : String} (hcalls : f.hasCalls = false)
    (hlayout : ∀ b, Reached f b → b ∈ f.layout)
    (hstatics : m.statics = (Machine.start p input).statics)
    (hmemory : (Machine.start p input).memory.size ≤ m.memory.size)
    (hfits : (Machine.start p input).memory.size ≤ 2 ^ 63)
    (hspares : ∀ x, Steps p ⟨m, .enter f args, []⟩ x →
      Spares (fun s => s ∈ accessed f ∧ isGlobal p.statics s = true) x) (q : Program) {x : Config}
    (hx : Steps p ⟨m, .enter f args, []⟩ x) :
    ∃ y R, Steps q ⟨m, .enter (cacheGlobals p.statics f) args, []⟩ y ∧ Repeats q R y (step p x) := by
  have hleaf := isCall_of_reached hcalls hlayout
  cases hempty : ((accessed f).filter (isGlobal p.statics)).isEmpty with
  | true =>
    have hself : cacheGlobals p.statics f = f := if_pos hempty
    rw [hself]
    obtain ⟨hwithin, hsteps⟩ := (Within.enter f m args).steps hleaf hx q
    exact ⟨x, Eq, hsteps, hwithin.step_eq hleaf ▸ repeats_self x⟩
  | false =>
    have hset := setting_cacheGlobals hleaf hlayout hfits hempty
    have hmem : ∀ s ∈ (accessed f).filter (isGlobal p.statics),
        s ∈ accessed f ∧ isGlobal p.statics s = true := fun s hs => SortedSet.mem_filter.1 hs
    obtain ⟨y0, hy0, htracks⟩ := tracks_start (q := q) hset hstatics (fun s hs =>
      exists_readWord_static hfits hmemory (lt_of_isGlobal (hmem s hs).2)) args
    have hspares' : ∀ z, Steps p ⟨m, .enter f args, []⟩ z → Spares
        (· ∈ (accessed f).filter (isGlobal p.statics)) z :=
      fun z hz i rest b offset a hcode hi ha s t hs => hspares z hz i rest b offset a hcode hi ha s t
        (hmem s hs)
    obtain ⟨y, hy, h⟩ := exists_tracks (q := q) hset htracks hspares' hx
    exact ⟨y, _, hy0.trans hy, h.follows hset (hspares' x hx)⟩

/-- **Caching global variables keeps the meaning.** A function that calls nothing, whose layout has
every block that control can get to, and that accesses none of the global variables it names through
a register, returns the same value with its variables in registers, and leaves the same machine, with
the whole memory the same. Its run ends the same way for some fuel, also if it fails with a division by
zero or an access out of bounds. The statics are where a program starts with them; memory may hold
anything. -/
theorem caching_keeps_meaning {input : String} (hcalls : f.hasCalls = false)
    (hlayout : ∀ b, Reached f b → b ∈ f.layout)
    (hstatics : m.statics = (Machine.start p input).statics)
    (hmemory : (Machine.start p input).memory.size ≤ m.memory.size)
    (hfits : (Machine.start p input).memory.size ≤ 2 ^ 63)
    (hspares : ∀ x, Steps p ⟨m, .enter f args, []⟩ x →
      Spares (fun s => s ∈ accessed f ∧ isGlobal p.statics s = true) x) (q : Program) :
    (∀ w m', Finishes p ⟨m, .enter f args, []⟩ w m' →
      Finishes q ⟨m, .enter (cacheGlobals p.statics f) args, []⟩ w m') ∧
    ∀ o, (∀ e, o = .error e → e = .divisionByZero ∨ ∃ a, e = .outOfBounds a) →
      Ends p ⟨m, .enter f args, []⟩ o →
      Ends q ⟨m, .enter (cacheGlobals p.statics f) args, []⟩ o := by
  have hrepeats := fun x => exists_repeats (x := x) hcalls hlayout hstatics hmemory hfits hspares q
  refine ⟨?_, fun o ho hends => ?_⟩
  · rintro w m' ⟨x, hx, hw⟩
    obtain ⟨y, R, hy, h⟩ := hrepeats x hx
    rw [hw] at h
    obtain ⟨y', hy', hend⟩ := h
    exact ⟨y', hy.trans hy', hend⟩
  · have hdefinite : Definite o := by
      cases o with
      | ok => trivial
      | error e => rcases ho e rfl with rfl | ⟨a, rfl⟩ <;> trivial
    obtain ⟨x, hx, hlast⟩ := hends.exists_last fun _ => hdefinite.not_void
    obtain ⟨y, R, hy, h⟩ := hrepeats x hx
    rcases hlast with ⟨w, m', hw, rfl⟩ | ⟨e, he, rfl⟩
    · rw [hw] at h
      obtain ⟨y', hy', hend⟩ := h
      exact .of_steps (hy.trans hy') (.of_finished hend)
    · rw [he] at h
      obtain ⟨y', hy', hend⟩ := h hdefinite
      exact .of_steps (hy.trans hy') (.of_failed hend)

end Meaning

/-- Counts up to its argument, from what was counted before, and notes an odd result. -/
def tally : Func where
  name := "tally"
  label := "tally"
  params := [0]
  blocks := #[
    { name := "entry", instrs := [.load (.vreg 1) (.static 0), .branch .lt (.vreg 1) (.vreg 0) 1 2] },
    { name := "more", instrs := [.binary (.vreg 1) .add (.vreg 1) (.imm 1),
      .store (.static 0) (.vreg 1), .jump 0] },
    { name := "end", instrs := [.binary (.vreg 2) .mod (.vreg 1) (.imm 2),
      .branch .eq (.vreg 2) (.imm 0) 3 4] },
    { name := "even", instrs := [.ret (some (.vreg 1))] },
    { name := "odd", instrs := [.store (.static 1) (.vreg 1), .ret (some (.vreg 1))] }]
  layout := [0, 1, 2, 3, 4]
  hints := #["limit", "n", "r"]

def tallies : Program where
  functions := #[tally]
  statics := #[⟨"count", .word, ""⟩, ⟨"odd", .word, ""⟩]

theorem caching_keeps_tally : ∃ m, Finishes tallies (.start tallies tally [3] "") 3 m ∧
    Finishes tallies ⟨(Machine.start tallies "").passArgs [3],
      .enter (cacheGlobals tallies.statics tally) [3], []⟩ 3 m := by
  have hrun : runConfig tallies 40 (.start tallies tally [3] "") = .ok ⟨3, ""⟩ := by decide +kernel
  obtain ⟨x, hx, hlast⟩ := Ends.exists_last ⟨40, hrun⟩ fun e he => by cases he
  obtain ⟨m, hm⟩ : ∃ m, Finishes tallies (.start tallies tally [3] "") 3 m := by
    rcases hlast with ⟨w, m, hw, heq⟩ | ⟨e, -, heq⟩
    · obtain ⟨rfl, -⟩ := Outcome.mk.inj (Except.ok.inj heq)
      exact ⟨m, x, hx, hw⟩
    · cases heq
  have hcode : ∀ b ∈ tally.layout, ∀ i ∈ tally.code b, i.isCall = false ∧
      (∀ t ∈ i.successors, t ∈ tally.layout) ∧ i.address? = i.staticAccess?.map .static := by
    decide
  have hlayout : ∀ b, Reached tally b → b ∈ tally.layout := by
    intro b hb
    induction hb with
    | refl => decide
    | tail _ hstep ih =>
      obtain ⟨i, hi, ht⟩ := hstep
      exact (hcode _ ih i hi).2.1 _ ht
  have hstatics : ((Machine.start tallies "").passArgs [3]).statics =
      (Machine.start tallies "").statics := rfl
  refine ⟨m, hm, (caching_keeps_meaning (by decide) hlayout hstatics (Nat.le_refl _)
    (by decide +kernel) ?_ tallies).1 3 m hm⟩
  -- No instruction accesses memory through a register.
  intro x hx i rest b offset a hi haddr
  have hcalls := fun b hb i hi => (hcode b (hlayout b hb) i hi).1
  obtain ⟨d, hd, hi⟩ := ((Within.enter ..).steps hcalls hx tallies).1.mem hi
  rw [(hcode d (hlayout d hd) i hi).2.2] at haddr
  cases hs : i.staticAccess? <;> rw [hs] at haddr <;> cases haddr

end MxStar.Pass
