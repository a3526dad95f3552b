import MxStar.Lowering.Draft
import MxStar.Proofs.DefinedCode
import MxStar.Proofs.Results

/-!
How a function grows while it is built.

1. A `Sketch` is a draft with the registers that are written on every way to each of its blocks.
   `Post x s Q` says that `Q` holds of what a step of construction gives and of some sketch after it.
2. `Sound env P o s` says what holds of a sketch between steps: the blocks `P` are still empty, and
   all others are ended, apart from the current one, which is open if `o` holds.
3. `Grows k s s'` says that nothing was taken away, and that all but the innermost `k` scopes are as
   before. `Built` puts both together.
-/
namespace MxStar.IR

theorem Func.code_pushInstr (f : Func) {b : BlockId} (hb : b < f.blocks.size) (i : Instr)
    (c : BlockId) :
    (f.pushInstr b i).code c = if b = c then f.code c ++ [i] else f.code c := by
  rw [code, pushInstr, block_modifyBlock]
  by_cases h : b = c
  · subst h
    simp [hb, Block.push, code]
  · simp [h, code]

end MxStar.IR

namespace MxStar.Lowering

open MxStar.Tree IR List

variable {b : BlockId} {D : Set VReg} {i : Instr}

def Env.Callable (env : Env) (id : FuncId) : Prop := ∃ key, env.funcs.find? key = some id

/-! ## Sketches -/

/-- A draft with the registers that are written on every way to each block. -/
structure Sketch extends Draft where
  starts : BlockId → Set VReg

namespace Sketch

abbrev size (s : Sketch) : Nat := s.func.blocks.size

abbrev regs (s : Sketch) : Nat := s.func.vregCount

abbrev code (s : Sketch) (b : BlockId) : List Instr := s.func.code b

def written (s : Sketch) : Set VReg := writtenBy (s.starts s.current) (s.code s.current)

def known (s : Sketch) (env : Env) : Known :=
  ⟨s.regs, s.size, s.statics.size, env.Callable, s.starts, s.written⟩

def emit (s : Sketch) (i : Instr) : Sketch := { s with func := s.func.pushInstr s.current i }

def addReg (s : Sketch) (hint : String) : Sketch := { s with func := s.func.addVReg hint }

def addBlock (s : Sketch) (name : String) (D : Set VReg) : Sketch :=
  { s with
    func := s.func.addBlock name
    starts := fun b => if b = s.func.blocks.size then D else s.starts b }

def goto (s : Sketch) (b : BlockId) : Sketch := { s with current := b }

def addStatic (s : Sketch) (x : Static) : Sketch := { s with statics := s.statics.push x }

variable (s : Sketch)

theorem code_emit (hs : s.current < s.size) (i : Instr) (b : BlockId) :
    (s.emit i).code b = if s.current = b then s.code b ++ [i] else s.code b :=
  Func.code_pushInstr s.func hs i b

theorem code_addBlock (name : String) (D : Set VReg) (b : BlockId) :
    (s.addBlock name D).code b = s.code b :=
  Func.code_addBlock s.func name b

theorem size_emit (i : Instr) : (s.emit i).size = s.size := Func.size_modifyBlock ..

theorem size_addBlock (name : String) (D : Set VReg) : (s.addBlock name D).size = s.size + 1 :=
  Array.size_push _

theorem regs_addReg (hint : String) : (s.addReg hint).regs = s.regs + 1 := Array.size_push _

theorem written_emit (hs : s.current < s.size) (i : Instr) :
    (s.emit i).written = s.written ∪ i.writes := by
  change writtenBy (s.starts s.current) ((s.emit i).code s.current) = _
  rw [s.code_emit hs, if_pos rfl, writtenBy_append]
  rfl

theorem starts_addBlock_self (name : String) (D : Set VReg) :
    (s.addBlock name D).starts s.size = D :=
  if_pos rfl

theorem starts_addBlock (name : String) (D : Set VReg) (hb : b < s.size) :
    (s.addBlock name D).starts b = s.starts b :=
  if_neg (Nat.ne_of_lt hb)

theorem written_addBlock (hs : s.current < s.size) (name : String) (D : Set VReg) :
    (s.addBlock name D).written = s.written := by
  change writtenBy ((s.addBlock name D).starts s.current) ((s.addBlock name D).code s.current) = _
  rw [s.starts_addBlock name D hs, s.code_addBlock]
  rfl

theorem written_goto (hb : s.code b = []) : (s.goto b).written = s.starts b := by
  change writtenBy (s.starts b) (s.code b) = _
  rw [hb]
  rfl

/-- The block exists, and `D` is written on every way to it. -/
def StartsAt (b : BlockId) (D : Set VReg) : Prop := b < s.size ∧ s.starts b = D

theorem lt_regs_addReg (hint : String) : s.regs < (s.addReg hint).regs := by
  rw [regs_addReg]
  exact Nat.lt_succ_self _

theorem lt_size_addBlock (name : String) (D : Set VReg) : s.size < (s.addBlock name D).size := by
  rw [size_addBlock]
  exact Nat.lt_succ_self _

theorem startsAt_addBlock (name : String) (D : Set VReg) :
    (s.addBlock name D).StartsAt s.size D :=
  ⟨s.lt_size_addBlock name D, s.starts_addBlock_self name D⟩

variable {s} in
theorem StartsAt.enters (h : s.StartsAt b D) (hD : D ⊆ s.written) (env : Env) :
    (s.known env).Enters b :=
  ⟨h.1, h.2.trans_subset hD⟩

end Sketch

/-! ## Steps of construction -/

/-- If the step succeeds, `Q` holds of its result and of a sketch of the draft after it. -/
def Post {α : Type} (x : Build α) (s : Sketch) (Q : α → Sketch → Prop) : Prop :=
  ∀ a d, x.run s.toDraft = .ok (a, d) → ∃ s', s'.toDraft = d ∧ Q a s'

namespace Post

variable {α β : Type} {s : Sketch} {Q : α → Sketch → Prop}

theorem mono {x : Build α} {Q R : α → Sketch → Prop} (h : Post x s Q)
    (hQR : ∀ a s', Q a s' → R a s') : Post x s R := by
  intro a d hx
  obtain ⟨s', hd, hQ⟩ := h a d hx
  exact ⟨s', hd, hQR a s' hQ⟩

theorem bind {x : Build α} {f : α → Build β} {Q : β → Sketch → Prop}
    (h : Post x s fun a s' => Post (f a) s' Q) : Post (x >>= f) s Q := by
  intro b d hb
  obtain ⟨⟨a, d'⟩, hx, hf⟩ := Except.bind_eq_ok.1 hb
  obtain ⟨s', rfl, hQ⟩ := h a d' hx
  exact hQ b d hf

theorem pure {a : α} (h : Q a s) : Post (pure a) s Q := by
  intro b d hb
  cases hb
  exact ⟨s, rfl, h⟩

theorem throw {e : CompileError} : Post (throw e) s Q := by
  intro b d hb
  cases hb

/-- A step that changes the draft is a change of the sketch that does the same to its draft. -/
theorem modify {f : Draft → Draft} {Q : Unit → Sketch → Prop} (s' : Sketch)
    (hs' : s'.toDraft = f s.toDraft) (h : Q () s') : Post (modify f) s Q := by
  intro b d hb
  cases hb
  exact ⟨s', hs', h⟩

theorem modifyGet {f : Draft → α × Draft} (s' : Sketch) (hs' : s'.toDraft = (f s.toDraft).2)
    (h : Q (f s.toDraft).1 s') : Post (modifyGet f) s Q := by
  intro b d hb
  obtain ⟨rfl, rfl⟩ := Prod.mk.inj (Except.ok.inj hb)
  exact ⟨s', hs', h⟩

theorem get {f : Draft → Build α} (h : Post (f s.toDraft) s Q) : Post (get >>= f) s Q :=
  bind fun d d' hd => by
    cases hd
    exact ⟨s, rfl, h⟩

variable {R : α → Sketch → Prop}

theorem emit {f : Unit → Build α} (h : Post (f ()) (s.emit i) R) : Post (emit i >>= f) s R :=
  bind (modify _ rfl h)

theorem emitLast {R : Unit → Sketch → Prop} (h : R () (s.emit i)) : Post (Lowering.emit i) s R :=
  modify _ rfl h

theorem fresh {hint : String} {f : VReg → Build α} (h : Post (f s.regs) (s.addReg hint) R) :
    Post (fresh hint >>= f) s R :=
  bind (modifyGet _ rfl h)

/-- What is written before a new block is chosen when the block is added. -/
theorem newBlock {name : String} {f : BlockId → Build α} (D : Set VReg)
    (h : Post (f s.size) (s.addBlock name D) R) : Post (newBlock name >>= f) s R :=
  bind (modifyGet (s.addBlock name D) rfl h)

theorem switchTo {f : Unit → Build α} (h : Post (f ()) (s.goto b) R) :
    Post (switchTo b >>= f) s R :=
  bind (modify _ rfl h)

theorem switchLast {R : Unit → Sketch → Prop} (h : R () (s.goto b)) :
    Post (Lowering.switchTo b) s R :=
  modify _ rfl h

theorem discard {x : Build α} {Q : Unit → Sketch → Prop} (h : Post x s fun _ s' => Q () s') :
    Post (discard x) s Q :=
  bind (h.mono fun _ _ hQ => pure hQ)

end Post

/-! ## Sound sketches -/

/-- The code transfers control nowhere if it is open, and at its end alone otherwise. -/
def Status : Bool → List Instr → Prop
  | true, code => ∀ i ∈ code, i.isTerminator = false
  | false, code => EndsOnce code

theorem Status.push {code : List Instr} (h : Status true code) (i : Instr) :
    Status (!i.isTerminator) (code ++ [i]) := by
  cases hi : i.isTerminator with
  | false =>
    intro j hj
    rcases mem_append.1 hj with hj | hj
    · exact h j hj
    · rwa [mem_singleton.1 hj]
  | true =>
    refine ⟨⟨i, by simp, hi⟩, ?_⟩
    rw [dropLast_concat]
    exact h

/-- All that names in scope stand for exists and has a value where `K` holds. -/
structure Names (env : Env) (d : Draft) (K : Known) : Prop where
  self : ∀ cls obj, env.self? = some (cls, obj) → K.Has obj
  globals : ∀ name s, env.globals.find? name = some s → s < K.statics
  locals : ∀ scope ∈ d.locals, ∀ v ∈ scope.values, K.Has v
  loops : ∀ l ∈ d.loops, K.Enters l.leave ∧ K.Enters l.next

theorem Names.mono {env : Env} {d d' : Draft} {K L : Known} (h : Names env d K) (hKL : K.Le L)
    (hlocals : d'.locals = d.locals) (hloops : d'.loops = d.loops) : Names env d' L where
  self := fun cls obj hobj => (h.self cls obj hobj).mono hKL
  globals := fun name s hs => Nat.lt_of_lt_of_le (h.globals name s hs) hKL.statics
  locals := by
    rw [hlocals]
    exact fun scope hscope v hv => (h.locals scope hscope v hv).mono hKL
  loops := by
    rw [hloops]
    exact fun l hl => ⟨(h.loops l hl).1.mono hKL, (h.loops l hl).2.mono hKL⟩

/-- Blocks to go on in later, each with the registers that are written on every way to it. -/
abbrev Pending := List (BlockId × Set VReg)

/-- What holds of a sketch between steps of construction. -/
structure Sound (env : Env) (P : Pending) (o : Bool) (s : Sketch) : Prop where
  names : Names env s.toDraft (s.known env)
  params : ∀ v ∈ s.func.params, v < s.regs
  entry : s.func.entry < s.size
  layout : s.func.layout = List.range s.size
  grounded : ∀ b, Grounded (s.known env) (s.starts b) (s.code b)
  current : s.current < s.size
  here : Status o (s.code s.current)
  nodup : (P.map Prod.fst).Nodup
  pending : ∀ x ∈ P, s.StartsAt x.1 x.2 ∧ x.1 ≠ s.current ∧ s.code x.1 = []
  ended : ∀ b, b < s.size → b ≠ s.current → b ∉ P.map Prod.fst → EndsOnce (s.code b)

theorem Sound.written_goto {env : Env} {P : Pending} {o : Bool} {s : Sketch} (h : Sound env P o s)
    (hb : (b, D) ∈ P) : (s.goto b).written = D := by
  obtain ⟨hstarts, -, hempty⟩ := h.pending (b, D) hb
  exact (s.written_goto hempty).trans hstarts.2

/-- One sketch came of another by adding to it, in at most the innermost `k` scopes. What is written
where construction goes on is not compared: that is another place. -/
structure Grows (k : Nat) (s s' : Sketch) : Prop where
  name : s'.func.name = s.func.name
  label : s'.func.label = s.func.label
  params : s'.func.params = s.func.params
  entry : s'.func.entry = s.func.entry
  regs : s.regs ≤ s'.regs
  size : s.size ≤ s'.size
  statics : s.statics.toList <+: s'.statics.toList
  starts : ∀ b, b < s.size → s'.starts b = s.starts b
  code : ∀ b, s.code b <+: s'.code b
  loops : s'.loops = s.loops
  locals : s'.locals.drop k = s.locals.drop k

namespace Grows

variable {k : Nat} {s s' s'' : Sketch}

theorem refl (s : Sketch) : Grows k s s where
  name := rfl
  label := rfl
  params := rfl
  entry := rfl
  regs := Nat.le_refl _
  size := Nat.le_refl _
  statics := prefix_refl _
  starts := fun _ _ => rfl
  code := fun _ => prefix_refl _
  loops := rfl
  locals := rfl

theorem trans (h : Grows k s s') (h' : Grows k s' s'') : Grows k s s'' where
  name := h'.name.trans h.name
  label := h'.label.trans h.label
  params := h'.params.trans h.params
  entry := h'.entry.trans h.entry
  regs := Nat.le_trans h.regs h'.regs
  size := Nat.le_trans h.size h'.size
  statics := h.statics.trans h'.statics
  starts := fun b hb => (h'.starts b (Nat.lt_of_lt_of_le hb h.size)).trans (h.starts b hb)
  code := fun b => (h.code b).trans (h'.code b)
  loops := h'.loops.trans h.loops
  locals := h'.locals.trans h.locals

theorem le_having (h : Grows k s s') (env : Env) {E : Set VReg} (hDE : D ⊆ E) :
    ((s.known env).having D).Le ((s'.known env).having E) where
  regs := h.regs
  statics := h.statics.length_le
  callable := fun _ hid => hid
  enters := fun b hb =>
    ⟨Nat.lt_of_lt_of_le hb.1 h.size, (h.starts b hb.1).trans_subset (hb.2.trans hDE)⟩
  written := hDE

theorem startsAt (h : Grows k s s') (hb : s.StartsAt b D) : s'.StartsAt b D :=
  ⟨Nat.lt_of_lt_of_le hb.1 h.size, (h.starts b hb.1).trans hb.2⟩

theorem grounded (h : Grows k s s') {env : Env} {code : List Instr}
    (hcode : Grounded (s.known env) D code) : Grounded (s'.known env) D code :=
  hcode.mono (fun _ => h.le_having env subset_rfl) subset_rfl

theorem scopes (h : Grows 0 s s') : Grows k s s' :=
  { h with locals := congrArg (List.drop k) (show s'.locals = s.locals from h.locals) }

theorem emit (hs : s.current < s.size) (i : Instr) : Grows k s (s.emit i) :=
  { refl (k := k) s with
    size := Nat.le_of_eq (s.size_emit i).symm
    code := by
      intro b
      rw [s.code_emit hs]
      split
      · exact prefix_append _ _
      · exact prefix_refl _ }

theorem addReg (s : Sketch) (hint : String) : Grows k s (s.addReg hint) :=
  { refl (k := k) s with regs := by rw [s.regs_addReg]; exact Nat.le_succ _ }

theorem addBlock (s : Sketch) (name : String) (D : Set VReg) : Grows k s (s.addBlock name D) :=
  { refl (k := k) s with
    size := by rw [s.size_addBlock]; exact Nat.le_succ _
    starts := fun _ hb => s.starts_addBlock name D hb
    code := fun b => s.code_addBlock name D b ▸ prefix_refl _ }

theorem goto (s : Sketch) (b : BlockId) : Grows k s (s.goto b) :=
  { refl (k := k) s with }

theorem addStatic (s : Sketch) (x : Static) : Grows k s (s.addStatic x) :=
  { refl (k := k) s with statics := by simp [Sketch.addStatic] }

end Grows

theorem Sketch.le_addReg (s : Sketch) (env : Env) (hint : String) :
    (s.known env).Le ((s.addReg hint).known env) :=
  (Grows.addReg (k := 0) s hint).le_having env subset_rfl

theorem Sketch.le_emit (s : Sketch) (env : Env) (hs : s.current < s.size) (i : Instr) :
    (s.known env).Le ((s.emit i).known env) :=
  (Grows.emit (k := 0) hs i).le_having env (by rw [s.written_emit hs]; exact Set.subset_union_left)

/-- A sketch came of another by adding to it, and is sound; what was written before is written. -/
structure Built (env : Env) (k : Nat) (P : Pending) (o : Bool) (s s' : Sketch) : Prop extends
    Grows k s s' where
  written : s.written ⊆ s'.written
  sound : Sound env P o s'

namespace Built

variable {env : Env} {k : Nat} {P P' : Pending} {o o' : Bool} {s s' s'' : Sketch}

theorem refl (h : Sound env P o s) : Built env k P o s s := ⟨.refl s, subset_rfl, h⟩

theorem trans (h : Built env k P' o' s s') (h' : Built env k P o s' s'') : Built env k P o s s'' :=
  ⟨h.toGrows.trans h'.toGrows, h.written.trans h'.written, h'.sound⟩

theorem scopes (h : Built env 0 P o s s') : Built env k P o s s' :=
  ⟨h.toGrows.scopes, h.written, h.sound⟩

theorem le (h : Built env k P o s s') : (s.known env).Le (s'.known env) :=
  h.toGrows.le_having env h.written

/-- An instruction that transfers control ends the block, and others keep it open. -/
theorem push (h : Built env k P true s s') (hi : i.Within (s'.known env)) :
    Built env k P (!i.isTerminator) s (s'.emit i) := by
  have hs := h.sound
  have hgrows : Grows 0 s' (s'.emit i) := .emit hs.current i
  have hwritten : s'.written ⊆ (s'.emit i).written := by
    rw [s'.written_emit hs.current]
    exact Set.subset_union_left
  refine ⟨h.toGrows.trans hgrows.scopes, h.written.trans hwritten, ?_⟩
  exact {
    names := hs.names.mono (hgrows.le_having env hwritten) rfl rfl
    params := hs.params
    entry := by rw [Sketch.size_emit]; exact hs.entry
    layout := by rw [Sketch.size_emit]; exact hs.layout
    grounded := by
      intro b
      have hb : Grounded ((s'.emit i).known env) (s'.starts b) (s'.code b) :=
        hgrows.grounded (hs.grounded b)
      rw [Sketch.code_emit s' hs.current]
      split
      · next hcur =>
        subst hcur
        exact grounded_append.2 ⟨hb, hi.mono (hgrows.le_having env subset_rfl), trivial⟩
      · exact hb
    current := by rw [Sketch.size_emit]; exact hs.current
    here := by
      change Status _ ((s'.emit i).code s'.current)
      rw [Sketch.code_emit s' hs.current, if_pos rfl]
      exact hs.here.push i
    nodup := hs.nodup
    pending := by
      intro x hx
      obtain ⟨hstarts, hne, hcode⟩ := hs.pending x hx
      rw [Sketch.code_emit s' hs.current, if_neg (Ne.symm hne)]
      exact ⟨hgrows.startsAt hstarts, hne, hcode⟩
    ended := by
      intro b hb hne hP
      rw [Sketch.size_emit] at hb
      rw [Sketch.code_emit s' hs.current, if_neg (show s'.current ≠ b from Ne.symm hne)]
      exact hs.ended b hb hne hP }

theorem emit (h : Built env k P true s s') (hi : i.Within (s'.known env))
    (hterm : i.isTerminator = false) : Built env k P true s (s'.emit i) := by
  have hpush := h.push hi
  rwa [hterm] at hpush

/-- What an instruction writes is written after it, and so is what was written at the start. -/
theorem union_subset_emit (h : Built env k P true s s') {v : VReg}
    (hdst : i.dst? = some (.vreg v)) : s.written ∪ {v} ⊆ (s'.emit i).written := by
  rw [s'.written_emit h.sound.current]
  exact Set.union_subset_union h.written (Set.singleton_subset_iff.2 hdst)

theorem close (h : Built env k P true s s') (hi : i.Within (s'.known env))
    (hterm : i.isTerminator = true) : Built env k P false s (s'.emit i) := by
  have hpush := h.push hi
  rwa [hterm] at hpush

theorem jump (h : Built env k P true s s') {t : BlockId} (ht : (s'.known env).Enters t) :
    Built env k P false s (s'.emit (.jump t)) :=
  h.close ht rfl

theorem addReg (h : Built env k P o s s') (hint : String) :
    Built env k P o s (s'.addReg hint) where
  toGrows := h.toGrows.trans (.addReg s' hint)
  written := h.written
  sound :=
    have hs := h.sound
    have hle := s'.le_addReg env hint
    { hs with
      names := hs.names.mono hle rfl rfl
      params := fun v hv => Nat.lt_of_lt_of_le (hs.params v hv) hle.regs
      grounded := fun b => (Grows.addReg (k := 0) s' hint).grounded (hs.grounded b) }

theorem define (h : Built env k P true s s') (hint : String)
    (hi : i.Within ((s'.addReg hint).known env)) (hterm : i.isTerminator = false)
    (hdst : i.dst? = some (.vreg s'.regs)) :
    Built env k P true s ((s'.addReg hint).emit i) ∧
      (((s'.addReg hint).emit i).known env).Has s'.regs := by
  have hreg := h.addReg hint
  refine ⟨hreg.emit hi hterm, s'.lt_regs_addReg hint, ?_⟩
  exact hreg.union_subset_emit hdst (Or.inr rfl)

theorem addStatic (h : Built env k P o s s') (x : Static) :
    Built env k P o s (s'.addStatic x) := by
  have hs := h.sound
  have hgrows : Grows 0 s' (s'.addStatic x) := .addStatic s' x
  have hle := hgrows.le_having env (subset_rfl (a := s'.written))
  refine ⟨h.toGrows.trans hgrows.scopes, h.written, ?_⟩
  exact { hs with
    names := hs.names.mono hle rfl rfl
    grounded := fun b => hgrows.grounded (hs.grounded b) }

theorem newBlock (h : Built env k P o s s') (name : String) (D : Set VReg) :
    Built env k ((s'.size, D) :: P) o s (s'.addBlock name D) := by
  have hs := h.sound
  have hgrows : Grows 0 s' (s'.addBlock name D) := .addBlock s' name D
  have hwritten := s'.written_addBlock hs.current name D
  have hle := hgrows.le_having env hwritten.ge
  have hlt := s'.lt_size_addBlock name D
  refine ⟨h.toGrows.trans hgrows.scopes, h.written.trans hwritten.ge, ?_⟩
  exact {
    names := hs.names.mono hle rfl rfl
    params := hs.params
    entry := Nat.lt_trans hs.entry hlt
    layout := by
      rw [Sketch.size_addBlock, range_succ, ← hs.layout]
      rfl
    grounded := by
      intro b
      rw [Sketch.code_addBlock]
      by_cases hb : b < s'.size
      · rw [s'.starts_addBlock name D hb]
        exact hgrows.grounded (hs.grounded b)
      · rw [Sketch.code, Func.code_eq_nil _ (Nat.le_of_not_lt hb)]
        trivial
    current := Nat.lt_trans hs.current hlt
    here := by
      rw [Sketch.code_addBlock]
      exact hs.here
    nodup := by
      refine nodup_cons.2 ⟨fun hmem => ?_, hs.nodup⟩
      obtain ⟨x, hx, hsize⟩ := mem_map.1 hmem
      exact Nat.ne_of_lt (hs.pending x hx).1.1 hsize
    pending := by
      intro x hx
      rw [Sketch.code_addBlock]
      rcases mem_cons.1 hx with rfl | hx
      · exact ⟨s'.startsAt_addBlock name D, Ne.symm (Nat.ne_of_lt hs.current),
          Func.code_eq_nil _ (Nat.le_refl _)⟩
      · obtain ⟨hstarts, hne, hcode⟩ := hs.pending x hx
        exact ⟨hgrows.startsAt hstarts, hne, hcode⟩
    ended := by
      intro b hb hne hP
      obtain ⟨hnew, hP⟩ := not_or.1 (mt mem_cons.2 hP)
      rw [Sketch.size_addBlock] at hb
      rw [Sketch.code_addBlock]
      exact hs.ended b (Nat.lt_of_le_of_ne (Nat.le_of_lt_succ hb) hnew) hne hP }

/-- From a block that is ended, construction goes on in a pending one, if names have values there. -/
theorem resume (l : Pending) (h : Built env k (l ++ (b, D) :: P) false s s')
    (hwritten : s.written ⊆ (s'.goto b).written)
    (hnames : Names env (s'.goto b).toDraft ((s'.goto b).known env)) :
    Built env k (l ++ P) true s (s'.goto b) := by
  have hs := h.sound
  have hperm : (l ++ (b, D) :: P).Perm ((b, D) :: (l ++ P)) := perm_middle
  have hpermFst := hperm.map Prod.fst
  have hb := hs.pending (b, D) (hperm.mem_iff.2 mem_cons_self)
  have hnd := nodup_cons.1 (hpermFst.nodup_iff.1 hs.nodup)
  refine ⟨h.toGrows.trans (.goto s' b), hwritten, ?_⟩
  exact {
    names := hnames
    params := hs.params
    entry := hs.entry
    layout := hs.layout
    grounded := fun c => (Grows.goto (k := 0) s' b).grounded (hs.grounded c)
    current := hb.1.1
    here := by
      change Status true (s'.code b)
      rw [hb.2.2]
      exact fun i hi => absurd hi not_mem_nil
    nodup := hnd.2
    pending := by
      intro x hx
      obtain ⟨hstarts, -, hcode⟩ := hs.pending x (hperm.mem_iff.2 (mem_cons_of_mem _ hx))
      refine ⟨hstarts, fun hxb => ?_, hcode⟩
      exact hnd.1 (mem_map.2 ⟨x, hx, hxb⟩)
    ended := by
      intro c hc hne hP
      by_cases hcur : c = s'.current
      · subst hcur
        exact hs.here
      · refine hs.ended c hc hcur fun hmem => ?_
        rcases mem_cons.1 (hpermFst.mem_iff.1 hmem) with hcb | hmem
        · exact hne hcb
        · exact hP hmem }

/-- From a block that is ended, construction goes on in a pending one, before which all is written
that was written at the start. -/
theorem switchTo (l : Pending) (h : Built env 0 (l ++ (b, D) :: P) false s s')
    (hs : Sound env P' o' s) (hD : s.written ⊆ D) : Built env 0 (l ++ P) true s (s'.goto b) := by
  have hwritten : s.written ⊆ (s'.goto b).written := by
    rw [h.sound.written_goto (D := D) (by simp)]
    exact hD
  refine h.resume l hwritten (hs.names.mono ?_ h.locals h.loops)
  exact h.toGrows.le_having env hwritten

/-- Nothing goes to a dead block, so that every register counts as written there. -/
theorem startDead (h : Built env k P false s s') (name : String) :
    Built env k P true s ((s'.addBlock name Set.univ).goto s'.size) := by
  have hnew := h.newBlock name Set.univ
  have hall : ∀ D, D ⊆ ((s'.addBlock name Set.univ).goto s'.size).written := by
    rw [hnew.sound.written_goto mem_cons_self]
    exact Set.subset_univ
  refine hnew.resume [] (hall _) (hnew.sound.names.mono ?_ rfl rfl)
  exact (Grows.goto (k := 0) _ s'.size).le_having env (hall _)

theorem enters (h : Built env k P o s s') (hb : (b, D) ∈ P) (hD : D ⊆ s'.written) :
    (s'.known env).Enters b :=
  (h.sound.pending (b, D) hb).1.enters hD env

end Built

end MxStar.Lowering
