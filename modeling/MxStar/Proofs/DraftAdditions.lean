import MxStar.Lowering.Stmt
import MxStar.Proofs.Drafts

/-!
What construction adds to a draft.

`Confines L d d'` says that one draft came of another by adding code that writes new registers and those of
the variables `L.names`, goes to new blocks and to `L.targets`, does not return, and unless `L.effects`
neither stores nor calls a function. `Extends` is `Built` for code that keeps within such limits.
-/
namespace MxStar.Tree.Expr

def name? : Expr → Option String
  | .ident _ name => some name
  | _ => none

mutual

/-- The variables that evaluation assigns. -/
def assigned : Expr → List String
  | .intLit .. | .boolLit .. | .strLit .. | .nullLit .. | .self .. | .ident .. => []
  | .unary _ op operand => (if op.isStep then operand.name?.toList else []) ++ operand.assigned
  | .binary _ _ lhs rhs => lhs.assigned ++ rhs.assigned
  | .assign _ target value => target.name?.toList ++ target.assigned ++ value.assigned
  | .call _ _ args => assignedAll args
  | .methodCall _ receiver _ args => receiver.assigned ++ assignedAll args
  | .member _ object _ => object.assigned
  | .index _ array position => array.assigned ++ position.assigned
  | .create _ dims => assignedAll dims

def assignedAll : List Expr → List String
  | [] => []
  | e :: es => e.assigned ++ assignedAll es

end

theorem assigned_eq_nil : ∀ {e : Expr}, e.hasEffects = false → e.assigned = []
  | .intLit .., _ | .boolLit .., _ | .strLit .., _ | .nullLit .., _ | .self .., _ | .ident .., _ => rfl
  | .unary _ op operand, h => by
    rw [hasEffects, Bool.or_eq_false_iff] at h
    rw [assigned, h.1, assigned_eq_nil h.2]
    rfl
  | .binary _ _ lhs rhs, h => by
    rw [hasEffects, Bool.or_eq_false_iff] at h
    rw [assigned, assigned_eq_nil h.1, assigned_eq_nil h.2]
    rfl
  | .member _ object _, h => by
    rw [hasEffects] at h
    rw [assigned, assigned_eq_nil h]
  | .index _ array position, h => by
    rw [hasEffects, Bool.or_eq_false_iff] at h
    rw [assigned, assigned_eq_nil h.1, assigned_eq_nil h.2]
    rfl

end MxStar.Tree.Expr

/-- The instruction neither stores nor calls a function of the program. -/
def MxStar.IR.Instr.isQuiet : Instr → Bool
  | .store .. | .call _ (.func _) _ _ => false
  | _ => true

namespace MxStar.Lowering

open MxStar.Tree IR List

variable {l r : BlockId → BlockId → Build Unit} {b e t : BlockId} {value : Build Operand}
  {place : Build Place} {i : Instr}

namespace Draft

def emit (d : Draft) (i : Instr) : Draft := { d with func := d.func.pushInstr d.current i }

def addReg (d : Draft) (hint : String) : Draft := { d with func := d.func.addVReg hint }

def addBlock (d : Draft) (name : String) : Draft := { d with func := d.func.addBlock name }

def goto (d : Draft) (b : BlockId) : Draft := { d with current := b }

def addStatic (d : Draft) (x : Static) : Draft := { d with statics := d.statics.push x }

abbrev regs (d : Draft) : Nat := d.func.vregCount

abbrev size (d : Draft) : Nat := d.func.blocks.size

abbrev code (d : Draft) (b : BlockId) : List Instr := d.func.code b

def register? (d : Draft) (name : String) : Option VReg := d.locals.findSome? (·.find? name)

theorem code_emit (d : Draft) (hd : d.current < d.size) (i : Instr) (b : BlockId) :
    (d.emit i).code b = if d.current = b then d.code b ++ [i] else d.code b :=
  Func.code_pushInstr d.func hd i b

theorem code_prefix_emit (d : Draft) (hd : d.current < d.size) (i : Instr) (b : BlockId) :
    d.code b <+: (d.emit i).code b := by
  rw [d.code_emit hd]
  split
  · exact prefix_append _ _
  · exact prefix_refl _

theorem code_addBlock (d : Draft) (name : String) (b : BlockId) :
    (d.addBlock name).code b = d.code b :=
  Func.code_addBlock d.func name b

@[simp] theorem size_emit (d : Draft) (i : Instr) : (d.emit i).size = d.size :=
  Func.size_modifyBlock ..

@[simp] theorem current_emit (d : Draft) (i : Instr) : (d.emit i).current = d.current := rfl

@[simp] theorem current_addReg (d : Draft) (hint : String) : (d.addReg hint).current = d.current := rfl

@[simp] theorem size_goto (d : Draft) (b : BlockId) : (d.goto b).size = d.size := rfl

@[simp] theorem size_addReg (d : Draft) (hint : String) : (d.addReg hint).size = d.size := rfl

@[simp] theorem size_addBlock (d : Draft) (name : String) : (d.addBlock name).size = d.size + 1 :=
  Array.size_push _

@[simp] theorem current_goto (d : Draft) (b : BlockId) : (d.goto b).current = b := rfl

@[simp] theorem current_addBlock (d : Draft) (name : String) :
    (d.addBlock name).current = d.current := rfl

@[simp] theorem regs_emit (d : Draft) (i : Instr) : (d.emit i).regs = d.regs := rfl

@[simp] theorem regs_goto (d : Draft) (b : BlockId) : (d.goto b).regs = d.regs := rfl

@[simp] theorem regs_addBlock (d : Draft) (name : String) : (d.addBlock name).regs = d.regs := rfl

@[simp] theorem regs_addReg (d : Draft) (hint : String) : (d.addReg hint).regs = d.regs + 1 :=
  Array.size_push _

end Draft

theorem run_bind_eq_ok {α β : Type} {x : Build α} {f : α → Build β} {d d' : Draft} {b : β} :
    (x >>= f).run d = .ok (b, d') ↔
      ∃ a d1, x.run d = .ok (a, d1) ∧ (f a).run d1 = .ok (b, d') := by
  constructor
  · intro h
    obtain ⟨⟨a, d1⟩, hx, hf⟩ := Except.bind_eq_ok.1 h
    exact ⟨a, d1, hx, hf⟩
  · rintro ⟨a, d1, hx, hf⟩
    exact Except.bind_eq_ok.2 ⟨(a, d1), hx, hf⟩

section Runs

variable {α : Type} (d : Draft)

theorem run_emit (i : Instr) (f : Unit → Build α) :
    (emit i >>= f).run d = (f ()).run (d.emit i) :=
  rfl

theorem run_fresh (hint : String) (f : VReg → Build α) :
    (fresh hint >>= f).run d = (f d.regs).run (d.addReg hint) :=
  rfl

theorem run_newBlock (name : String) (f : BlockId → Build α) :
    (newBlock name >>= f).run d = (f d.size).run (d.addBlock name) :=
  rfl

theorem run_switchTo (b : BlockId) (f : Unit → Build α) :
    (switchTo b >>= f).run d = (f ()).run (d.goto b) :=
  rfl

end Runs

/-! ## Limits -/

/-- What code may do: store and call functions or not, write the registers of some variables, and go to
some blocks. -/
structure Limits where
  effects : Bool
  names : List String
  targets : List BlockId

abbrev Limits.to (L : Limits) (targets : List BlockId) : Limits := ⟨L.effects, L.names, targets⟩

abbrev limitsOf (e : Expr) : Limits := ⟨e.hasEffects, e.assigned, []⟩

/-- Limits allow what others do after a draft. -/
structure Limits.Le (d : Draft) (L' L : Limits) : Prop where
  effects : L.effects = false → L'.effects = false
  names : L'.names ⊆ L.names
  targets : ∀ b ∈ L'.targets, d.size ≤ b ∨ b ∈ L.targets

variable {L L' : Limits}

theorem Limits.Le.refl (d : Draft) : Limits.Le d L L := ⟨id, List.Subset.refl _, fun _ => .inr⟩

/-- What an instruction added to a draft may do. -/
structure Draft.Admits (d : Draft) (L : Limits) (i : Instr) : Prop where
  writes : ∀ v, i.dst? = some (.vreg v) → d.regs ≤ v ∨ ∃ name ∈ L.names, d.register? name = some v
  goes : ∀ b ∈ i.successors, d.size ≤ b ∨ b ∈ L.targets
  stays : ∀ v, i ≠ .ret v
  quiet : L.effects = false → i.isQuiet = true

namespace Draft.Admits

variable {d : Draft}

theorem plain (hi : i.isTerminator = false) (hq : L.effects = false → i.isQuiet = true)
    (hdst : ∀ v, i.dst? = some (.vreg v) → d.regs ≤ v ∨ ∃ name ∈ L.names, d.register? name = some v) :
    d.Admits L i where
  writes := hdst
  goes := by
    cases i with
    | jump | branch => cases hi
    | _ => exact fun b hb => absurd hb not_mem_nil
  stays := by
    rintro v rfl
    cases hi
  quiet := hq

theorem effect (hL : L.effects = true) (hi : i.isTerminator = false) (hdst : i.dst? = none) :
    d.Admits L i :=
  plain hi (fun hq => by rw [hL] at hq; cases hq) fun v hv => by rw [hdst] at hv; cases hv

theorem into {r : VReg} (hi : i.isTerminator = false) (hq : L.effects = false → i.isQuiet = true)
    (hdst : i.dst? = some (.vreg r))
    (hr : d.regs ≤ r ∨ ∃ name ∈ L.names, d.register? name = some r) : d.Admits L i := by
  refine plain hi hq fun v hv => ?_
  cases hdst.symm.trans hv
  exact hr

theorem jump (hb : d.size ≤ b ∨ b ∈ L.targets) : d.Admits L (.jump b) where
  writes := nofun
  goes := by
    intro c hc
    rwa [mem_singleton.1 hc]
  stays := nofun
  quiet := fun _ => rfl

theorem branch {cond : CmpOp} {l r : Operand} (ht : d.size ≤ t ∨ t ∈ L.targets)
    (he : d.size ≤ e ∨ e ∈ L.targets) : d.Admits L (.branch cond l r t e) where
  writes := nofun
  goes := by
    intro c hc
    rw [Instr.successors] at hc
    split at hc
    · rwa [mem_singleton.1 hc]
    · rcases mem_cons.1 hc with rfl | hc
      · exact ht
      · rwa [mem_singleton.1 hc]
  stays := nofun
  quiet := fun _ => rfl

end Draft.Admits

/-! ## Confined additions -/

/-- One draft came of another by adding code that keeps within limits. -/
structure Confines (L : Limits) (d d' : Draft) : Prop where
  regs : d.regs ≤ d'.regs
  size : d.size ≤ d'.size
  locals : d'.locals = d.locals
  added : ∀ b, ∃ new, d'.code b = d.code b ++ new ∧ ∀ i ∈ new, d.Admits L i

namespace Confines

variable {d d' d'' : Draft}

theorem of_same_code (hregs : d.regs ≤ d'.regs) (hsize : d.size ≤ d'.size) (hlocals : d'.locals = d.locals)
    (hcode : ∀ b, d'.code b = d.code b) : Confines L d d' :=
  ⟨hregs, hsize, hlocals, fun b => ⟨[], by rw [hcode, append_nil], fun _ hi => absurd hi not_mem_nil⟩⟩

theorem refl (d : Draft) : Confines L d d :=
  of_same_code (Nat.le_refl _) (Nat.le_refl _) rfl fun _ => rfl

variable (h : Confines L d d')

include h

theorem register?_eq (name : String) : d'.register? name = d.register? name := by
  rw [Draft.register?, Draft.register?, h.locals]

theorem admits (hi : d'.Admits L' i) {K : Limits} (hL : L'.Le d K) : d.Admits K i where
  writes := by
    intro v hv
    rcases hi.writes v hv with hle | ⟨name, hname, hreg⟩
    · exact .inl (Nat.le_trans h.regs hle)
    · exact .inr ⟨name, hL.names hname, h.register?_eq name ▸ hreg⟩
  goes := by
    intro b hb
    rcases hi.goes b hb with hle | hb
    · exact .inl (Nat.le_trans h.size hle)
    · exact hL.targets b hb
  stays := hi.stays
  quiet := fun hq => hi.quiet (hL.effects hq)

theorem trans (h' : Confines L' d' d'') (hL : L'.Le d L) : Confines L d d'' where
  regs := Nat.le_trans h.regs h'.regs
  size := Nat.le_trans h.size h'.size
  locals := h'.locals.trans h.locals
  added := by
    intro b
    obtain ⟨new, hcode, hnew⟩ := h.added b
    obtain ⟨new', hcode', hnew'⟩ := h'.added b
    refine ⟨new ++ new', by rw [hcode', hcode, append_assoc], fun i hi => ?_⟩
    rcases mem_append.1 hi with hi | hi
    · exact hnew i hi
    · exact h.admits (hnew' i hi) hL

theorem next (h' : Confines L d' d'') : Confines L d d'' := h.trans h' (.refl d)

theorem mono (hL : L.Le d L') : Confines L' d d' := (refl d).trans h hL

theorem emit (hd : d'.current < d'.size) (hi : d.Admits L i) : Confines L d (d'.emit i) where
  regs := h.regs
  size := Nat.le_trans h.size (Nat.le_of_eq (d'.size_emit i).symm)
  locals := h.locals
  added := by
    intro b
    obtain ⟨new, hcode, hnew⟩ := h.added b
    rw [d'.code_emit hd]
    split
    · refine ⟨new ++ [i], by rw [hcode, append_assoc], fun j hj => ?_⟩
      rcases mem_append.1 hj with hj | hj
      · exact hnew j hj
      · rwa [mem_singleton.1 hj]
    · exact ⟨new, hcode, hnew⟩

theorem addReg (hint : String) : Confines L d (d'.addReg hint) :=
  h.next (of_same_code (by rw [d'.regs_addReg]; exact Nat.le_succ _) (Nat.le_refl _) rfl fun _ => rfl)

theorem addBlock (name : String) : Confines L d (d'.addBlock name) :=
  h.next (of_same_code (Nat.le_refl _) (by rw [d'.size_addBlock]; exact Nat.le_succ _) rfl
    (d'.code_addBlock name))

theorem goto (b : BlockId) : Confines L d (d'.goto b) := ⟨h.regs, h.size, h.locals, h.added⟩

theorem code_grows (b : BlockId) : d.code b <+: d'.code b := by
  obtain ⟨new, hnew, -⟩ := h.added b
  exact ⟨new, hnew.symm⟩

end Confines

/-- A sketch came of another by adding code that keeps within limits, and is sound. -/
structure Extends (env : Env) (L : Limits) (P : Pending) (o : Bool) (s s' : Sketch) : Prop extends
    Built env 0 P o s s' where
  confines : Confines L s.toDraft s'.toDraft

namespace Extends

variable {env : Env} {P P' : Pending} {o o' : Bool} {s s' s'' : Sketch}

theorem refl (hs : Sound env P o s) : Extends env L P o s s := ⟨.refl hs, .refl _⟩

theorem trans (h : Extends env L P' o' s s') (h' : Extends env L' P o s' s'') (hL : L'.Le s.toDraft L) :
    Extends env L P o s s'' :=
  ⟨h.toBuilt.trans h'.toBuilt, h.confines.trans h'.confines hL⟩

theorem next (h : Extends env L P' o' s s') (h' : Extends env L P o s' s'') : Extends env L P o s s'' :=
  h.trans h' (.refl _)

theorem mono (h : Extends env L P o s s') (hL : L.Le s.toDraft L') : Extends env L' P o s s' :=
  ⟨h.toBuilt, h.confines.mono hL⟩

theorem addReg (h : Extends env L P o s s') (hint : String) : Extends env L P o s (s'.addReg hint) :=
  ⟨h.toBuilt.addReg hint, h.confines.addReg hint⟩

theorem newBlock (h : Extends env L P o s s') (name : String) (D : Set VReg) :
    Extends env L ((s'.size, D) :: P) o s (s'.addBlock name D) :=
  ⟨h.toBuilt.newBlock name D, h.confines.addBlock name⟩

theorem switchTo {D : Set VReg} (l : Pending) (h : Extends env L (l ++ (b, D) :: P) false s s')
    (hs : Sound env P' o' s) (hD : s.written ⊆ D) : Extends env L (l ++ P) true s (s'.goto b) :=
  ⟨h.toBuilt.switchTo l hs hD, h.confines.goto b⟩

variable (h : Extends env L P true s s')

include h

theorem emit (hi : i.Within (s'.known env)) (hterm : i.isTerminator = false) (ha : s.Admits L i) :
    Extends env L P true s (s'.emit i) :=
  ⟨h.toBuilt.emit hi hterm, h.confines.emit h.sound.current ha⟩

theorem close (hi : i.Within (s'.known env)) (hterm : i.isTerminator = true) (ha : s.Admits L i) :
    Extends env L P false s (s'.emit i) :=
  ⟨h.toBuilt.close hi hterm, h.confines.emit h.sound.current ha⟩

theorem jump (ht : (s'.known env).Enters t) (hnew : s.size ≤ t ∨ t ∈ L.targets) :
    Extends env L P false s (s'.emit (.jump t)) :=
  h.close ht rfl (.jump hnew)

theorem define (hint : String) (hi : i.Within ((s'.addReg hint).known env))
    (hdst : i.dst? = some (.vreg s'.regs)) (hq : L.effects = false → i.isQuiet = true) :
    Extends env L P true s ((s'.addReg hint).emit i) ∧
      (((s'.addReg hint).emit i).known env).Has s'.regs := by
  have hterm : i.isTerminator = false := by
    cases i with
    | jump | branch | ret => cases hdst
    | _ => rfl
  obtain ⟨hbuilt, hreg⟩ := h.toBuilt.define hint hi hterm hdst
  have ha : s.Admits L i := .into hterm hq hdst (.inl h.regs)
  exact ⟨⟨hbuilt, (h.confines.addReg hint).emit (h.toBuilt.addReg hint).sound.current ha⟩, hreg⟩

end Extends

end MxStar.Lowering
