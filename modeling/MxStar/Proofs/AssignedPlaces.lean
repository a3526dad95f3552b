import MxStar.Proofs.LoweredPrograms
import MxStar.Proofs.RegionRuns
import MxStar.Tree.Typed

/-!
Where an assignment to a field or an element stores.

`Denotes` says which address a target denotes in a run. The store names this address by a register
(`denotes_iff_address`), which it reads after the value is computed. So it goes to the address that the target
denoted (`stores_where_denoted`), unless the register is that of a local variable that the value assigns
(`store_follows_variable`).
-/
namespace MxStar

def Tree.Expr.isMemory : Expr → Bool
  | .member .. | .index .. => true
  | _ => false

end MxStar

namespace MxStar.Lowering

open MxStar.Tree IR Interp List

variable {d d' : Draft} {o o' : Operand} {r v : VReg} {position target : Expr} {offset w : Word}
  {names : List String} {env : Env} {name : String} {s : Sketch}

/-! ## Values at places -/

section Values

variable {names : List String} {d d' : Draft} {f : Func} {p : IR.Program} {c c' : Config}

theorem Reaches.eq_of_at (h : Reaches p f d c c') (hc : At f d c) : c' = c :=
  h.unique ⟨.refl, hc⟩

theorem Reaches.statics (h : Reaches p f d c c') : c'.machine.statics = c.machine.statics := by
  obtain ⟨path, -⟩ := h
  induction path with
  | refl => rfl
  | tail _ hnext ih => exact (Returns.statics hnext.2).trans ih

/-- The operand is not one that code for the assignment of some variables may write. -/
def Draft.Fixes (d : Draft) (names : List String) : Operand → Prop
  | .vreg v => v < d.regs ∧ ∀ name ∈ names, d.register? name ≠ some v
  | .phys _ => False
  | .imm _ | .static _ => True

/-- An operand that a region does not write has the same value at its end. -/
theorem Region.value_iff (h : Region names d d') (hf : d'.Within f) (hc : At f d c)
    (hreach : Reaches p f d' c c') (ho : d.Fixes names o) :
    value c'.machine c'.frame o = .ok w ↔ value c.machine c.frame o = .ok w := by
  cases o with
  | vreg v => rw [value_vreg, value_vreg, h.reg_eq hf hc hreach ho.1 ho.2]
  | phys => exact ho.elim
  | imm => exact Iff.rfl
  | static s => simp only [value, Machine.staticAddress, hreach.statics]

theorem reg_of_assign {m m' : Machine} {fr fr' : Frame}
    (h : assign m fr (.vreg v) w = .ok (m', fr')) : fr'.reg v = some w := by
  simp only [assign] at h
  split at h
  · next hv =>
    cases h
    change ((fr.regs.setIfInBounds v (some w))[v]?).join = some w
    rw [join_setIfInBounds _ _ _ _ hv, if_pos rfl]
  · cases h

section Emit

variable {o l r : Operand} (hc : At f d c) (hd : d.current < d.size)

include hc hd

theorem Reaches.reg_of_move (h : Reaches p f (d.emit (.move (.vreg v) o)) c c')
    (hf : (d.emit (.move (.vreg v) o)).Within f) :
    ∃ w, value c.machine c.frame o = .ok w ∧ c'.frame.reg v = some w := by
  obtain ⟨m, fr, rest, -, rfl, hcompute⟩ := h.emit hc hd hf ⟨rfl, rfl⟩
  obtain ⟨w, hw, hassign⟩ := Except.bind_eq_ok.1 hcompute
  rw [value_withCode] at hw
  exact ⟨w, hw, reg_of_assign hassign⟩

theorem Reaches.reg_of_binary {op : BinOp} (hop : op ≠ .div ∧ op ≠ .mod)
    (h : Reaches p f (d.emit (.binary (.vreg v) op l r)) c c')
    (hf : (d.emit (.binary (.vreg v) op l r)).Within f) :
    ∃ x y z, value c.machine c.frame l = .ok x ∧ value c.machine c.frame r = .ok y ∧
      op.eval x y = some z ∧ c'.frame.reg v = some z := by
  obtain ⟨m, fr, rest, -, rfl, hcompute⟩ := h.emit hc hd hf ⟨rfl, rfl⟩
  obtain ⟨x, hx, hcompute⟩ := Except.bind_eq_ok.1 hcompute
  obtain ⟨y, hy, hcompute⟩ := Except.bind_eq_ok.1 hcompute
  rw [value_withCode] at hx hy
  rw [if_neg (by simp [hop.1, hop.2])] at hcompute
  split at hcompute
  · next z hz => exact ⟨x, y, z, hx, hy, hz, reg_of_assign hcompute⟩
  · cases hcompute

end Emit

theorem Reaches.reg_of_copy {hint : String}
    (h : Reaches p f ((d.addReg hint).emit (.move (.vreg d.regs) o)) c c') (hd : d.current < d.size)
    (hf : ((d.addReg hint).emit (.move (.vreg d.regs) o)).Within f) (hc : At f d c) :
    c'.frame.reg d.regs = some w ↔ value c.machine c.frame o = .ok w := by
  obtain ⟨u, hu, hreg⟩ := Reaches.reg_of_move (at_addReg.2 hc) hd h hf
  rw [hreg, show value c.machine c.frame o = .ok u from hu]
  simp

theorem toVReg_value {hint : String} (hrun : (toVReg o hint).run d = .ok (r, d'))
    (hd : d.current < d.size) (hf : d'.Within f) (hc : At f d c) (hreach : Reaches p f d' c c') :
    c'.frame.reg r = some w ↔ value c.machine c.frame o = .ok w := by
  cases o with
  | vreg v =>
    cases hrun
    rw [hreach.eq_of_at hc, value_vreg]
  | phys | imm | static =>
    cases hrun
    exact hreach.reg_of_copy hd hf hc

theorem snapshotIf_value {b : Bool}
    (hrun : (if b then snapshot o else pure o : Build Operand).run d = .ok (o', d'))
    (hd : d.current < d.size) (hf : d'.Within f) (hc : At f d c) (hreach : Reaches p f d' c c') :
    value c'.machine c'.frame o' = .ok w ↔ value c.machine c.frame o = .ok w := by
  have hsame (hrun : (pure o : Build Operand).run d = .ok (o', d')) :
      value c'.machine c'.frame o' = .ok w ↔ value c.machine c.frame o = .ok w := by
    cases hrun
    rw [hreach.eq_of_at hc]
  cases b with
  | false => exact hsame hrun
  | true =>
    cases o with
    | vreg v =>
      change (if d.isLocal v then _ else _ : Build Operand).run d = _ at hrun
      split at hrun
      · cases hrun
        rw [value_vreg]
        exact hreach.reg_of_copy hd hf hc
      · exact hsame hrun
    | phys | imm | static => exact hsame hrun

end Values

/-! ## Stages of construction -/

/-- A step that keeps sketches sound, and is confined, adds a region. -/
theorem Post.region {α : Type} {P : Pending} {x : Build α} {Q : α → Sketch → Prop} {a : α} (b : Bool)
    (names : List String) (hs : Sound env P true s)
    (hpost : Post x s fun a s' => Extends env ⟨b, names, []⟩ P true s s' ∧ Q a s')
    (hrun : x.run s.toDraft = .ok (a, d')) :
    ∃ s' : Sketch, s'.toDraft = d' ∧ Extends env ⟨b, names, []⟩ P true s s' ∧
      Region names s.toDraft s'.toDraft ∧ Q a s' := by
  obtain ⟨s', rfl, h, hQ⟩ := hpost a d' hrun
  exact ⟨s', rfl, h, h.region hs, hQ⟩

theorem Region.within {f : Func} (h : Region names d d') (hf : d'.Within f) : d.Within f :=
  fun b => (h.code_grows b).trans (hf b)

theorem value_region {P : Pending} {e : Expr} (hs : Sound env P true s)
    (hrun : (lower env e).value.run s.toDraft = .ok (o, d')) :
    ∃ s' : Sketch, s'.toDraft = d' ∧ Extends env (limitsOf e) P true s s' ∧
      Region e.assigned s.toDraft s'.toDraft ∧ o.Within (s'.known env) :=
  Post.region _ _ hs ((lower_sound env e).value P s hs) hrun

/-- An operand that exists is fixed, unless it is the register of one of the variables. -/
theorem fixes_of_within (ho : o.Within (s.known env))
    (hnames : ∀ v, o = .vreg v → ∀ name ∈ names, s.register? name ≠ some v) :
    s.toDraft.Fixes names o := by
  cases o with
  | vreg v => exact ⟨ho.1, hnames v rfl⟩
  | phys => exact ho.elim
  | imm | static => exact trivial

/-! ## What a target denotes -/

def keep (position : Expr) (array : Operand) : Build Operand :=
  if position.hasEffects then snapshot array else pure array

/-- The address that a target denotes in a run from the start of its code. The object is evaluated
first, and so is the array, and then the position. -/
inductive Denotes (env : Env) (p : IR.Program) (f : Func) (d : Draft) (c : Config) : Expr → Word → Prop
  | member {i : Info} {object : Expr} {field cls : String} {info : ClassInfo} {offset : Word}
    {o : Operand} {d1 : Draft} {c1 : Config} {u : Word} (hty : object.ty = .object cls)
    (hcls : env.scope.class? cls = some info) (hfield : info.fieldOffset? field = some offset)
    (hobject : (lower env object).value.run d = .ok (o, d1)) (hreach : Reaches p f d1 c c1)
    (hu : value c1.machine c1.frame o = .ok u) :
    Denotes env p f d c (.member i object field) (u + offset)
  | index {i : Info} {array position : Expr} {o o' q : Operand} {d1 d2 d3 : Draft} {c1 c3 : Config}
    {u k : Word} (harray : (lower env array).value.run d = .ok (o, d1)) (hreach : Reaches p f d1 c c1)
    (hu : value c1.machine c1.frame o = .ok u) (hkeep : (keep position o).run d1 = .ok (o', d2))
    (hposition : (lower env position).value.run d2 = .ok (q, d3)) (hreach' : Reaches p f d3 c1 c3)
    (hk : value c3.machine c3.frame q = .ok k) :
    Denotes env p f d c (.index i array position) (u + (k * 8 + 8))

theorem address_base_iff {m : Machine} {fr : Frame} {a : Word} :
    address m fr (.base (.vreg r) offset) = .ok a ↔ ∃ u, fr.reg r = some u ∧ u + offset = a := by
  rw [address, Except.bind_eq_ok]
  constructor
  · rintro ⟨u, hu, h⟩
    cases h
    exact ⟨u, value_vreg.1 hu, rfl⟩
  · rintro ⟨u, hu, rfl⟩
    exact ⟨u, value_vreg.2 hu, rfl⟩

section Member

variable {env : Env} {i : Info} {object : Expr} {field : String} {d d' : Draft} {place : Place}

theorem run_fieldOffset {ty : Ty} {loc : Location}
    (h : (fieldOffset env ty field loc).run d = .ok (offset, d')) :
    d' = d ∧ ∃ cls info, ty = .object cls ∧ env.scope.class? cls = some info ∧
      info.fieldOffset? field = some offset := by
  unfold fieldOffset at h
  split at h
  · next cls =>
    split at h
    · next offset' hoffset =>
      cases h
      obtain ⟨info, hcls, hfield⟩ := Option.bind_eq_some_iff.1 hoffset
      exact ⟨rfl, cls, info, rfl, hcls, hfield⟩
    · cases h
  · cases h

theorem run_member (h : (lower env (.member i object field)).place.run d = .ok (place, d')) :
    ∃ cls info offset o d1 base, object.ty = .object cls ∧ env.scope.class? cls = some info ∧
      info.fieldOffset? field = some offset ∧ (lower env object).value.run d = .ok (o, d1) ∧
      (toVReg o "obj").run d1 = .ok (base, d') ∧ place = .mem (.base (.vreg base) offset) := by
  rw [lower] at h
  obtain ⟨offset, d0, hoffset, h⟩ := run_bind_eq_ok.1 h
  obtain ⟨o, d1, hobject, h⟩ := run_bind_eq_ok.1 h
  obtain ⟨base, d2, hbase, ⟨⟩⟩ := run_bind_eq_ok.1 h
  obtain ⟨rfl, cls, info, hty, hcls, hfield⟩ := run_fieldOffset hoffset
  exact ⟨cls, info, offset, o, d1, base, hty, hcls, hfield, hobject, hbase, rfl⟩

end Member

section Kept

variable {env : Env} {P : Pending} {s : Sketch}

theorem exists_scope_of_register? (h : d.register? name = some v) :
    ∃ scope ∈ d.locals, v ∈ scope.values := by
  obtain ⟨scope, hscope, hfind⟩ := exists_of_findSome?_eq_some h
  exact ⟨scope, hscope, mem_values_of_find? hfind⟩

theorem isLocal_of_register? (h : d.register? name = some v) : d.isLocal v = true := by
  obtain ⟨scope, hscope, hv⟩ := exists_scope_of_register? h
  exact any_eq_true.2 ⟨scope, hscope, contains_iff_mem.2 hv⟩

theorem Sound.lt_of_register? (hs : Sound env P true s) (h : s.register? name = some v) :
    v < s.regs := by
  obtain ⟨scope, hscope, hv⟩ := exists_scope_of_register? h
  exact (hs.names.locals scope hscope v hv).1

/-- What a value is kept in is not the register of a variable, if it is copied whenever a variable may be
assigned. -/
theorem names_snapshotIf {b : Bool} (hb : b = false → names = []) (hs : Sound env P true s)
    (hrun : (if b then snapshot o else pure o : Build Operand).run s.toDraft = .ok (o', d'))
    (hv : o' = .vreg v) : ∀ name ∈ names, d'.register? name ≠ some v := by
  intro name hname hreg
  cases b with
  | false =>
    rw [hb rfl] at hname
    cases hname
  | true =>
    cases o with
    | vreg u =>
      change (if s.isLocal u then _ else _ : Build Operand).run s.toDraft = _ at hrun
      split at hrun
      · -- The copy is newer than all variables.
        cases hrun
        cases hv
        exact absurd (hs.lt_of_register? hreg) (Nat.lt_irrefl _)
      · next hlocal =>
        cases hrun
        cases hv
        exact hlocal (isLocal_of_register? hreg)
    | phys | imm | static =>
      cases hrun
      cases hv

end Kept

section Index

variable {env : Env} {i : Info} {array position : Expr} {d d' : Draft} {place : Place}

/-- The draft after the address of an element, less the length of the array, is computed. -/
def Draft.element (d : Draft) (position : Operand) (base : VReg) : Draft :=
  (((d.addReg "off").emit (.binary (.vreg d.regs) .shl position (.imm 3))).addReg "elem").emit
    (.binary (.vreg (d.regs + 1)) .add (.vreg base) (.vreg d.regs))

theorem Draft.code_prefix_element (hd : d.current < d.size) (q : Operand) (base : VReg) (b : BlockId) :
    d.code b <+: (d.element q base).code b :=
  ((d.addReg "off").code_prefix_emit hd _ b).trans (Draft.code_prefix_emit _ (by simpa using hd) _ b)

theorem run_evalBoth {l r : OperandCode} {vs : Operand × Operand}
    (h : (evalBoth l r).run d = .ok (vs, d')) :
    ∃ v d1 v' d2 w, l.value.run d = .ok (v, d1) ∧
      (if r.hasEffects then snapshot v else pure v : Build Operand).run d1 = .ok (v', d2) ∧
      r.value.run d2 = .ok (w, d') ∧ vs = (v', w) := by
  obtain ⟨v, d1, hl, h⟩ := run_bind_eq_ok.1 h
  rw [ite_bind] at h
  obtain ⟨v', d2, hkeep, h⟩ := run_bind_eq_ok.1 h
  obtain ⟨w, d3, hr, ⟨⟩⟩ := run_bind_eq_ok.1 h
  exact ⟨v, d1, v', d2, w, hl, hkeep, hr, rfl⟩

theorem run_index (h : (lower env (.index i array position)).place.run d = .ok (place, d')) :
    ∃ o d1 o' d2 q d3 base d4, (lower env array).value.run d = .ok (o, d1) ∧
      (keep position o).run d1 = .ok (o', d2) ∧ (lower env position).value.run d2 = .ok (q, d3) ∧
      (toVReg o' "arr").run d3 = .ok (base, d4) ∧
      ((∃ k offset, q = .imm k ∧ span? k = some offset ∧ place = .mem (.base (.vreg base) offset) ∧
          d' = d4) ∨
        (place = .mem (.base (.vreg (d4.regs + 1)) 8) ∧ d' = d4.element q base)) := by
  rw [lower] at h
  obtain ⟨vs, d3, hboth, h⟩ := run_bind_eq_ok.1 h
  obtain ⟨o, d1, o', d2, q, harray, hkeep, hposition, rfl⟩ := run_evalBoth hboth
  obtain ⟨base, d4, hbase, h⟩ := run_bind_eq_ok.1 h
  refine ⟨o, d1, o', d2, q, d3, base, d4, harray, hkeep, hposition, hbase, ?_⟩
  cases q with
  | imm k =>
    dsimp only at h
    split at h
    · next offset hoffset =>
      cases h
      exact .inl ⟨k, offset, rfl, hoffset, rfl, rfl⟩
    · cases h
  | vreg | phys | static =>
    dsimp only at h
    rw [run_fresh, run_emit, run_fresh, run_emit] at h
    cases h
    refine .inr ?_
    rw [Draft.element, ← d4.regs_addReg "off"]
    exact ⟨rfl, rfl⟩

end Index

theorem eq_of_span? {n : Word} (h : span? n = some offset) : offset = n * 8 + 8 := by
  obtain ⟨bytes, hbytes, hoffset⟩ := Option.bind_eq_some_iff.1 h
  unfold Text.Decimal.fit? at hbytes hoffset
  split at hbytes
  · next hfits =>
    split at hoffset
    · cases hbytes
      cases hoffset
      rw [Bool.and_eq_true, decide_eq_true_eq, decide_eq_true_eq] at hfits
      rw [Int64.toInt_ofInt_of_le hfits.1 (Int.lt_add_one_of_le hfits.2), Int64.ofInt_add,
        Int64.ofInt_mul, Int64.ofInt_toInt]
      rfl
    · cases hoffset
  · cases hbytes

theorem shl_three (k : Word) : k <<< (3 &&& 63 : Word) = k * 8 := by
  apply Int64.toBitVec_inj.1
  simp
  bv_omega

section Element

variable {env : Env} {P : Pending} {s : Sketch} {q : Operand} {base : VReg} {f : Func}
  {p : IR.Program} {c c' : Config}

/-- The address of an element, in terms of the array and the position. -/
theorem reg_of_element (hs : Sound env P true s) (hq : q.Within (s.known env))
    (hbase : (s.known env).Has base) (hf : (s.toDraft.element q base).Within f) (hc : At f s.toDraft c)
    (hreach : Reaches p f (s.toDraft.element q base) c c') :
    ∃ u k, c.frame.reg base = some u ∧ value c.machine c.frame q = .ok k ∧
      c'.frame.reg (s.regs + 1) = some (u + k * 8) := by
  -- The place between the two instructions.
  let i : Instr := .binary (.vreg s.regs) .shl q (.imm 3)
  let s1 := (s.addReg "off").emit i
  have hle := s.le_addReg env "off"
  have hbuilt : Extends env ⟨true, [], []⟩ P true s s1 := ((Extends.refl hs).define "off" (i := i)
    ⟨s.lt_regs_addReg _, hq.mono hle, trivial⟩ rfl fun _ => rfl).1
  have hregion := hbuilt.region hs
  have hcurrent : (s1.toDraft.addReg "elem").current < (s1.toDraft.addReg "elem").size :=
    hbuilt.sound.current
  have hlast : ∀ b, s1.toDraft.code b <+: (s.toDraft.element q base).code b :=
    (s1.toDraft.addReg "elem").code_prefix_emit hcurrent _
  have hf1 : s1.toDraft.Within f := fun b => (hlast b).trans (hf b)
  obtain ⟨c1, hfirst, hsecond⟩ := hregion.through hf1 hlast hc hreach
  obtain ⟨k, three, scaled, hk, hthree, hscaled, hreg⟩ :=
    Reaches.reg_of_binary (at_addReg.2 hc) hs.current ⟨by decide, by decide⟩ hfirst hf1
  obtain ⟨u, scaled', sum, hu, hscaled', hsum, hreg'⟩ :=
    Reaches.reg_of_binary (at_addReg.2 hfirst.arrives) hcurrent ⟨by decide, by decide⟩ hsecond hf
  rw [value_vreg] at hu hscaled'
  rw [hregion.reg_eq hf1 hc hfirst hbase.1 (by simp)] at hu
  have hreg : c1.frame.reg s.regs = some scaled := hreg
  have hscaled : scaled = k * 8 := by
    cases hthree
    rw [← shl_three]
    exact (Option.some.inj hscaled).symm
  cases hreg.symm.trans hscaled'
  cases hsum
  rw [hscaled] at hreg'
  exact ⟨u, k, hu, hk, hreg'⟩

end Element

section Denoted

variable {env : Env} {P : Pending} {s : Sketch} {i : Info} {addr : Address} {d1 : Draft} {f : Func}
  {p : IR.Program} {c c1 : Config}

theorem denotes_member_iff {object : Expr} {field : String} (hs : Sound env P true s)
    (hrun : (lower env (.member i object field)).place.run s.toDraft = .ok (.mem addr, d1))
    (hf : d1.Within f) (hc : At f s.toDraft c) (hreach : Reaches p f d1 c c1) (a : Word) :
    Denotes env p f s.toDraft c (.member i object field) a ↔
      address c1.machine c1.frame addr = .ok a := by
  obtain ⟨cls, info, offset, o, d0, base, hty, hcls, hfield, hobject, hbase, ⟨⟩⟩ := run_member hrun
  obtain ⟨s0, rfl, hbuilt, hregion, ho⟩ := value_region hs hobject
  have hs0 := hbuilt.sound
  obtain ⟨s1, rfl, -, hregion1, -⟩ :=
    Post.region true [] hs0 (toVReg_sound hs0 ho) hbase
  obtain ⟨c0, hfirst, hsecond⟩ := hregion.through (hregion1.within hf) hregion1.code_grows hc hreach
  have hvalue {u : Word} := toVReg_value (w := u) hbase hs0.current hf hfirst.arrives hsecond
  rw [address_base_iff]
  constructor
  · rintro (⟨hty', hcls', hfield', hobject', hreach', hu⟩ | _)
    cases hty.symm.trans hty'
    cases hcls.symm.trans hcls'
    cases hfield.symm.trans hfield'
    cases hobject.symm.trans hobject'
    cases hfirst.unique hreach'
    exact ⟨_, hvalue.2 hu, rfl⟩
  · rintro ⟨u, hu, rfl⟩
    exact .member hty hcls hfield hobject hfirst (hvalue.1 hu)

/-- The array and the position are evaluated one after the other, and the array keeps its value while
the position is computed. -/
theorem parts_of_element {array : Expr} {q : Operand} {d2 d3 d4 d5 : Draft} {base : VReg}
    (hs : Sound env P true s) (harray : (lower env array).value.run s.toDraft = .ok (o, d2))
    (hkeep : (keep position o).run d2 = .ok (o', d3))
    (hposition : (lower env position).value.run d3 = .ok (q, d4))
    (hbase : (toVReg o' "arr").run d4 = .ok (base, d5)) :
    ∃ s5 : Sketch, s5.toDraft = d5 ∧ Sound env P true s5 ∧ q.Within (s5.known env) ∧
      (s5.known env).Has base ∧ ∀ {p : IR.Program} {f : Func} {c c1 : Config} {d' : Draft},
        d'.Within f → (∀ b, d5.code b <+: d'.code b) → At f s.toDraft c → Reaches p f d' c c1 →
        ∃ c2 c4 c5, Reaches p f d2 c c2 ∧ Reaches p f d4 c2 c4 ∧ At f d5 c5 ∧ Reaches p f d' c5 c1 ∧
          (∀ u, c5.frame.reg base = some u ↔ value c2.machine c2.frame o = .ok u) ∧
          ∀ k, value c5.machine c5.frame q = .ok k ↔ value c4.machine c4.frame q = .ok k := by
  -- The sketches after the array, its copy, the position, and the register of the array.
  obtain ⟨s2, rfl, hbuilt2, hregion2, ho⟩ := value_region hs harray
  obtain ⟨s3, rfl, hbuilt3, hregion3, ho'⟩ := Post.region position.hasEffects
    position.assigned hbuilt2.sound (snapshotIf_sound hbuilt2.sound ho) hkeep
  obtain ⟨s4, rfl, hbuilt4, hregion4, hq⟩ := value_region hbuilt3.sound hposition
  obtain ⟨s5, rfl, hbuilt5, hregion5, hhas⟩ := Post.region true [] hbuilt4.sound
    (toVReg_sound hbuilt4.sound (ho'.mono hbuilt4.le)) hbase
  refine ⟨s5, rfl, hbuilt5.sound, hq.mono hbuilt5.le, hhas, ?_⟩
  intro p f c c1 d' hf hle hc hreach
  have hf5 : s5.toDraft.Within f := fun b => (hle b).trans (hf b)
  have hf4 := hregion5.within hf5
  have hf3 := hregion4.within hf4
  have hf2 := hregion3.within hf3
  have hle4 (b : BlockId) := (hregion5.code_grows b).trans (hle b)
  have hle2 (b : BlockId) := (hregion3.code_grows b).trans ((hregion4.code_grows b).trans (hle4 b))
  have hregion : Region position.assigned s2.toDraft s4.toDraft :=
    (hbuilt3.next hbuilt4).region hbuilt2.sound
  -- The run goes through the places of these sketches in turn.
  obtain ⟨c2, h2, hreach⟩ := hregion2.through hf2 hle2 hc hreach
  obtain ⟨c4, h4, hreach⟩ := hregion.through hf4 hle4 h2.arrives hreach
  obtain ⟨c3, h3, h34⟩ := hregion3.through hf3 hregion4.code_grows h2.arrives h4
  obtain ⟨c5, h5, hreach⟩ := hregion5.through hf5 hle h4.arrives hreach
  refine ⟨c2, c4, c5, h2, h4, h5.arrives, hreach, fun u => ?_, fun k => ?_⟩
  · have hfix := fixes_of_within ho' fun v hv =>
      names_snapshotIf Expr.assigned_eq_nil hbuilt2.sound hkeep hv
    calc c5.frame.reg base = some u
      _ ↔ value c4.machine c4.frame o' = .ok u :=
        toVReg_value hbase hbuilt4.sound.current hf5 h4.arrives h5
      _ ↔ value c3.machine c3.frame o' = .ok u := hregion4.value_iff hf4 h3.arrives h34 hfix
      _ ↔ value c2.machine c2.frame o = .ok u :=
        snapshotIf_value hkeep hbuilt2.sound.current hf3 h2.arrives h3
  · exact hregion5.value_iff hf5 h4.arrives h5 (fixes_of_within hq (by simp))

theorem denotes_index_iff {array : Expr} (hs : Sound env P true s)
    (hrun : (lower env (.index i array position)).place.run s.toDraft = .ok (.mem addr, d1))
    (hf : d1.Within f) (hc : At f s.toDraft c) (hreach : Reaches p f d1 c c1) (a : Word) :
    Denotes env p f s.toDraft c (.index i array position) a ↔
      address c1.machine c1.frame addr = .ok a := by
  obtain ⟨o, d2, o', d3, q, d4, base, d5, harray, hkeep, hposition, hbase, hlast⟩ := run_index hrun
  obtain ⟨s5, rfl, hs5, hq, hhas, hparts⟩ := parts_of_element hs harray hkeep hposition hbase
  have hle : ∀ b, s5.toDraft.code b <+: d1.code b := by
    rcases hlast with ⟨_, _, -, -, -, rfl⟩ | ⟨-, rfl⟩
    · exact fun b => prefix_refl _
    · exact Draft.code_prefix_element hs5.current q base
  obtain ⟨c2, c4, c5, h2, h4, hat, hreach, harr, hpos⟩ := hparts hf hle hc hreach
  -- In both forms of the address, what is added to the array is the same.
  have haddress : address c1.machine c1.frame addr = .ok a ↔
      ∃ u k, value c2.machine c2.frame o = .ok u ∧ value c4.machine c4.frame q = .ok k ∧
        u + (k * 8 + 8) = a := by
    rcases hlast with ⟨k, offset, rfl, hoffset, ⟨⟩, rfl⟩ | ⟨⟨⟩, rfl⟩
    · rw [hreach.eq_of_at hat, address_base_iff, eq_of_span? hoffset]
      constructor
      · rintro ⟨u, hu, rfl⟩
        exact ⟨u, k, (harr u).1 hu, rfl, rfl⟩
      · rintro ⟨u, k', hu, ⟨⟩, rfl⟩
        exact ⟨u, (harr u).2 hu, rfl⟩
    · obtain ⟨u, k, hu, hk, hreg⟩ := reg_of_element hs5 hq hhas hf hat hreach
      rw [address_base_iff]
      constructor
      · rintro ⟨x, hx, rfl⟩
        cases hreg.symm.trans hx
        exact ⟨u, k, (harr u).1 hu, (hpos k).1 hk, (Int64.add_assoc ..).symm⟩
      · rintro ⟨u', k', hu', hk', rfl⟩
        cases hu.symm.trans ((harr u').2 hu')
        cases hk.symm.trans ((hpos k').2 hk')
        exact ⟨_, hreg, Int64.add_assoc ..⟩
  rw [haddress]
  constructor
  · rintro (_ | ⟨harray', hreach', hu, hkeep', hposition', hreach'', hk⟩)
    cases harray.symm.trans harray'
    cases h2.unique hreach'
    cases hkeep.symm.trans hkeep'
    cases hposition.symm.trans hposition'
    cases h4.unique hreach''
    exact ⟨_, _, hu, hk, rfl⟩
  · rintro ⟨u, k, hu, hk, rfl⟩
    exact .index harray h2 hu hkeep hposition h4 hk

/-- After the code for a target, the address that it denotes is the one that the place names. -/
theorem denotes_iff_address (hs : Sound env P true s) (htarget : target.isMemory = true)
    (hrun : (lower env target).place.run s.toDraft = .ok (.mem addr, d1)) (hf : d1.Within f)
    (hc : At f s.toDraft c) (hreach : Reaches p f d1 c c1) (a : Word) :
    Denotes env p f s.toDraft c target a ↔ address c1.machine c1.frame addr = .ok a := by
  cases target with
  | member => exact denotes_member_iff hs hrun hf hc hreach a
  | index => exact denotes_index_iff hs hrun hf hc hreach a
  | _ => cases htarget

end Denoted

/-! ## Stores -/

/-- The next step stores the value of an operand at an address, or fails to. -/
def Stores (p : IR.Program) (c : Config) (a : Word) (v : Operand) : Prop :=
  ∀ w, value c.machine c.frame v = .ok w →
    step p c = .ofExcept (do
      let memory ← c.machine.memory.writeWord a w
      return ⟨{ c.machine with memory := memory }, { c.frame with code := c.frame.code.tail },
        c.callers⟩)

theorem stores_of_address {p : IR.Program} {f : Func} {c : Config} {a : Word} {v : Operand}
    (hc : At f d c) (hd : d.current < d.size)
    (hf : (d.emit (.store (.base (.vreg r) offset) v)).Within f)
    (ha : address c.machine c.frame (.base (.vreg r) offset) = .ok a) : Stores p c a v := by
  obtain ⟨rest, hcode⟩ := hc.code_emit hd hf
  obtain ⟨m, fr, k⟩ := c
  obtain ⟨u, hu, rfl⟩ := address_base_iff.1 ha
  intro w hw
  have hcode : fr.code = _ :: rest := hcode
  have haddress : address m { fr with code := rest } (.base (.vreg r) offset) = .ok (u + offset) :=
    address_base_iff.2 ⟨u, hu, rfl⟩
  rw [step_eq_compute hcode ⟨rfl, rfl⟩, compute, value_withCode]
  simp only [hw, Except.ok_bind, Interp.store, haddress, hcode, tail_cons]
  cases m.memory.writeWord (u + offset) w <;> rfl

/-- A field and an element are places in memory that a register points to. -/
theorem base_of_place {place : Place} (htarget : target.isMemory = true)
    (hrun : (lower env target).place.run d = .ok (place, d')) :
    ∃ r offset, place = .mem (.base (.vreg r) offset) := by
  cases target with
  | member =>
    obtain ⟨_, _, _, _, _, _, -, -, -, -, -, rfl⟩ := run_member hrun
    exact ⟨_, _, rfl⟩
  | index =>
    obtain ⟨_, _, _, _, _, _, _, _, -, -, -, -, h⟩ := run_index hrun
    rcases h with ⟨_, _, -, -, rfl, -⟩ | ⟨rfl, -⟩
    · exact ⟨_, _, rfl⟩
    · exact ⟨_, _, rfl⟩
  | _ => cases htarget

theorem run_assign {info : Info} {e : Expr} {v : Operand} (htarget : target.isMemory = true)
    (hrun : (lower env (.assign info target e)).value.run d = .ok (v, d')) :
    ∃ r offset d1 d2, (lower env target).place.run d = .ok (.mem (.base (.vreg r) offset), d1) ∧
      (lower env e).value.run d1 = .ok (v, d2) ∧
      d' = d2.emit (.store (.base (.vreg r) offset) v) := by
  rw [lower] at hrun
  obtain ⟨place, d1, hplace, hrun⟩ := run_bind_eq_ok.1 hrun
  obtain ⟨w, d2, hvalue, hrun⟩ := run_bind_eq_ok.1 hrun
  obtain ⟨r, offset, rfl⟩ := base_of_place htarget hplace
  cases hrun
  exact ⟨r, offset, d1, d2, hplace, hvalue, rfl⟩

/-- **Where an assignment stores.** In every activation that gets to the store of an assignment to a
field or an element, the target was evaluated first, and the address that it denoted is the one that the
store names at that point. The store goes to the address that it names when the value is computed. That is
the address that the target denoted, unless the value assigns the variable whose register the store
uses. -/
theorem stores_where_denoted {env : Env} {info : Info} {target e : Expr} {P : Pending} {s : Sketch}
    {v : Operand} {d' : Draft} (hs : Sound env P true s) (htarget : target.isMemory = true)
    (hrun : (lower env (.assign info target e)).value.run s.toDraft = .ok (v, d')) :
    ∃ r offset d1 d2, (lower env target).place.run s.toDraft = .ok (.mem (.base (.vreg r) offset), d1) ∧
      (lower env e).value.run d1 = .ok (v, d2) ∧ d' = d2.emit (.store (.base (.vreg r) offset) v) ∧
      ∀ (p : IR.Program) (f : Func) (c c2 : Config), d'.Within f → At f s.toDraft c →
        Reaches p f d2 c c2 → ∃ c1, Reaches p f d1 c c1 ∧ Reaches p f d2 c1 c2 ∧
          (∀ a, Denotes env p f s.toDraft c target a ↔
            address c1.machine c1.frame (.base (.vreg r) offset) = .ok a) ∧
          (∀ a, address c2.machine c2.frame (.base (.vreg r) offset) = .ok a → Stores p c2 a v) ∧
          ((∀ name ∈ e.assigned, d1.register? name ≠ some r) →
            ∀ a, Denotes env p f s.toDraft c target a → Stores p c2 a v) := by
  obtain ⟨r, offset, d1, d2, hplace, hvalue, rfl⟩ := run_assign htarget hrun
  refine ⟨r, offset, d1, d2, hplace, hvalue, rfl, ?_⟩
  intro p f c c2 hf hc hreach
  obtain ⟨s1, rfl, hbuilt1, hregion1, hwithin, -⟩ :=
    Post.region _ _ hs ((lower_sound env target).place P s hs) hplace
  obtain ⟨s2, rfl, hbuilt2, hregion2, -⟩ := value_region hbuilt1.sound hvalue
  have hf2 : s2.toDraft.Within f := fun b =>
    (s2.toDraft.code_prefix_emit hbuilt2.sound.current _ b).trans (hf b)
  have hf1 := hregion2.within hf2
  obtain ⟨c1, h1, h2⟩ := hregion1.through hf1 hregion2.code_grows hc hreach
  have hdenotes := denotes_iff_address hs htarget hplace hf1 hc h1
  have hstores (a : Word) := stores_of_address (p := p) (a := a) h2.arrives hbuilt2.sound.current hf
  refine ⟨c1, h1, h2, hdenotes, hstores, fun hnames a ha => hstores a ?_⟩
  -- The register of the address is as it was when the place was found.
  obtain ⟨u, hu, rfl⟩ := address_base_iff.1 ((hdenotes a).1 ha)
  have hreg : c2.frame.reg r = c1.frame.reg r :=
    hregion2.reg_eq hf2 h1.arrives h2 (show (s1.known env).Has r from hwithin).1 hnames
  exact address_base_iff.2 ⟨u, hreg.trans hu, rfl⟩

/-! ## Two nodes of a list -/

def nodeEnv : Env := { scope := { classes := ⟨[("Node", ⟨"Node", [⟨"next", .object "Node"⟩], {}⟩)]⟩ } }

/-- A function of two nodes `p` and `q`, before it has code. -/
def twoNodes : Draft :=
  { func := ((Func.create "link" "f_link").addParam "p").addParam "q"
    current := 0
    locals := [⟨[("q", 1), ("p", 0)]⟩] }

theorem sound_twoNodes : Sound nodeEnv [] true twoNodes.sketch := by
  refine Opening.sound ⟨rfl, rfl, rfl, rfl, rfl, rfl, ?_⟩ ⟨nofun, nofun⟩
  decide

def nextOfP : Expr := .ofMember (.named "p" (.object "Node")) "next" (.object "Node")

def becomesQ (x : String) : Expr :=
  .ofAssign (.named x (.object "Node")) (.named "q" (.object "Node"))

def moved (r : VReg) : Draft := twoNodes.emit (.move (.vreg r) (.vreg 1))

def linked (r : VReg) : Draft := (moved r).emit (.store (.base (.vreg 0) 0) (.vreg r))

/-- A call of the function with nodes at 8 and 16, with some code left. -/
def nodesAt (r : VReg) (regs : Array (Option Word)) (code : List Instr) : Config :=
  { machine := ⟨⟨Array.replicate 24 0⟩, .empty, #[], [], "", true⟩
    frame := ⟨(linked r).func, regs, #[], [], [], 0, code⟩
    callers := [] }

theorem at_twoNodes (r : VReg) :
    At (linked r).func twoNodes (nodesAt r #[some 8, some 16] ((linked r).code 0)) :=
  ⟨rfl, rfl, rfl⟩

theorem reaches_linked {c : Config}
    (h : step {} (nodesAt r #[some 8, some 16] ((linked r).code 0)) = .running c) :
    Reaches {} (linked r).func (moved r) (nodesAt r #[some 8, some 16] ((linked r).code 0)) c := by
  refine (at_twoNodes r).reaches (by decide) ?_ ⟨rfl, rfl⟩ h
  exact (moved r).code_prefix_emit (show 0 < (moved r).size by simp [moved]; decide) _

theorem place_nextOfP : (lower nodeEnv nextOfP).place.run twoNodes =
    .ok (.mem (.base (.vreg 0) 0), twoNodes) :=
  rfl

theorem denotes_nextOfP (r : VReg) : Denotes nodeEnv {} (linked r).func twoNodes
    (nodesAt r #[some 8, some 16] ((linked r).code 0)) nextOfP 8 := by
  have hempty : twoNodes.Within (linked r).func := fun b => by
    rw [show twoNodes.code b = [] by cases b <;> rfl]
    exact nil_prefix
  exact (denotes_iff_address sound_twoNodes rfl place_nextOfP hempty (at_twoNodes r)
    ⟨.refl, at_twoNodes r⟩ 8).2 rfl

/-- The assignment `p.next = (q = q)` stores in the node that was `p`. -/
theorem stores_where_denoted_link :
    ∃ c, Reaches {} (linked 1).func (moved 1) (nodesAt 1 #[some 8, some 16] ((linked 1).code 0)) c ∧
      Denotes nodeEnv {} (linked 1).func twoNodes (nodesAt 1 #[some 8, some 16] ((linked 1).code 0))
        nextOfP 8 ∧ Stores {} c 8 (.vreg 1) := by
  have hrun : (lower nodeEnv (.ofAssign nextOfP (becomesQ "q"))).value.run twoNodes.sketch.toDraft =
    .ok (.vreg 1, linked 1) := rfl
  obtain ⟨r, offset, d1, d2, hplace, hvalue, -, h⟩ := stores_where_denoted sound_twoNodes rfl hrun
  have hvalue' : (lower nodeEnv (becomesQ "q")).value.run twoNodes = .ok (.vreg 1, moved 1) := rfl
  cases hplace.symm.trans place_nextOfP
  cases hvalue.symm.trans hvalue'
  have hreach := reaches_linked (r := 1) rfl
  obtain ⟨_, -, -, -, -, hstores⟩ := h {} (linked 1).func _ _ (fun _ => List.prefix_refl _)
    (at_twoNodes 1) hreach
  exact ⟨_, hreach, denotes_nextOfP 1, hstores (by decide) 8 (denotes_nextOfP 1)⟩

/-- The assignment `p.next = (p = q)` stores in the node that was `q`. -/
theorem store_follows_variable :
    (lower nodeEnv (.ofAssign nextOfP (becomesQ "p"))).value.run twoNodes = .ok (.vreg 0, linked 0) ∧
      ∃ c, Reaches {} (linked 0).func (moved 0) (nodesAt 0 #[some 8, some 16] ((linked 0).code 0)) c ∧
        Denotes nodeEnv {} (linked 0).func twoNodes
          (nodesAt 0 #[some 8, some 16] ((linked 0).code 0)) nextOfP 8 ∧
        Stores {} c 16 (.vreg 0) ∧ ¬Stores {} c 8 (.vreg 0) := by
  have hreach := reaches_linked (r := 0) rfl
  refine ⟨rfl, _, hreach, denotes_nextOfP 0, ?_, ?_⟩
  · exact stores_of_address hreach.arrives (by decide) (fun _ => List.prefix_refl _) rfl
  · intro h
    -- The two stores differ in what is at the second node after them.
    have hread := congrArg (fun x => match x with
      | .running c => (c.machine.memory.readWord 16).toOption
      | _ => none) (h 16 rfl)
    revert hread
    decide +kernel

end MxStar.Lowering
