import MxStar.Lowering.Expr
import MxStar.Proofs.DraftAdditions

/-!
The code for an expression is sound, and confined to what the expression assigns.

`Yields env L x Q` says that a step of construction keeps a sketch sound and leaves its block open, within
the limits `L`, and that `Q` holds of its result. `Branches` says the same of code that ends the block, and
`Locates` of code that finds a place.
-/
namespace MxStar.Lowering

open MxStar.Tree IR List

variable {len v : Operand} {cond : BlockId → BlockId → Build Unit} {loc : Location} {hint : String}
  {value : Build Operand} {place : Build Place} {callee : Callee} {strings : Bool} {L L' : Limits}

/-- The place exists before registers are allocated, and has a value. -/
def Place.Within (K : Known) : Place → Prop
  | .reg v => K.Has v
  | .mem a => a.Within K

theorem Place.Within.mono {K L : Known} (h : K.Le L) {p : Place} (hp : p.Within K) : p.Within L := by
  cases p with
  | reg v => exact Known.Has.mono h hp
  | mem a => exact Address.Within.mono h hp

/-- The step keeps sketches sound and their current block open, and gives what `Q` says. -/
def Yields (env : Env) (L : Limits) {α : Type} (x : Build α) (Q : Known → α → Prop) : Prop :=
  ∀ P s, Sound env P true s →
    Post x s fun a s' => Extends env L P true s s' ∧ Q (s'.known env) a

/-- The step keeps sketches sound and ends the current block. -/
def Branches (env : Env) (L : Limits) (cond : BlockId → BlockId → Build Unit) : Prop :=
  ∀ P s t e, Sound env P true s → (s.known env).Enters t → (s.known env).Enters e →
    Post (cond t e) s fun _ s' => Extends env (L.to [t, e]) P false s s'

/-- The step finds a place. A register that the place is belongs to one of the variables. -/
def Locates (env : Env) (L : Limits) (names : List String) (x : Build Place) : Prop :=
  ∀ P s, Sound env P true s → Post x s fun p s' => Extends env L P true s s' ∧
    p.Within (s'.known env) ∧ ∀ r, p = .reg r → ∃ name ∈ names, s.register? name = some r

section Rules

variable {env : Env} {α β : Type} {P : Pending} {s s1 : Sketch} {x : Build α} {f : α → Build β}
  {Q : Known → α → Prop} {R : β → Sketch → Prop}

theorem Yields.pure {a : α} (h : ∀ K, Q K a) : Yields env L (pure a) Q :=
  fun _ _ hs => .pure ⟨.refl hs, h _⟩

theorem Yields.throw {e : CompileError} : Yields env L (throw e) Q :=
  fun _ _ _ => .throw

theorem Yields.mono (h : Yields env L' x Q) (hL : ∀ d, L'.Le d L) : Yields env L x Q :=
  fun P s hs => (h P s hs).mono fun _ _ ⟨h, ha⟩ => ⟨h.mono (hL _), ha⟩

theorem Branches.mono (h : Branches env L' cond) (hL : ∀ ts d, (L'.to ts).Le d (L.to ts)) :
    Branches env L cond :=
  fun P s t e hs ht he => (h P s t e hs ht he).mono fun _ _ h => h.mono (hL _ _)

theorem Yields.after (hx : Yields env L x Q) (h : Extends env L P true s s1)
    (hf : ∀ a s2, Extends env L P true s1 s2 → Extends env L P true s s2 → Q (s2.known env) a →
      Post (f a) s2 R) : Post (x >>= f) s1 R :=
  .bind ((hx P s1 h.sound).mono fun a s2 ⟨h2, ha⟩ => hf a s2 h2 (h.next h2) ha)

theorem Yields.first (hx : Yields env L x Q) (hs : Sound env P true s)
    (hf : ∀ a s1, Extends env L P true s s1 → Q (s1.known env) a → Post (f a) s1 R) :
    Post (x >>= f) s R :=
  .bind ((hx P s hs).mono fun a s1 ⟨h1, ha⟩ => hf a s1 h1 ha)

theorem Branches.after {f : Unit → Build β} {t e : BlockId}
    (hc : Branches env L cond) (h : Extends env L' P true s s1) (ht : (s1.known env).Enters t)
    (he : (s1.known env).Enters e) (hL : (L.to [t, e]).Le s.toDraft L')
    (hf : ∀ s2, s1.regs ≤ s2.regs → Extends env L' P false s s2 → Post (f ()) s2 R) :
    Post (cond t e >>= f) s1 R :=
  .bind ((hc P s1 t e h.sound ht he).mono fun _ s2 h2 => hf s2 h2.regs (h.trans h2 hL))

/-- What was built before a step that yields stays built. -/
theorem Extends.andThen {s2 : Sketch} (h : Extends env L P true s s1)
    (hx : Post x s2 fun a s' => Extends env L P true s1 s' ∧ Q (s'.known env) a) :
    Post x s2 fun a s' => Extends env L P true s s' ∧ Q (s'.known env) a :=
  hx.mono fun _ _ ⟨h', ha⟩ => ⟨h.next h', ha⟩

end Rules

section Pieces

variable {env : Env} {P : Pending} {s : Sketch}

/-! ## Values and places -/

theorem define_sound {i : Instr} (hs : Sound env P true s)
    (hi : i.Within ((s.addReg hint).known env)) (hdst : i.dst? = some (.vreg s.regs))
    (hq : L.effects = false → i.isQuiet = true) :
    Post (do emit i; pure (Operand.vreg s.regs)) (s.addReg hint) fun v s' =>
      Extends env L P true s s' ∧ v.Within (s'.known env) :=
  .emit (.pure ((Extends.refl hs).define hint hi hdst hq))

theorem toVReg_sound (hs : Sound env P true s) (hv : v.Within (s.known env)) :
    Post (toVReg v hint) s fun r s' => Extends env L P true s s' ∧ (s'.known env).Has r := by
  have hmove : Post (do let r ← fresh hint; emit (.move (.vreg r) v); pure r) s
      fun r s' => Extends env L P true s s' ∧ (s'.known env).Has r := by
    refine .fresh (.emit (.pure ((Extends.refl hs).define hint ?_ rfl fun _ => rfl)))
    exact ⟨s.lt_regs_addReg hint, hv.mono (s.le_addReg env hint)⟩
  cases v with
  | vreg r => exact .pure ⟨.refl hs, hv⟩
  | phys p => exact hmove
  | imm w => exact hmove
  | static x => exact hmove

theorem literal_yields (text : String) : Yields env L (literal text) Operand.Within := by
  intro P s hs
  let x : Static := ⟨"str", .text text, ""⟩
  have hconf : Confines L s.toDraft (s.addStatic x).toDraft :=
    .of_same_code (Nat.le_refl _) (Nat.le_refl _) rfl fun _ => rfl
  refine .modifyGet (s.addStatic x) rfl ⟨⟨(Built.refl hs).addStatic _, hconf⟩, ?_⟩
  change s.statics.size < (s.statics.push _).size
  simp

theorem mem_values_of_find? {α : Type} {t : Table α} {name : String} {a : α}
    (h : t.find? name = some a) : a ∈ t.values := by
  obtain ⟨l, r, hentries, -⟩ := lookup_eq_some_iff.1 h
  rw [Table.values, hentries]
  simp

theorem resolve_locates (name : String) (loc : Location) :
    Locates env L [name] (resolve env name loc) := by
  intro P s hs
  refine .get ?_
  split
  · next place hplace =>
    refine .pure ⟨.refl hs, ?_⟩
    simp only [Option.orElse_eq_orElse, Option.orElse_eq_or, Option.or_eq_some_iff] at hplace
    -- A field of the object and a global variable are places in memory.
    rcases hplace with hplace | ⟨-, hplace | ⟨-, hplace⟩⟩
    · obtain ⟨r, hr, rfl⟩ := Option.map_eq_some_iff.1 hplace
      obtain ⟨scope, hscope, hfind⟩ := exists_of_findSome?_eq_some hr
      refine ⟨hs.names.locals scope hscope r (mem_values_of_find? hfind), ?_⟩
      rintro _ ⟨⟩
      exact ⟨name, mem_singleton_self _, hr⟩
    · obtain ⟨⟨cls, obj⟩, hself, hfield⟩ := Option.bind_eq_some_iff.1 hplace
      obtain ⟨offset, -, rfl⟩ := Option.map_eq_some_iff.1 hfield
      exact ⟨hs.names.self cls obj hself, nofun⟩
    · obtain ⟨x, hglobal, rfl⟩ := Option.map_eq_some_iff.1 hplace
      exact ⟨hs.names.globals name x hglobal, nofun⟩
  · exact .throw

theorem read_sound {place : Place} (hs : Sound env P true s) (hp : place.Within (s.known env)) :
    Post (read place hint) s fun v s' =>
      Extends env L P true s s' ∧ v.Within (s'.known env) := by
  cases place with
  | reg v => exact .pure ⟨.refl hs, hp⟩
  | mem a =>
    refine .fresh (define_sound hs ?_ rfl fun _ => rfl)
    exact ⟨s.lt_regs_addReg hint, Address.Within.mono (s.le_addReg env hint) hp⟩

/-! ## Operands -/

theorem snapshot_sound (hs : Sound env P true s) (hv : v.Within (s.known env)) :
    Post (snapshot v) s fun v' s' => Extends env L P true s s' ∧ v'.Within (s'.known env) := by
  cases v with
  | vreg r =>
    refine .get ?_
    split
    · refine .fresh (define_sound hs ?_ rfl fun _ => rfl)
      exact ⟨s.lt_regs_addReg _, hv.mono (s.le_addReg env _)⟩
    · exact .pure ⟨.refl hs, hv⟩
  | phys p | imm w | static x => exact .pure ⟨.refl hs, hv⟩

theorem ite_bind {α β : Type} (b : Bool) (x y : Build α) (f : α → Build β) :
    (if b then x >>= f else y >>= f) = (if b then x else y) >>= f := by
  cases b <;> rfl

theorem snapshotIf_sound {b : Bool} (hs : Sound env P true s) (hv : v.Within (s.known env)) :
    Post (if b then snapshot v else pure v) s fun v' s' =>
      Extends env L P true s s' ∧ v'.Within (s'.known env) := by
  split
  · exact snapshot_sound hs hv
  · exact .pure ⟨.refl hs, hv⟩

theorem snapshotIf_after {α : Type} {b : Bool} {f : Operand → Build α} {R : α → Sketch → Prop}
    {s1 : Sketch} (h : Extends env L P true s s1) (hv : v.Within (s1.known env))
    (hf : ∀ v' s2, Extends env L P true s s2 → v'.Within (s2.known env) → Post (f v') s2 R) :
    Post (if b then snapshot v >>= f else pure v >>= f) s1 R := by
  rw [ite_bind]
  exact .bind ((h.andThen (snapshotIf_sound h.sound hv)).mono fun v' s2 ⟨h2, hv'⟩ => hf v' s2 h2 hv')

theorem evalOperands_yields {cs : List OperandCode}
    (h : ∀ c ∈ cs, Yields env L c.value Operand.Within) :
    Yields env L (evalOperands cs) fun K vs => ∀ v ∈ vs, v.Within K := by
  induction cs with
  | nil => exact .pure (by simp)
  | cons c cs ih =>
    intro P s hs
    refine (h c mem_cons_self).first hs fun v s1 h1 hv => ?_
    refine snapshotIf_after h1 hv fun v' s2 h2 hv' => ?_
    refine (ih fun c' hc' => h c' (mem_cons_of_mem _ hc')).after h2 fun vs s3 h23 h3 hvs => ?_
    refine .pure ⟨h3, fun w hw => ?_⟩
    rcases mem_cons.1 hw with rfl | hw
    · exact hv'.mono h23.le
    · exact hvs w hw

theorem evalBoth_yields {l r : OperandCode} (hl : Yields env L l.value Operand.Within)
    (hr : Yields env L r.value Operand.Within) :
    Yields env L (evalBoth l r) fun K vs => vs.1.Within K ∧ vs.2.Within K := by
  intro P s hs
  refine hl.first hs fun v s1 h1 hv => ?_
  refine snapshotIf_after h1 hv fun v' s2 h2 hv' => ?_
  refine hr.after h2 fun w s3 h23 h3 hw => ?_
  exact .pure ⟨h3, hv'.mono h23.le, hw⟩

/-! ## Forms -/

/-- Code that ends with a branch on what a step gives. -/
theorem branch_branches {α : Type} {x : Build α} {Q : Known → α → Prop} {c : CmpOp}
    {l r : α → Operand} (h : Yields env (L.to []) x Q) (hl : ∀ K a, Q K a → (l a).Within K)
    (hr : ∀ K a, Q K a → (r a).Within K) :
    Branches env L fun t e => x >>= fun a => emit (.branch c (l a) (r a) t e) := by
  intro P s t e hs ht he
  have hx : Yields env (L.to [t, e]) x Q := h.mono fun _ => ⟨id, List.Subset.refl _, nofun⟩
  refine hx.first hs fun a s1 h1 ha => .emitLast ?_
  refine h1.close ⟨hl _ a ha, hr _ a ha, ht.mono h1.le, he.mono h1.le⟩ rfl (.branch ?_ ?_)
  · exact .inr (by simp)
  · exact .inr (by simp)

theorem branchOn_branches (h : Yields env (L.to []) value Operand.Within) :
    Branches env L (branchOn value) :=
  branch_branches h (fun _ _ hv => hv) fun _ _ _ => trivial

/-- All code for an expression is sound and confined to what the expression assigns. -/
structure Forms.Sound (env : Env) (c : Forms) (e : Expr) : Prop where
  value : Yields env (limitsOf e) c.value Operand.Within
  cond : Branches env (limitsOf e) c.cond
  place : Locates env (limitsOf e) e.name?.toList c.place

variable {e : Expr}

theorem Forms.Sound.ofValue (h : Yields env (limitsOf e) value Operand.Within) :
    (Forms.ofValue loc value).Sound env e :=
  ⟨h, branchOn_branches h, fun _ _ _ => .throw⟩

theorem Forms.Sound.ofPlace (h : Locates env (limitsOf e) e.name?.toList place) :
    (Forms.ofPlace place).Sound env e := by
  have hvalue : Yields env (limitsOf e) (Forms.ofPlace place).value Operand.Within := by
    intro P s hs
    refine .bind ((h P s hs).mono fun p s1 ⟨h1, hp, _⟩ => ?_)
    exact h1.andThen (read_sound h1.sound hp)
  exact ⟨hvalue, branchOn_branches hvalue, h⟩

/-! ## Operators -/

theorem callInto_within (callee : Callee) (args : List Operand)
    (hcallee : callee.Within (s.known env)) (hargs : ∀ v ∈ args, v.Within (s.known env)) :
    (Instr.call (some (.vreg s.regs)) callee args 0).Within ((s.addReg hint).known env) := by
  have hle := s.le_addReg env hint
  refine ⟨fun o ho => ?_, hcallee.mono hle, fun v hv => (hargs v hv).mono hle⟩
  obtain rfl := Option.some.inj ho
  exact s.lt_regs_addReg hint

theorem forall_mem_pair {α : Type} {Q : α → Prop} {l r : α} (hl : Q l) (hr : Q r) :
    ∀ v ∈ [l, r], Q v := by
  simp [hl, hr]

section Both

variable {l r : OperandCode} (hl : Yields env L l.value Operand.Within)
  (hr : Yields env L r.value Operand.Within)

include hl hr

theorem arithValue_yields {op : BinOp} : Yields env L (arithValue op strings l r) Operand.Within := by
  intro P s hs
  refine (evalBoth_yields hl hr).first hs fun vs s1 h1 ⟨hl, hr⟩ => ?_
  dsimp only
  split
  · refine .fresh (h1.andThen (define_sound h1.sound ?_ rfl fun _ => rfl))
    exact callInto_within _ _ trivial (forall_mem_pair hl hr)
  · refine .fresh (h1.andThen (define_sound h1.sound ?_ rfl fun _ => rfl))
    have hle := s1.le_addReg env op.mnemonic
    exact ⟨s1.lt_regs_addReg _, hl.mono hle, hr.mono hle⟩

theorem comparands_yields :
    Yields env L (comparands strings l r) fun K vs => vs.1.Within K ∧ vs.2.Within K := by
  intro P s hs
  refine (evalBoth_yields hl hr).first hs fun vs s1 h1 ⟨hl, hr⟩ => ?_
  dsimp only
  split
  · have hcall := h1.define "strcmp" (callInto_within (.builtin .stringCompare) _ trivial
      (forall_mem_pair hl hr)) rfl fun _ => rfl
    exact .fresh (.emit (.pure ⟨hcall.1, hcall.2, trivial⟩))
  · exact .pure ⟨h1, hl, hr⟩

end Both

theorem relationForms_sound {cond : CmpOp} {l r : OperandCode}
    (hl : Yields env (limitsOf e) l.value Operand.Within)
    (hr : Yields env (limitsOf e) r.value Operand.Within) :
    (relationForms loc cond strings l r).Sound env e where
  value := by
    intro P s hs
    refine (comparands_yields hl hr).first hs fun vs s1 h1 ⟨hl, hr⟩ => ?_
    refine .fresh (h1.andThen (define_sound h1.sound ?_ rfl fun _ => rfl))
    have hle := s1.le_addReg env "cmp"
    exact ⟨s1.lt_regs_addReg _, hl.mono hle, hr.mono hle⟩
  cond := branch_branches (comparands_yields hl hr) (fun _ _ h => h.1) fun _ _ h => h.2
  place := fun _ _ _ => .throw

/-- The value is written in two blocks that go on in a third. -/
theorem boolValue_yields (hc : Branches env L cond) : Yields env L (boolValue cond) Operand.Within := by
  intro P s hs
  refine .fresh (.newBlock s.written (.newBlock s.written (.newBlock (s.written ∪ {s.regs}) ?_)))
  have ht := ((Extends.refl (L := L) hs).addReg "bool").newBlock "bool_true" s.written
  have he := ht.newBlock "bool_false" s.written
  have h0 := he.newBlock "bool_end" (s.written ∪ {s.regs})
  refine hc.after h0 (h0.enters (.tail _ (.tail _ (.head _))) h0.written)
    (h0.enters (.tail _ (.head _)) h0.written) ⟨id, List.Subset.refl _, ?_⟩ fun s1 hregs h1 => ?_
  · exact forall_mem_pair (.inl (Nat.le_refl _)) (.inl ht.size)
  have hresult : s.regs < s1.regs := Nat.lt_of_lt_of_le (s.lt_regs_addReg "bool") hregs
  have hadmits (w : Word) : s.Admits L (.move (.vreg s.regs) (.imm w)) :=
    .into rfl (fun _ => rfl) rfl (.inl (Nat.le_refl _))
  have htrue := h1.switchTo [_, _] hs subset_rfl
  have htrue' := htrue.emit (i := .move (.vreg s.regs) (.imm 1)) ⟨hresult, trivial⟩ rfl (hadmits 1)
  have hfalse := (htrue'.jump (htrue'.enters (.head _) (htrue.union_subset_emit rfl))
    (.inl he.size)).switchTo [_] hs subset_rfl
  have hfalse' := hfalse.emit (i := .move (.vreg s.regs) (.imm 0)) ⟨hresult, trivial⟩ rfl (hadmits 0)
  have hjump := hfalse'.jump (hfalse'.enters (.head _) (hfalse.union_subset_emit rfl)) (.inl he.size)
  have hend := hjump.switchTo [] hs Set.subset_union_left
  refine .switchTo (.emit (.emit (.switchTo (.emit (.emit (.switchTo (.pure ⟨hend, hresult, ?_⟩)))))))
  change s.regs ∈ (Sketch.goto _ _).written
  rw [hjump.sound.written_goto (.head _)]
  exact Or.inr rfl

section Conditions

variable {l r : BlockId → BlockId → Build Unit} (hl : Branches env L l) (hr : Branches env L r)

include hl hr

theorem bothCond_branches : Branches env L (bothCond l r) := by
  intro P s t e hs ht he
  refine .newBlock s.written ?_
  have h0 := (Extends.refl (L := L.to [t, e]) hs).newBlock "and_rhs" s.written
  refine hl.after h0 (h0.enters (.head _) h0.written) (he.mono h0.le) ⟨id, List.Subset.refl _, ?_⟩
    fun s1 _ h1 => ?_
  · exact forall_mem_pair (.inl (Nat.le_refl _)) (.inr (by simp))
  have hrest := h1.switchTo [] hs subset_rfl
  exact .switchTo ((hr P _ t e hrest.sound (ht.mono hrest.le) (he.mono hrest.le)).mono
    fun _ s2 h2 => hrest.next h2)

theorem eitherCond_branches : Branches env L (eitherCond l r) := by
  intro P s t e hs ht he
  refine .newBlock s.written ?_
  have h0 := (Extends.refl (L := L.to [t, e]) hs).newBlock "or_rhs" s.written
  refine hl.after h0 (ht.mono h0.le) (h0.enters (.head _) h0.written) ⟨id, List.Subset.refl _, ?_⟩
    fun s1 _ h1 => ?_
  · exact forall_mem_pair (.inr (by simp)) (.inl (Nat.le_refl _))
  have hrest := h1.switchTo [] hs subset_rfl
  exact .switchTo ((hr P _ t e hrest.sound (ht.mono hrest.le) (he.mono hrest.le)).mono
    fun _ s2 h2 => hrest.next h2)

end Conditions

theorem logicForms_sound (hc : Branches env (limitsOf e) cond) : (logicForms loc cond).Sound env e :=
  ⟨boolValue_yields hc, hc, fun _ _ _ => .throw⟩

theorem stepValue_yields {op : BinOp} {after : Bool} (hL : L.effects = true)
    (hp : Locates env L L.names place) : Yields env L (stepValue op after place) Operand.Within := by
  intro P s hs
  refine .bind ((hp P s hs).mono fun p s1 ⟨h1, hp, hreg⟩ => ?_)
  cases p with
  | reg r =>
    have hadmits : s.Admits L (.binary (.vreg r) op (.vreg r) (.imm 1)) :=
      .into rfl (fun _ => rfl) rfl (.inr (hreg r rfl))
    dsimp only
    split
    · refine .emit (.pure ⟨h1.emit ⟨hp.1, hp, trivial⟩ rfl hadmits, ?_⟩)
      exact hp.mono (s1.le_emit env h1.sound.current _)
    · obtain ⟨hmove, hold⟩ := (Extends.refl (L := L) h1.sound).define "old"
        (i := .move (.vreg s1.regs) (.vreg r))
        ⟨s1.lt_regs_addReg _, hp.mono (s1.le_addReg env _)⟩ rfl fun _ => rfl
      have hr := hp.mono hmove.le
      refine .fresh (.emit (.emit (.pure ⟨(h1.next hmove).emit ⟨hr.1, hr, trivial⟩ rfl hadmits, ?_⟩)))
      exact hold.mono (Sketch.le_emit _ env hmove.sound.current _)
  | mem a =>
    refine .bind ((read_sound (L := L) h1.sound hp).mono fun old s2 ⟨h2, hold⟩ => ?_)
    obtain ⟨hnew, hhas⟩ := (Extends.refl (L := L) h2.sound).define "new"
      (i := .binary (.vreg s2.regs) op old (.imm 1))
      ⟨s2.lt_regs_addReg _, hold.mono (s2.le_addReg env _), trivial⟩ rfl fun _ => rfl
    have ha := (hp.mono h2.le).mono hnew.le
    have hstore := (Extends.refl (L := L) hnew.sound).emit (i := .store a (.vreg s2.regs))
      ⟨ha, hhas⟩ rfl (.effect hL rfl rfl)
    refine .fresh (.emit (.emit (.pure ⟨(h1.next h2).next (hnew.next hstore), ?_⟩)))
    cases after with
    | true => exact hhas.mono hstore.le
    | false => exact (hold.mono hnew.le).mono hstore.le

theorem unaryValue_yields {op : UnOp} (h : Yields env L value Operand.Within) :
    Yields env L (unaryValue op value) Operand.Within := by
  intro P s hs
  refine h.first hs fun v s1 h1 hv => .fresh (h1.andThen (define_sound h1.sound ?_ rfl fun _ => rfl))
  exact ⟨s1.lt_regs_addReg _, hv.mono (s1.le_addReg env _)⟩

theorem notValue_yields (h : Yields env L value Operand.Within) :
    Yields env L (notValue value) Operand.Within := by
  intro P s hs
  refine h.first hs fun v s1 h1 hv => .fresh (h1.andThen (define_sound h1.sound ?_ rfl fun _ => rfl))
  exact ⟨s1.lt_regs_addReg _, hv.mono (s1.le_addReg env _), trivial⟩

theorem Locates.mono {names names' : List String} (h : Locates env L' names' place)
    (hL : ∀ d, L'.Le d L) (hnames : names' ⊆ names) : Locates env L names place := by
  intro P s hs
  refine (h P s hs).mono fun p s' ⟨h, hp, hreg⟩ => ⟨h.mono (hL _), hp, fun r hr => ?_⟩
  obtain ⟨name, hname, hr⟩ := hreg r hr
  exact ⟨name, hnames hname, hr⟩

theorem unaryForms_sound {i : Info} {op : UnaryOp} {c : Forms} (h : c.Sound env e) :
    (unaryForms loc op c).Sound env (.unary i op e) := by
  let L := limitsOf (.unary i op e)
  have hL (ts : List BlockId) (d : Draft) : ((limitsOf e).to ts).Le d (L.to ts) :=
    ⟨fun hq => (Bool.or_eq_false_iff.1 hq).2, subset_append_right _ _, fun _ => .inr⟩
  have hvalue : Yields env L c.value Operand.Within := h.value.mono (hL [])
  have hstep (hop : op.isStep = true) (o : BinOp) (after : Bool) :
      Yields env L (stepValue o after c.place) Operand.Within := by
    have htrue : (op.isStep || e.hasEffects) = true := by rw [hop, Bool.true_or]
    refine stepValue_yields htrue (h.place.mono (hL []) ?_)
    change _ ⊆ (Expr.unary i op e).assigned
    rw [Expr.assigned, hop]
    exact subset_append_left _ _
  cases op with
  | pos => exact .ofValue hvalue
  | neg | bitNot => exact .ofValue (unaryValue_yields hvalue)
  | logicNot =>
    refine ⟨notValue_yields hvalue, fun P s t e hs ht he => ?_, fun _ _ _ => .throw⟩
    refine (h.cond.mono hL P s e t hs he ht).mono fun _ _ h => h.mono ⟨id, List.Subset.refl _, ?_⟩
    exact forall_mem_pair (.inr (by simp)) (.inr (by simp))
  | preInc | preDec | postInc | postDec => exact .ofValue (hstep rfl _ _)

theorem assignValue_yields (hL : L.effects = true) (hp : Locates env L L.names place)
    (hv : Yields env L value Operand.Within) : Yields env L (assignValue place value) Operand.Within := by
  intro P s hs
  refine .bind ((hp P s hs).mono fun p s1 ⟨h1, hp, hreg⟩ => ?_)
  refine hv.after h1 fun v s2 h12 h2 hv => ?_
  have hp := hp.mono h12.le
  cases p with
  | reg r =>
    refine .emit (.pure ⟨h2.emit ⟨hp.1, hv⟩ rfl (.into rfl (fun _ => rfl) rfl (.inr (hreg r rfl))), ?_⟩)
    exact hp.mono (s2.le_emit env h2.sound.current _)
  | mem a =>
    refine .emit (.pure ⟨h2.emit ⟨hp, hv⟩ rfl (.effect hL rfl rfl), ?_⟩)
    exact hv.mono (s2.le_emit env h2.sound.current _)

/-! ## Calls -/

theorem callValue_sound {ty : Ty} {args : List Operand} (hL : L.effects = true) (hs : Sound env P true s)
    (hcallee : callee.Within (s.known env)) (hargs : ∀ v ∈ args, v.Within (s.known env)) :
    Post (callValue ty callee args) s fun v s' =>
      Extends env L P true s s' ∧ v.Within (s'.known env) := by
  unfold callValue
  split
  · refine .emit (.pure ⟨(Extends.refl hs).emit ⟨?_, hcallee, hargs⟩ rfl (.effect hL rfl rfl), trivial⟩)
    exact fun o ho => absurd ho (Option.not_mem_none o)
  · refine .fresh (define_sound hs (callInto_within _ _ hcallee hargs) rfl fun hq => ?_)
    rw [hL] at hq
    cases hq

theorem Post.funcId {α : Type} {key : String} {f : FuncId → Build α} {R : α → Sketch → Prop}
    (h : ∀ id, env.Callable id → Post (f id) s R) : Post (funcId env key loc >>= f) s R := by
  unfold Lowering.funcId
  split
  · next id hid => exact .bind (.pure (h id ⟨key, hid⟩))
  · exact .bind .throw

section Calls

variable {args : List OperandCode} (hL : L.effects = true)
  (hargs : ∀ c ∈ args, Yields env L c.value Operand.Within)

include hL hargs

theorem callWith_yields {ty : Ty} (hs : Sound env P true s) (hcallee : callee.Within (s.known env)) :
    Post (evalOperands args >>= callValue ty callee) s fun v s' =>
      Extends env L P true s s' ∧ v.Within (s'.known env) := by
  refine (evalOperands_yields hargs).first hs fun vs s1 h1 hvs => ?_
  exact h1.andThen (callValue_sound hL h1.sound (hcallee.mono h1.le) hvs)

theorem callFunction_yields (info : Info) (name : String) :
    Yields env L (callFunction env info name args) Operand.Within := by
  intro P s hs
  unfold callFunction
  split
  · split
    · exact .bind (.pure (callWith_yields hL hargs hs trivial))
    · refine .funcId fun id hid => .bind (.pure ?_)
      exact callWith_yields hL hargs hs (show (Callee.func id).Within (s.known env) from hid)
    · exact .bind .throw
  · exact .throw

theorem callNamed_yields (info : Info) (name : String) :
    Yields env L (callNamed env info name args) Operand.Within := by
  intro P s hs
  unfold callNamed
  split
  · next cls obj hself =>
    split
    · refine .funcId fun id hid => (evalOperands_yields hargs).first hs fun vs s1 h1 hvs => ?_
      have hcallee : (Callee.func id).Within (s1.known env) := hid
      refine h1.andThen (callValue_sound hL h1.sound hcallee fun v hv => ?_)
      rcases mem_cons.1 hv with rfl | hv
      · exact h1.sound.names.self cls obj hself
      · exact hvs v hv
    · exact callFunction_yields hL hargs info name P s hs
  · exact callFunction_yields hL hargs info name P s hs

omit hL hargs in
theorem lengthOf_sound (hs : Sound env P true s) (hv : v.Within (s.known env)) :
    Post (lengthOf v) s fun v' s' => Extends env L P true s s' ∧ v'.Within (s'.known env) := by
  refine .bind ((toVReg_sound (L := L) hs hv).mono fun base s1 ⟨h1, hbase⟩ => ?_)
  refine .fresh (h1.andThen (define_sound h1.sound ?_ rfl fun _ => rfl))
  exact ⟨s1.lt_regs_addReg _, hbase.mono (s1.le_addReg env _)⟩

omit hL hargs in
theorem methodCallee?_within {ty : Ty} {method : String}
    (h : methodCallee? env ty method = some callee) : callee.Within (s.known env) := by
  unfold methodCallee? at h
  split at h
  · obtain ⟨b, -, rfl⟩ := Option.map_eq_some_iff.1 h
    trivial
  · obtain ⟨id, hid, rfl⟩ := Option.map_eq_some_iff.1 h
    exact ⟨_, hid⟩
  · cases h

theorem callMethod_yields (info : Info) {receiver : OperandCode} (ty : Ty) (method : String)
    (hr : Yields env L receiver.value Operand.Within) :
    Yields env L (callMethod env info receiver ty method args) Operand.Within := by
  intro P s hs
  refine (evalOperands_yields (forall_mem_cons.2 ⟨hr, hargs⟩)).first hs fun vs s1 h1 hvs => ?_
  split
  · refine h1.andThen (lengthOf_sound h1.sound ?_)
    cases vs with
    | nil => trivial
    | cons v vs => exact hvs v mem_cons_self
  · split
    · next callee hcallee =>
      exact h1.andThen (callValue_sound hL h1.sound (methodCallee?_within hcallee) hvs)
    · exact .throw

end Calls

theorem selfValue_yields (loc : Location) : Yields env L (selfValue env loc) Operand.Within := by
  intro P s hs
  unfold selfValue
  split
  · next cls obj hself => exact .pure ⟨.refl hs, hs.names.self cls obj hself⟩
  · exact .throw

/-! ## Objects and arrays -/

theorem memberPlace_locates (ty : Ty) (field : String) (loc : Location)
    (h : Yields env L value Operand.Within) : Locates env L [] (memberPlace env ty value field loc) := by
  intro P s hs
  have hplace (offset : Word) : Post (do
      let base ← toVReg (← value) "obj"
      return Place.mem (.base (.vreg base) offset)) s fun p s' => Extends env L P true s s' ∧
        p.Within (s'.known env) ∧ ∀ r, p = .reg r → ∃ name ∈ [], s.register? name = some r := by
    refine h.first hs fun v s1 h1 hv => ?_
    refine .bind ((toVReg_sound (L := L) h1.sound hv).mono fun base s2 ⟨h2, hbase⟩ => ?_)
    exact .pure ⟨h1.next h2, hbase, nofun⟩
  unfold memberPlace fieldOffset
  split
  · split
    · exact .bind (.pure (hplace _))
    · exact .bind .throw
  · exact .bind .throw

theorem scaled_sound {a b : Operand} (hint hint' : String) (hs : Sound env P true s)
    (hv : v.Within (s.known env)) (ha : ∀ K, (s.known env).Le K → K.Has s.regs → a.Within K)
    (hb : ∀ K, (s.known env).Le K → K.Has s.regs → b.Within K) :
    let scaled := (s.addReg hint).emit (.binary (.vreg s.regs) .shl v (.imm 3))
    let total := (scaled.addReg hint').emit (.binary (.vreg scaled.regs) .add a b)
    Extends env L P true s total ∧ (total.known env).Has scaled.regs := by
  intro scaled total
  obtain ⟨h1, hreg⟩ := (Extends.refl (L := L) hs).define hint
    (i := .binary (.vreg s.regs) .shl v (.imm 3))
    ⟨s.lt_regs_addReg _, hv.mono (s.le_addReg env _), trivial⟩ rfl fun _ => rfl
  have hle := scaled.le_addReg env hint'
  have hle1 := (h1.addReg hint').le
  exact h1.define hint' ⟨scaled.lt_regs_addReg _, ha _ hle1 (hreg.mono hle),
    hb _ hle1 (hreg.mono hle)⟩ rfl fun _ => rfl

theorem elementPlace_locates {array position : OperandCode} (loc : Location)
    (ha : Yields env L array.value Operand.Within) (hp : Yields env L position.value Operand.Within) :
    Locates env L [] (elementPlace array position loc) := by
  intro P s hs
  refine (evalBoth_yields ha hp).first hs fun vs s1 h1 ⟨hl, hr⟩ => ?_
  refine .bind ((toVReg_sound (L := L) h1.sound hl).mono fun base s2 ⟨h2, hbase⟩ => ?_)
  split
  · split
    · exact .pure ⟨h1.next h2, hbase, nofun⟩
    · exact .throw
  · have h3 := scaled_sound (L := L) (a := .vreg base) (b := .vreg s2.regs) "off" "elem" h2.sound
      (hr.mono h2.le) (fun K hK _ => hbase.mono hK) (fun K _ hreg => hreg)
    exact .fresh (.emit (.fresh (.emit (.pure ⟨(h1.next h2).next h3.1, h3.2, nofun⟩))))

theorem arrayBytes_sound (loc : Location) (hs : Sound env P true s)
    (hlen : len.Within (s.known env)) :
    Post (arrayBytes len loc) s fun v s' =>
      Extends env L P true s s' ∧ v.Within (s'.known env) := by
  unfold arrayBytes
  split
  · split
    · exact .pure ⟨.refl hs, trivial⟩
    · exact .throw
  · have h1 := scaled_sound (L := L) (a := .vreg s.regs) (b := .imm 8) "bytes" "bytes" hs hlen
      (fun K _ hreg => hreg) (fun K _ _ => trivial)
    exact .fresh (.emit (.fresh (.emit (.pure h1))))

section Arrays

variable (hL : L.effects = true)

include hL

theorem allocArray_sound (loc : Location) (hs : Sound env P true s)
    (hlen : len.Within (s.known env)) :
    Post (allocArray len loc) s fun r s' => Extends env L P true s s' ∧ (s'.known env).Has r := by
  refine .bind ((arrayBytes_sound (L := L) loc hs hlen).mono fun bytes s1 ⟨h1, hbytes⟩ => ?_)
  obtain ⟨h2, hreg⟩ := (Extends.refl (L := L) h1.sound).define "array" (callInto_within
    (.builtin .malloc) [bytes] trivial (by simpa using hbytes)) rfl fun _ => rfl
  have hstore := (Extends.refl h2.sound).emit (i := .store (.base (.vreg s1.regs) 0) len)
    ⟨hreg, (hlen.mono h1.le).mono h2.le⟩ rfl (.effect hL rfl rfl)
  exact .fresh (.emit (.emit (.pure ⟨h1.next (h2.next hstore), hreg.mono hstore.le⟩)))

theorem fillArray_sound {array : VReg} {element : Build VReg} (hs : Sound env P true s)
    (harray : (s.known env).Has array) (hlen : len.Within (s.known env))
    (helement : ∀ P s', Sound env P true s' → (s.known env).Le (s'.known env) →
      Post element s' fun r s'' => Extends env L P true s' s'' ∧ (s''.known env).Has r) :
    Post (fillArray array len element) s fun _ s' => Extends env L P true s s' := by
  obtain ⟨h0, hi⟩ := (Extends.refl (L := L) hs).define "i" (i := .move (.vreg s.regs) (.imm 0))
    ⟨s.lt_regs_addReg _, trivial⟩ rfl fun _ => rfl
  refine .fresh (.emit ?_)
  generalize Sketch.emit _ _ = s0 at h0 hi ⊢
  have hs0 := h0.sound
  -- The block of the condition is gone to twice, so all is counted from the sketch that has it.
  refine .newBlock s0.written ?_
  have hc := h0.newBlock "new_cond" s0.written
  have hc' := (Built.refl (k := 0) hs0).newBlock "new_cond" s0.written
  have hcw := s0.written_addBlock hs0.current "new_cond" s0.written
  have hcond := s0.startsAt_addBlock "new_cond" s0.written
  generalize Sketch.addBlock _ _ _ = c at hc hc' hcw hcond ⊢
  have hi := hi.mono hc'.le
  refine .newBlock c.written (.newBlock c.written (.emit (.switchTo ?_)))
  have h1 := ((Built.refl (k := 0) hc.sound).newBlock "new_body" c.written).newBlock "new_end"
    c.written
  have h2 := (h1.jump (h1.enters (.tail _ (.tail _ (.head _))) (hcw.ge.trans h1.written))).switchTo
    [_, _] hc.sound hcw.le
  have h3 := (h2.close (i := .branch .lt (.vreg s.regs) len _ _)
    ⟨hi.mono h2.le, (hlen.mono hc.le).mono h2.le, h2.enters (.tail _ (.head _)) h2.written,
      h2.enters (.head _) h2.written⟩ rfl).switchTo [_] hc.sound subset_rfl
  refine .emit (.switchTo (.bind ((helement _ _ h3.sound (hc.toBuilt.trans h3).le).mono
    fun v s4 ⟨h34, hv⟩ => ?_)))
  have h4 := h3.trans h34.toBuilt
  obtain ⟨h5, haddr⟩ := scaled_sound (L := L) "off" "elem" h34.sound (v := .vreg s.regs)
    (a := .vreg array) (b := .vreg s4.regs) (hi.mono h4.le)
    (fun K hK _ => (harray.mono (hc.toBuilt.trans h4).le).mono hK) (fun K _ hreg => hreg)
  have h6 := h5.emit (i := .store (.base (.vreg _) 8) (.vreg v)) ⟨haddr, hv.mono h5.le⟩ rfl
    (.effect hL rfl rfl)
  have hi6 := (hi.mono h4.le).mono h6.le
  have h7 := h4.trans (h6.toBuilt.emit (i := .binary (.vreg s.regs) .add (.vreg s.regs) (.imm 1))
    ⟨hi6.1, hi6, trivial⟩ rfl)
  have hback := (h7.startsAt hcond).enters (hcw.ge.trans h7.written) env
  have hend := (h7.jump hback).switchTo [] hc.sound subset_rfl
  refine .fresh (.emit (.fresh (.emit (.emit (.emit (.emit
    (.switchLast ⟨hc.toBuilt.trans hend, ?_⟩)))))))
  -- The counter is written in the loop, so what the code may do is counted from the start.
  have hcond : s.Admits L (.jump s0.size) := .jump (.inl h0.size)
  have hhead := (((hc.confines.addBlock "new_body").addBlock "new_end").emit h1.sound.current hcond).goto
    s0.size
  have hbody := (hhead.emit (i := .branch .lt (.vreg s.regs) len _ _) h2.sound.current
    (.branch (.inl hc.size) (.inl (hc.confines.addBlock "new_body").size))).goto c.size
  have hcount := ((hbody.next h34.confines).next h6.confines).emit h6.sound.current
    (i := .binary (.vreg s.regs) .add (.vreg s.regs) (.imm 1))
    (.into rfl (fun _ => rfl) rfl (.inl (Nat.le_refl _)))
  exact (hcount.emit h7.sound.current hcond).goto _

theorem newArray_sound (loc : Location) (rest : List Operand) (hs : Sound env P true s)
    (hlen : len.Within (s.known env)) (hrest : ∀ v ∈ rest, v.Within (s.known env)) :
    Post (newArray loc len rest) s fun r s' => Extends env L P true s s' ∧ (s'.known env).Has r := by
  induction rest generalizing len P s with
  | nil => exact allocArray_sound hL loc hs hlen
  | cons inner rest ih =>
    refine .bind ((allocArray_sound hL loc hs hlen).mono fun array s1 ⟨h1, harray⟩ => ?_)
    refine .bind ((fillArray_sound hL h1.sound harray (hlen.mono h1.le) ?_).mono fun _ s2 h2 => ?_)
    · intro P' s' hs' hle
      have hle := h1.le.trans hle
      exact ih hs' ((hrest inner mem_cons_self).mono hle)
        fun v hv => (hrest v (mem_cons_of_mem _ hv)).mono hle
    · exact .pure ⟨h1.next h2, harray.mono h2.le⟩

theorem newObject_yields (info : Info) : Yields env L (newObject env info) Operand.Within := by
  intro P s hs
  unfold newObject
  split
  · split
    · obtain ⟨h1, hobj⟩ := (Extends.refl (L := L) hs).define "obj" (callInto_within
        (.builtin .malloc) [.imm _] trivial (by simp [Operand.Within])) rfl fun _ => rfl
      refine .fresh (.emit ?_)
      dsimp only
      split
      · refine .funcId fun id hid => .emit (.pure ⟨h1.emit
          ⟨fun o ho => absurd ho (Option.not_mem_none o), hid, forall_mem_singleton.2 hobj⟩ rfl
          (.effect hL rfl rfl), ?_⟩)
        exact hobj.mono (Sketch.le_emit _ env h1.sound.current _)
      · exact .pure ⟨h1, hobj⟩
    · exact .throw
  · exact .throw

theorem createValue_yields (info : Info) {dims : List OperandCode}
    (hdims : ∀ c ∈ dims, Yields env L c.value Operand.Within) :
    Yields env L (createValue env info dims) Operand.Within := by
  intro P s hs
  unfold createValue
  split
  · exact newObject_yields hL info P s hs
  · refine (evalOperands_yields hdims).first hs fun vs s1 h1 hvs => ?_
    split
    · exact h1.andThen (newObject_yields hL info P s1 h1.sound)
    · next len rest =>
      refine .bind ((newArray_sound hL info.loc rest h1.sound (hvs len mem_cons_self)
        fun v hv => hvs v (mem_cons_of_mem _ hv)).mono fun r s2 ⟨h2, hr⟩ => ?_)
      exact .pure ⟨h1.next h2, hr⟩

end Arrays

end Pieces

/-! ## Expressions -/

theorem binaryForms_sound {env : Env} {i : Info} {op : BinaryOp} {lhs rhs : Expr} {l r : Forms}
    (hl : l.Sound env lhs) (hr : r.Sound env rhs) :
    (binaryForms loc op lhs rhs l r).Sound env (.binary i op lhs rhs) := by
  let L := limitsOf (.binary i op lhs rhs)
  have hL (ts : List BlockId) (d : Draft) : ((limitsOf lhs).to ts).Le d (L.to ts) :=
    ⟨fun hq => (Bool.or_eq_false_iff.1 hq).1, subset_append_left _ _, fun _ => .inr⟩
  have hR (ts : List BlockId) (d : Draft) : ((limitsOf rhs).to ts).Le d (L.to ts) :=
    ⟨fun hq => (Bool.or_eq_false_iff.1 hq).2, subset_append_right _ _, fun _ => .inr⟩
  have hvl : Yields env L l.value Operand.Within := hl.value.mono (hL [])
  have hvr : Yields env L r.value Operand.Within := hr.value.mono (hR [])
  unfold binaryForms
  dsimp only
  split
  · exact logicForms_sound (bothCond_branches (hl.cond.mono hL) (hr.cond.mono hR))
  · exact logicForms_sound (eitherCond_branches (hl.cond.mono hL) (hr.cond.mono hR))
  · exact relationForms_sound hvl hvr
  · exact .ofValue (arithValue_yields hvl hvr)

mutual

/-- The code for an expression is sound. It writes new registers and those of the variables that the
expression assigns, and has no effects if the expression has none. -/
theorem lower_sound (env : Env) : ∀ e : Expr, (lower env e).Sound env e
  | .intLit i v => .ofValue (.pure fun _ => trivial)
  | .boolLit i b => by
    refine ⟨.pure fun _ => trivial, fun P s t e hs ht he => ?_, fun _ _ _ => .throw⟩
    cases b with
    | true => exact .emitLast ((Extends.refl hs).jump ht (.inr (by simp)))
    | false => exact .emitLast ((Extends.refl hs).jump he (.inr (by simp)))
  | .strLit i text => .ofValue (literal_yields text)
  | .nullLit i => .ofValue (.pure fun _ => trivial)
  | .self i => .ofValue (selfValue_yields i.loc)
  | .ident i name => .ofPlace (resolve_locates name i.loc)
  | .unary i op operand => unaryForms_sound (lower_sound env operand)
  | .binary i op lhs rhs => binaryForms_sound (lower_sound env lhs) (lower_sound env rhs)
  | .assign i target value => by
    refine .ofValue (assignValue_yields rfl ((lower_sound env target).place.mono (fun _ => ?_) ?_)
      ((lower_sound env value).value.mono fun _ => ?_))
    · exact ⟨nofun, subset_append_of_subset_left _ (subset_append_right _ _), fun _ => .inr⟩
    · exact subset_append_of_subset_left _ (subset_append_left _ _)
    · exact ⟨nofun, subset_append_right _ _, fun _ => .inr⟩
  | .call i name args => .ofValue (callNamed_yields rfl (lowerAll_sound env args) i name)
  | .methodCall i receiver method args => by
    have hargs := lowerAll_sound env args
    refine .ofValue (callMethod_yields rfl (fun c hc => (hargs c hc).mono fun _ => ?_) i receiver.ty
      method ((lower_sound env receiver).value.mono fun _ => ?_))
    · exact ⟨id, subset_append_right _ _, fun _ => .inr⟩
    · exact ⟨nofun, subset_append_left _ _, fun _ => .inr⟩
  | .member i object field =>
    .ofPlace (memberPlace_locates object.ty field i.loc (lower_sound env object).value)
  | .index i array position => by
    refine .ofPlace (elementPlace_locates i.loc ((lower_sound env array).value.mono fun _ => ?_)
      ((lower_sound env position).value.mono fun _ => ?_))
    · exact ⟨fun hq => (Bool.or_eq_false_iff.1 hq).1, subset_append_left _ _, fun _ => .inr⟩
    · exact ⟨fun hq => (Bool.or_eq_false_iff.1 hq).2, subset_append_right _ _, fun _ => .inr⟩
  | .create i dims => .ofValue (createValue_yields rfl i (lowerAll_sound env dims))

theorem lowerAll_sound (env : Env) : ∀ es : List Expr, ∀ c ∈ lowerAll env es,
    Yields env ⟨true, Expr.assignedAll es, []⟩ c.value Operand.Within
  | [] => by simp [lowerAll]
  | e :: es => by
    rw [lowerAll, forall_mem_cons]
    refine ⟨(lower_sound env e).value.mono fun _ => ?_, fun c hc => ?_⟩
    · exact ⟨nofun, subset_append_left _ _, fun _ => .inr⟩
    · exact (lowerAll_sound env es c hc).mono fun _ => ⟨id, subset_append_right _ _, fun _ => .inr⟩

end

end MxStar.Lowering
