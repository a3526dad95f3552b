import MxStar.Lowering.Stmt
import MxStar.Proofs.LoweredExpressions

/-!
The code for a statement is sound.

`Builds env k x` says that a step of construction keeps a sketch sound, leaves a block open, and
changes at most the innermost `k` scopes. A body with a scope of its own leaves all scopes as they were.
-/
namespace MxStar.Lowering

open MxStar.Tree IR List

variable {body x : Build Unit} {cond : BlockId → BlockId → Build Unit} {α : Type}

/-- The step keeps sketches sound and a block open, and changes at most the innermost `k` scopes. -/
def Builds (env : Env) (k : Nat) (x : Build Unit) : Prop :=
  ∀ P s, Sound env P true s → Post x s fun _ s' => Built env k P true s s'

def Tests (env : Env) (cond : BlockId → BlockId → Build Unit) : Prop :=
  ∀ P s t e, Sound env P true s → (s.known env).Enters t → (s.known env).Enters e →
    Post (cond t e) s fun _ s' => Built env 0 P false s s'

/-! ## Scopes and loops -/

def Sketch.withNames (s : Sketch) (locals : List (Table VReg)) (loops : List LoopTargets) : Sketch :=
  { s with locals := locals, loops := loops }

section Names

variable {env : Env} {k : Nat} {P : Pending} {o : Bool} {s s' : Sketch}

theorem Sound.withNames (h : Sound env P o s) {locals : List (Table VReg)}
    {loops : List LoopTargets}
    (hlocals : ∀ scope ∈ locals, ∀ v ∈ scope.values, (s.known env).Has v)
    (hloops : ∀ l ∈ loops, (s.known env).Enters l.leave ∧ (s.known env).Enters l.next) :
    Sound env P o (s.withNames locals loops) :=
  { h with names := ⟨h.names.self, h.names.globals, hlocals, hloops⟩ }

/-- Names do not matter to the code, so that they may be changed before and after it is added. -/
theorem Grows.renamed {m : Nat} {l l' : List (Table VReg)} {r r' : List LoopTargets}
    (h : Grows k (s.withNames l r) s') (hl : l'.drop m = s.locals.drop m) (hr : r' = s.loops) :
    Grows m s (s'.withNames l' r') :=
  { h with locals := hl, loops := hr }

theorem mem_values_insert {t : Table α} {name : String} {a b : α}
    (h : b ∈ (t.insert name a).values) : b = a ∨ b ∈ t.values := by
  rcases mem_cons.1 h with rfl | h
  · exact .inl rfl
  · obtain ⟨entry, hentry, rfl⟩ := mem_map.1 h
    exact .inr (mem_map.2 ⟨entry, (List.mem_filter.1 hentry).1, rfl⟩)

theorem declareLocal_sound (name : String) {v : VReg} (h : Built env 1 P o s s')
    (hv : (s'.known env).Has v) :
    Post (declareLocal name v) s' fun _ s'' => Built env 1 P o s s'' := by
  cases hl : s'.locals with
  | nil =>
    refine .modify s' ?_ h
    rw [Draft.declareLocal, hl]
  | cons top rest =>
    refine .modify (s'.withNames (top.insert name v :: rest) s'.loops) ?_ ⟨?_, h.written, ?_⟩
    · rw [Draft.declareLocal, hl]
      rfl
    · have hdrop := h.locals
      rw [hl] at hdrop
      exact Grows.renamed (l := s.locals) (r := s.loops) h.toGrows hdrop h.loops
    · refine h.sound.withNames (fun scope hscope w hw => ?_) h.sound.names.loops
      have hlocals := h.sound.names.locals
      rw [hl] at hlocals
      rcases mem_cons.1 hscope with rfl | hscope
      · rcases mem_values_insert hw with rfl | hw
        · exact hv
        · exact hlocals top mem_cons_self w hw
      · exact hlocals scope (mem_cons_of_mem _ hscope) w hw

/-- What is declared in a scope of its own is gone after it. -/
theorem inScope_builds (h : Builds env 1 body) : Builds env 0 (inScope body) := by
  intro P s hs
  have hopen : Sound env P true (s.withNames ({} :: s.locals) s.loops) := by
    refine hs.withNames (fun scope hscope v hv => ?_) hs.names.loops
    rcases mem_cons.1 hscope with rfl | hscope
    · cases hv
    · exact hs.names.locals scope hscope v hv
  refine .bind (.modify _ rfl (.bind ((h P _ hopen).mono fun _ s1 h1 => ?_)))
  refine .modify (s1.withNames s1.locals.tail s1.loops) rfl ⟨?_, h1.written, ?_⟩
  · have htail : s1.locals.tail = s.locals := (drop_one ..).symm.trans h1.locals
    exact h1.toGrows.renamed htail h1.loops
  · refine h1.sound.withNames (fun scope hscope => ?_) h1.sound.names.loops
    exact h1.sound.names.locals scope (mem_of_mem_tail hscope)

/-- In the body of a loop there is one more loop to leave. -/
theorem inLoop_sound (hbody : Builds env 1 body) {targets : LoopTargets} (hs : Sound env P true s)
    (hleave : (s.known env).Enters targets.leave) (hnext : (s.known env).Enters targets.next) :
    Post (inLoop targets body) s fun _ s' => Built env 0 P true s s' := by
  have hin : Sound env P true (s.withNames s.locals (targets :: s.loops)) := by
    refine hs.withNames hs.names.locals fun l hl => ?_
    rcases mem_cons.1 hl with rfl | hl
    · exact ⟨hleave, hnext⟩
    · exact hs.names.loops l hl
  refine .bind (.modify _ rfl (.bind ((inScope_builds hbody P _ hin).mono fun _ s1 h1 => ?_)))
  refine .modify (s1.withNames s1.locals s1.loops.tail) rfl ⟨?_, h1.written, ?_⟩
  · exact h1.toGrows.renamed h1.locals (congrArg List.tail h1.loops)
  · refine h1.sound.withNames h1.sound.names.locals fun l hl => ?_
    exact h1.sound.names.loops l (mem_of_mem_tail hl)

end Names

section Statements

variable {env : Env} {k : Nat} {P : Pending} {s s1 : Sketch}

/-! ## Sequences -/

theorem Builds.pure : Builds env k (pure ()) := fun _ _ hs => .pure (.refl hs)

theorem Builds.scopes (h : Builds env 0 x) : Builds env k x :=
  fun P s hs => (h P s hs).mono fun _ _ h => h.scopes

theorem Builds.after {f : Unit → Build α} {R : α → Sketch → Prop} (hx : Builds env k x)
    (h : Built env k P true s s1) (hf : ∀ s2, Built env k P true s s2 → Post (f ()) s2 R) :
    Post (x >>= f) s1 R :=
  .bind ((hx P s1 h.sound).mono fun _ s2 h2 => hf s2 (h.trans h2))

theorem Builds.seq {y : Build Unit} (hx : Builds env k x) (hy : Builds env k y) :
    Builds env k (do x; y) :=
  fun P _ hs => hx.after (.refl hs) fun s1 h1 => (hy P s1 h1.sound).mono fun _ _ h2 => h1.trans h2

theorem Builds.forM {f : α → Build Unit} (h : ∀ a, Builds env k (f a)) (as : List α) :
    Builds env k (as.forM f) := by
  induction as with
  | nil => exact .pure
  | cons a as ih => exact (h a).seq ih

theorem lowerCond_tests (env : Env) (e : Expr) : Tests env (lower env e).cond :=
  fun P s t f hs ht hf => ((lower_sound env e).cond P s t f hs ht hf).mono fun _ _ h => h.toBuilt

/-- What comes after a test goes on in another block. -/
theorem Tests.after {f : Unit → Build α} {t e : BlockId} {R : α → Sketch → Prop}
    (hc : Tests env cond) (h : Built env k P true s s1) (ht : (s1.known env).Enters t)
    (he : (s1.known env).Enters e) (hf : ∀ s2, Built env k P false s s2 → Post (f ()) s2 R) :
    Post (cond t e >>= f) s1 R :=
  .bind ((hc P s1 t e h.sound ht he).mono fun _ s2 h2 => hf s2 (h.trans h2.scopes))

theorem lowerVar_builds (decl : VarDecl) : Builds env 1 (lowerVar env decl) := by
  intro P s hs
  have hdeclare : ∀ v s1, Built env 0 P true s s1 → v.Within (s1.known env) →
      Post (do let r ← fresh decl.name; emit (.move (.vreg r) v); declareLocal decl.name r) s1
        fun _ s' => Built env 1 P true s s' := by
    intro v s1 h1 hv
    obtain ⟨h2, hreg⟩ := h1.scopes.define decl.name (i := .move (.vreg s1.regs) v)
      ⟨s1.lt_regs_addReg _, hv.mono (s1.le_addReg env _)⟩ rfl rfl
    exact .fresh (.emit (declareLocal_sound decl.name h2 hreg))
  unfold lowerVar
  split
  · exact (lower_sound env _).value.first hs fun v s1 h1 => hdeclare v s1 h1.toBuilt
  · exact .bind (.pure (hdeclare (.imm 0) s (.refl hs) trivial))

theorem lowerEffect_builds (e : Expr) : Builds env 0 (lowerEffect env e) :=
  fun P s hs => .discard (((lower_sound env e).value P s hs).mono fun _ _ h => h.1.toBuilt)

theorem lowerInit_builds (init : Option ForInit) : Builds env 1 (lowerInit env init) := by
  rcases init with - | ds | e
  · exact .pure
  · exact .forM lowerVar_builds ds
  · exact (lowerEffect_builds e).scopes

theorem lowerTest_tests (cond : Option Expr) : Tests env (lowerTest env cond) := by
  cases cond with
  | none => exact fun P s t e hs ht he => .emitLast ((Built.refl hs).jump ht)
  | some c => exact lowerCond_tests env c

theorem lowerStep_builds (step : Option Expr) : Builds env 0 (lowerStep env step) := by
  cases step with
  | none => exact .pure
  | some e => exact lowerEffect_builds e

/-! ## Jumps -/

theorem startDead_sound (h : Built env k P false s s1) :
    Post startDead s1 fun _ s' => Built env k P true s s' :=
  .newBlock Set.univ (.switchLast (h.startDead "dead"))

theorem loopJump_builds (kind : LoopJump) (loc : Location) : Builds env k (loopJump kind loc) := by
  intro P s hs
  refine .get ?_
  split
  · exact .throw
  · next targets rest hloops =>
    have htargets := hs.names.loops targets (hloops ▸ mem_cons_self)
    refine .emit (startDead_sound ((Built.refl hs).jump ?_))
    cases kind with
    | leave => exact htargets.1
    | next => exact htargets.2

theorem lowerReturn_builds (value : Option Expr) : Builds env k (lowerReturn env value) := by
  intro P s hs
  have hret : ∀ v s1, Built env 0 P true s s1 → (∀ o ∈ v, o.Within (s1.known env)) →
      Post (do emit (.ret v); startDead) s1 fun _ s' => Built env k P true s s' :=
    fun v s1 h1 hv => .emit (startDead_sound (h1.scopes.close (i := .ret v) hv rfl))
  unfold lowerReturn
  split
  · exact .bind (.pure (hret none s (.refl hs) (by simp)))
  · next e =>
    refine (lower_sound env e).value.first hs fun v s1 h1 hv => .bind (.pure (hret _ s1 h1.toBuilt ?_))
    split
    · simp
    · simpa using hv

/-! ## Choices and loops -/

/-- A branch of a choice is built in a pending block, and goes on where the choice ends. -/
theorem arm_sound {f : Unit → Build α} {R : α → Sketch → Prop} {P' : Pending} {o : Bool}
    {b last : BlockId} (l : Pending) (hbody : Builds env 1 body) (hs : Sound env P' o s)
    (h : Built env 0 (l ++ (b, s.written) :: P) false s s1) (hlast : (last, s.written) ∈ l ++ P)
    (hf : ∀ s2, Built env 0 (l ++ P) false s s2 → Post (f ()) s2 R) :
    Post (do switchTo b; inScope body; jump last; f ()) s1 R := by
  refine .switchTo ((inScope_builds hbody).after (h.switchTo l hs subset_rfl) fun s2 h2 => ?_)
  exact .emit (hf _ (h2.jump (h2.enters hlast h2.written)))

theorem lowerChoice_builds {thenBody : Build Unit} {elseBody : Option (Build Unit)}
    (hc : Tests env cond) (ht : Builds env 1 thenBody)
    (he : ∀ body ∈ elseBody, Builds env 1 body) :
    Builds env 0 (lowerChoice cond thenBody elseBody) := by
  intro P s hs
  cases elseBody with
  | none =>
    refine .newBlock s.written (.bind (.pure (.newBlock s.written ?_)))
    have h0 := ((Built.refl (k := 0) hs).newBlock "if_then" s.written).newBlock "if_end" s.written
    refine hc.after h0 (h0.enters (.tail _ (.head _)) h0.written) (h0.enters (.head _) h0.written)
      fun s1 h1 => ?_
    refine arm_sound (f := fun _ => switchTo _) [_] ht hs h1 (.head _) fun s2 h2 => ?_
    exact .switchLast (h2.switchTo [] hs subset_rfl)
  | some elseBody =>
    refine .newBlock s.written (.newBlock s.written (.bind (.pure (.newBlock s.written ?_))))
    have h0 := (((Built.refl (k := 0) hs).newBlock "if_then" s.written).newBlock "if_else"
      s.written).newBlock "if_end" s.written
    refine hc.after h0 (h0.enters (.tail _ (.tail _ (.head _))) h0.written)
      (h0.enters (.tail _ (.head _)) h0.written) fun s1 h1 => ?_
    refine arm_sound (f := fun _ => do switchTo _; inScope elseBody; jump _; switchTo _) [_, _] ht hs
      h1 (.head _) fun s2 h2 => ?_
    refine arm_sound (f := fun _ => switchTo _) [_] (he elseBody rfl) hs h2 (.head _) fun s3 h3 => ?_
    exact .switchLast (h3.switchTo [] hs subset_rfl)

theorem lowerWhile_builds (hcond : Tests env cond) (hbody : Builds env 1 body) :
    Builds env 0 (lowerWhile cond body) := by
  intro P s hs
  -- The block of the condition is gone to twice, so all is counted from the sketch that has it.
  refine .newBlock s.written ?_
  have hc := (Built.refl (k := 0) hs).newBlock "while_cond" s.written
  have hcw := s.written_addBlock hs.current "while_cond" s.written
  have hstarts := s.startsAt_addBlock "while_cond" s.written
  generalize Sketch.addBlock _ _ _ = c at hc hcw hstarts ⊢
  refine .newBlock c.written (.newBlock c.written (.emit (.switchTo ?_)))
  have h1 := ((Built.refl (k := 0) hc.sound).newBlock "while_body" c.written).newBlock "while_end"
    c.written
  have h2 := (h1.jump (h1.enters (.tail _ (.tail _ (.head _))) (hcw.ge.trans h1.written))).switchTo
    [_, _] hc.sound hcw.le
  refine hcond.after h2 (h2.enters (.tail _ (.head _)) h2.written)
    (h2.enters (.head _) h2.written) fun s3 h3 => .switchTo ?_
  have h4 := h3.switchTo [_] hc.sound subset_rfl
  have hback := (h4.startsAt hstarts).enters (hcw.ge.trans h4.written) env
  refine .bind ((inLoop_sound hbody h4.sound (h4.enters (.head _) h4.written) hback).mono
    fun _ s5 h45 => .emit (.switchLast ?_))
  have h5 := h4.trans h45
  exact hc.trans ((h5.jump (hback.mono h45.le)).switchTo [] hc.sound subset_rfl)

theorem lowerFor_builds {init : Build Unit} {step : Build Unit} (hinit : Builds env 1 init)
    (hcond : Tests env cond) (hstep : Builds env 0 step) (hbody : Builds env 1 body) :
    Builds env 0 (lowerFor init cond step body) := by
  refine inScope_builds fun P s' hs' => hinit.after (.refl hs') fun s h => ?_
  have hs := h.sound
  refine .newBlock s.written ?_
  have hc := (Built.refl (k := 0) hs).newBlock "for_cond" s.written
  have hcw := s.written_addBlock hs.current "for_cond" s.written
  have hstarts := s.startsAt_addBlock "for_cond" s.written
  generalize Sketch.addBlock _ _ _ = c at hc hcw hstarts ⊢
  refine .newBlock c.written (.newBlock c.written (.newBlock c.written (.emit (.switchTo ?_))))
  have h1 := (((Built.refl (k := 0) hc.sound).newBlock "for_body" c.written).newBlock "for_step"
    c.written).newBlock "for_end" c.written
  have h2 := (h1.jump (h1.enters (.tail _ (.tail _ (.tail _ (.head _))))
    (hcw.ge.trans h1.written))).switchTo [_, _, _] hc.sound hcw.le
  refine hcond.after h2 (h2.enters (.tail _ (.tail _ (.head _))) h2.written)
    (h2.enters (.head _) h2.written) fun s3 h3 => .switchTo ?_
  have h4 := h3.switchTo [_, _] hc.sound subset_rfl
  refine .bind ((inLoop_sound hbody h4.sound (h4.enters (.head _) h4.written)
    (h4.enters (.tail _ (.head _)) h4.written)).mono fun _ s5 h45 => .emit (.switchTo ?_))
  have h5 := h4.trans h45
  have h6 := (h5.jump (h5.enters (.tail _ (.head _)) h5.written)).switchTo [_] hc.sound subset_rfl
  refine hstep.after h6 fun s7 h7 => .emit (.switchLast ?_)
  have hback := (h7.startsAt hstarts).enters (hcw.ge.trans h7.written) env
  exact h.trans (hc.trans ((h7.jump hback).switchTo [] hc.sound subset_rfl)).scopes

end Statements

/-! ## Statements -/

mutual

/-- The code for a statement is sound, and declares variables in the innermost scope alone. -/
theorem lowerStmt_builds (env : Env) : ∀ stmt : Stmt, Builds env 1 (lowerStmt env stmt)
  | .block body => (inScope_builds (lowerStmts_builds env body)).scopes
  | .varDecl decl => lowerVar_builds decl
  | .expr e => (lowerEffect_builds e).scopes
  | .branch cond t none =>
    (lowerChoice_builds (lowerCond_tests env cond) (lowerStmt_builds env t) (by simp)).scopes
  | .branch cond t (some e) =>
    (lowerChoice_builds (lowerCond_tests env cond) (lowerStmt_builds env t)
      (by simpa using lowerStmt_builds env e)).scopes
  | .whileLoop cond body =>
    (lowerWhile_builds (lowerCond_tests env cond) (lowerStmt_builds env body)).scopes
  | .forLoop init cond step body =>
    (lowerFor_builds (lowerInit_builds init) (lowerTest_tests cond) (lowerStep_builds step)
      (lowerStmt_builds env body)).scopes
  | .breakLoop loc => loopJump_builds .leave loc
  | .continueLoop loc => loopJump_builds .next loc
  | .giveBack value _ => lowerReturn_builds value
  | .empty => .pure

theorem lowerStmts_builds (env : Env) : ∀ stmts : List Stmt, Builds env 1 (lowerStmts env stmts)
  | [] => .pure
  | stmt :: rest => (lowerStmt_builds env stmt).seq (lowerStmts_builds env rest)

end

end MxStar.Lowering
