import MxStar.Proofs.ChosenInstrs
import MxStar.Proofs.FrameOmission
import MxStar.Proofs.StackBalance

/-!
Cleaning up keeps what a routine does.

Each stage of `cleanRoutine` improves the code, or, for the frame, simulates it where nothing is pushed and
the word of the saved frame pointer is not accessed. Each leaves a routine `Orderly`, as those are in which
no label stands twice (`orderly_routine`). Two programs show what the conditions are for (`clean_differs`).
-/
namespace MxStar.Asm

open List

open IR (Word PhysReg Func)
open Interp (Store Apart distance)

variable {i j : Instr} {back body : List Line} {env : Env} {syms : Symbols} {f : Func} {x : Routine}

/-! ## Moves -/

theorem changeSound_inverseMove {s s' : State} (h : exec env i s = some s') :
    ChangeSound env inverseMove i s' := by
  constructor
  · intro j hc
    unfold inverseMove at hc
    split at hc
    · next a b c d =>
      split at hc
      · next hsame =>
        obtain ⟨rfl, rfl⟩ : a = d ∧ b = c := by simpa using hsame
        cases h
        refine ⟨rfl, congrArg some ?_⟩
        -- Both registers hold the same word now.
        show (s.set a (s.regs b)).set b ((s.set a (s.regs b)).regs a) = s.set a (s.regs b)
        have hb : (s.set a (s.regs b)).regs a = (s.set a (s.regs b)).regs b := by
          by_cases hab : b = a
          · rw [hab]
          · rw [State.regs_set, State.regs_set_of_ne _ _ hab]
        rw [hb, State.set_self]
      · cases hc
    · cases hc
  · intro j k hc
    unfold inverseMove at hc
    split at hc
    · split at hc <;> cases hc
    · cases hc

theorem Mem.address_store (env : Env) (s : State) (m : Mem) (a w : Word) :
    m.address env (s.store a w) = m.address env s := by
  cases m <;> rfl

theorem Mem.address_set {s : State} {m : Mem} {r : PhysReg} (hm : m.uses r = false) (w : Word) :
    m.address env (s.set r w) = m.address env s := by
  cases m with
  | base b disp => exact congrArg (· + disp) (State.regs_set_of_ne _ _ (of_decide_eq_false hm))
  | label => rfl

/-- After a store the word is read back, and after a load it is there. -/
theorem changeSound_storeReload {s s' : State} (h : exec env i s = some s') :
    ChangeSound env storeReload i s' := by
  constructor
  · intro j hc
    unfold storeReload at hc
    split at hc
    · next m r d n =>
      split at hc
      · next hsame =>
        obtain ⟨rfl, -⟩ : m = n ∧ m.uses r = false := by simpa using hsame
        split at hc
        · next hr =>
          subst hr
          cases h
          refine ⟨rfl, congrArg some ?_⟩
          show State.set _ r (Store.read _ (m.address env _)) = _
          rw [Mem.address_store, State.memory_store, Store.read_write]
          exact State.set_self _ r
        · cases hc
      · cases hc
    · next r m n d =>
      split at hc
      · next hsame =>
        obtain ⟨⟨rfl, rfl⟩, hm⟩ : (m = n ∧ r = d) ∧ m.uses r = false := by simpa using hsame
        cases h
        refine ⟨rfl, congrArg some ?_⟩
        show State.store _ (m.address env _) ((s.set r (s.memory.read (m.address env s))).regs r) = _
        rw [Mem.address_set hm, State.regs_set, State.store, State.memory_set, Store.write_read]
        rfl
      · cases hc
    · cases hc
  · intro j k hc
    unfold storeReload at hc
    split at hc
    · next m r d n =>
      split at hc
      · next hsame =>
        obtain ⟨rfl, -⟩ : m = n ∧ m.uses r = false := by simpa using hsame
        split at hc
        · cases hc
        · cases hc
          cases h
          refine ⟨rfl, rfl, congrArg some ?_, nil_subset _⟩
          show State.set _ d _ = State.set _ d (Store.read _ (m.address env _))
          rw [Mem.address_store, State.memory_store, Store.read_write]
          rfl
      · cases hc
    · split at hc <;> cases hc
    · cases hc

/-- A rule leaves out moves alone, and replaces them only by other moves to the same register. -/
structure ChangesMoves (change : Instr → Instr → Change) : Prop where
  keep : ∀ i j, i.isStraight = false → change i j = .keep
  drop : ∀ i j, change i j = .drop → ∃ d s, j = .mov d s
  replace : ∀ i j k, change i j = .replace k →
    ∃ (d s : PhysReg) (a : Arg), d ≠ s ∧ j = .mov (.reg d) a ∧ k = .mov (.reg d) (.reg s)

theorem changesMoves_inverseMove : ChangesMoves inverseMove := by
  constructor <;> intro i j <;> unfold inverseMove <;> split <;> grind [Instr.isStraight]

theorem changesMoves_storeReload : ChangesMoves storeReload := by
  constructor <;> intro i j <;> unfold storeReload <;> split <;> grind [Instr.isStraight]

/-! ## Bodies -/

theorem Thinned.filter {P : Line → List Line → Prop} {keep : Line → Bool}
    (hkeep : ∀ a, keep a = false → ∀ rest, P a rest) (body back : List Line) :
    Thinned P (body ++ back) (body.filter keep ++ back) := by
  induction body with
  | nil => exact .refl P back
  | cons a body ih =>
    rw [filter_cons]
    split
    · exact .keep a ih
    · next ha => exact .drop (hkeep a (Bool.eq_false_iff.2 ha) _) ih

theorem jumpsToNext_eq_true {a : Line} {next : Option Line} (h : jumpsToNext a next = true) :
    ∃ name comment, a = .instr (.jmp name) comment ∧ next = some (.label name) := by
  unfold jumpsToNext at h
  split at h
  · next target name htarget =>
    cases of_decide_eq_true h
    cases a with
    | label => cases htarget
    | instr i comment =>
      cases i with
      | jmp =>
        cases htarget
        exact ⟨_, _, rfl, rfl⟩
      | _ => cases htarget
  · cases h

theorem thinned_dropJumps (body back : List Line) :
    Thinned (fun a rest => jumpsToNext a rest.head? = true) (body ++ back)
      (dropJumps body ++ back) := by
  induction body with
  | nil => exact .refl _ back
  | cons a body ih =>
    rw [dropJumps]
    split
    · next ha =>
      refine .drop ?_ ih
      obtain ⟨name, _, _, hhead⟩ := jumpsToNext_eq_true ha
      have hnext : (body ++ back).head? = body.head? := by rw [head?_append, hhead]; rfl
      show jumpsToNext a (body ++ back).head? = true
      rw [hnext, ha]
    · exact .keep a ih

/-- A body has the labels of another, and no instructions that the other does not have, apart from
moves from one register to another. -/
structure Within (body body' : List Line) : Prop where
  labels : body'.filterMap Line.label? = body.filterMap Line.label?
  instrs : ∀ i ∈ instrsOf body',
    i ∈ instrsOf body ∨ ∃ d s : PhysReg, d ≠ s ∧ i = .mov (.reg d) (.reg s)

namespace Within

variable {body body' body'' : List Line}

theorem refl (body : List Line) : Within body body := ⟨rfl, fun _ h => .inl h⟩

theorem trans (h : Within body body') (h' : Within body' body'') : Within body body'' where
  labels := h'.labels.trans h.labels
  instrs := by
    intro i hi
    rcases h'.instrs i hi with hi | hmov
    · exact h.instrs i hi
    · exact .inr hmov

theorem cons (h : Within body body') (a : Line) : Within (a :: body) (a :: body') where
  labels := by rw [filterMap_cons, filterMap_cons, h.labels]
  instrs := by
    intro i hi
    obtain ⟨comment, hmem⟩ := mem_instrsOf.1 hi
    rcases mem_cons.1 hmem with rfl | hmem
    · exact .inl (mem_instrsOf.2 ⟨comment, mem_cons_self⟩)
    · refine (h.instrs i (mem_instrsOf.2 ⟨comment, hmem⟩)).imp_left fun hi => ?_
      obtain ⟨comment, hmem⟩ := mem_instrsOf.1 hi
      exact mem_instrsOf.2 ⟨comment, mem_cons_of_mem _ hmem⟩

theorem drop (h : Within body body') (i : Instr) (comment : Option String) :
    Within (.instr i comment :: body) body' where
  labels := h.labels
  instrs := fun j hj => (h.instrs j hj).imp_left (mem_cons_of_mem i)

theorem replace (h : Within body body') (i : Instr) (comment : Option String) {d s : PhysReg}
    (hne : d ≠ s) : Within (.instr i comment :: body) (plain (.mov (.reg d) (.reg s)) :: body') where
  labels := h.labels
  instrs := by
    intro j hj
    rcases mem_cons.1 hj with rfl | hj
    · exact .inr ⟨d, s, hne, rfl⟩
    · exact (h.instrs j hj).imp_left (mem_cons_of_mem i)

theorem of_thinned {P : Line → List Line → Prop} (hP : ∀ name rest, ¬P (.label name) rest)
    (h : Thinned P body body') : Within body body' := by
  induction h with
  | nil => exact refl []
  | keep a _ ih => exact ih.cons a
  | @drop _ _ a ha _ ih =>
    cases a with
    | label name => exact absurd ha (hP name _)
    | instr i comment => exact ih.drop i comment

theorem changePairs {change : Instr → Instr → Change} (hchange : ChangesMoves change)
    (body : List Line) : Within body (changePairs change body) := by
  have htidied := Tidied.of_changePairs change body [] none
  rw [append_nil, append_nil] at htidied
  generalize Asm.changePairs change body = body', none = before at htidied
  induction htidied with
  | nil => exact refl []
  | keep a _ ih => exact ih.cons a
  | drop _ _ ih => exact ih.drop _ _
  | replace hc _ ih =>
    obtain ⟨d, s, -, hne, -, rfl⟩ := hchange.replace _ _ _ hc
    exact ih.replace _ _ hne

theorem cleanMoves (body : List Line) : Within body (cleanMoves body) := by
  have hself : Thinned (fun a _ => a.instr?.any isSelfMove = true) (body ++ [])
    (body.filter (fun a => !a.instr?.any isSelfMove) ++ []) := .filter (by simp) body []
  rw [append_nil, append_nil] at hself
  exact ((of_thinned (by simp [Line.instr?]) hself).trans
    (changePairs changesMoves_inverseMove _)).trans (changePairs changesMoves_storeReload _)

end Within

theorem within_dropJumps (body : List Line) : Within body (dropJumps body) := by
  have hthinned := thinned_dropJumps body []
  rw [append_nil, append_nil] at hthinned
  refine .of_thinned (fun name rest h => ?_) hthinned
  obtain ⟨_, _, h, -⟩ := jumpsToNext_eq_true h
  cases h

theorem within_dropLast {next : Option Line} (h : body.getLast?.any (jumpsToNext · next) = true) :
    Within body body.dropLast := by
  induction body with
  | nil => exact .refl []
  | cons a rest ih =>
    cases rest with
    | nil =>
      obtain ⟨name, comment, rfl, -⟩ := jumpsToNext_eq_true (by simpa using h)
      exact (Within.refl []).drop _ comment
    | cons b rest =>
      rw [dropLast_cons_cons]
      exact (ih (by simpa using h)).cons a

theorem within_fallThrough (r : Routine) : Within r.body (fallThrough r).body := by
  rw [fallThrough]
  dsimp only
  split
  · next hlast => exact (within_dropJumps r.body).trans (within_dropLast hlast)
  · exact within_dropJumps r.body

/-! ## Stages -/

theorem improves_selfMoves (env : Env) (front body back : List Line) :
    Improves env (front ++ (body ++ back))
      (front ++ (body.filter (fun a => !a.instr?.any isSelfMove) ++ back)) := by
  refine improves_thinned (P := fun a _ => a.instr?.any isSelfMove = true)
    ((Thinned.filter (by simp) body back).prepend front) ?_ ?_
  · intro a rest s ha _
    cases a with
    | label => cases ha
    | instr i comment =>
      have hi : isSelfMove i = true := ha
      unfold isSelfMove at hi
      split at hi
      · cases of_decide_eq_true hi
        refine ⟨[], ?_⟩
        show Advance.goes _ _ (State.set s _ (s.regs _)) _ = _
        rw [State.set_self]
        rfl
      · cases hi
  · intro _ _ name _ rest h
    cases h

theorem improves_cleanMoves (env : Env) (front body back : List Line) :
    Improves env (front ++ (body ++ back)) (front ++ (cleanMoves body ++ back)) := by
  refine ((improves_selfMoves env front body back).trans (improves_tidied
    (.prepend (.of_changePairs inverseMove _ back) front none)
      (fun _ _ _ => changeSound_inverseMove) changesMoves_inverseMove.keep)).trans ?_
  exact improves_tidied (.prepend (.of_changePairs storeReload _ back) front none)
    (fun _ _ _ => changeSound_storeReload) changesMoves_storeReload.keep

theorem step_jumpsToNext {code rest : List Line} {a : Line} (hd : LabelsDistinct code)
    (ha : jumpsToNext a rest.head? = true) (hsuffix : a :: rest <:+ code) (s : State) :
    step env code s (a :: rest) = .goes [] [] s rest := by
  obtain ⟨name, comment, rfl, hhead⟩ := jumpsToNext_eq_true ha
  obtain ⟨rest, rfl⟩ := head?_eq_some_iff.1 hhead
  have hfound := linesFrom_of_suffix hd ((suffix_cons _ _).trans hsuffix)
  show jumpTo code s name = _
  rw [jumpTo, hfound]

theorem improves_of_jumpsToNext {code code' : List Line} (hd : LabelsDistinct code)
    (h : Thinned (fun a rest => jumpsToNext a rest.head? = true) code code') :
    Improves env code code' := by
  refine improves_thinned h (fun a rest s ha hsuffix =>
    ⟨[], step_jumpsToNext hd ha hsuffix s⟩) ?_
  intro _ _ name _ rest h
  obtain ⟨_, _, h, _⟩ := jumpsToNext_eq_true h
  cases h

theorem thinned_dropLast (h : body.getLast?.any (jumpsToNext · back.head?) = true) :
    Thinned (fun a rest => jumpsToNext a rest.head? = true) (body ++ back)
      (body.dropLast ++ back) := by
  induction body with
  | nil => exact .refl _ back
  | cons a rest ih =>
    cases rest with
    | nil => exact .drop (by simpa using h) (.refl _ back)
    | cons b rest =>
      rw [dropLast_cons_cons]
      exact .keep a (ih (by simpa using h))

/-- Labels that are the same up to the order of other lines are still distinct. -/
theorem LabelsDistinct.within {front body' : List Line}
    (hd : LabelsDistinct (front ++ (body ++ back))) (h : Within body body') :
    LabelsDistinct (front ++ (body' ++ back)) := by
  rw [LabelsDistinct, filterMap_append, filterMap_append] at hd ⊢
  rwa [h.labels]

theorem improves_fallThrough (env : Env) {r : Routine} (hd : LabelsDistinct r.code) :
    Improves env r.code (fallThrough r).code := by
  rw [Routine.code, append_assoc] at hd
  have hfirst : Improves env _ _ := improves_of_jumpsToNext hd
    ((thinned_dropJumps r.body r.epilogue).prepend r.prologue)
  rw [fallThrough, Routine.code, Routine.code, append_assoc, append_assoc]
  dsimp only
  split
  · next hlast =>
    refine hfirst.trans (improves_of_jumpsToNext (hd.within (within_dropJumps r.body)) ?_)
    exact (thinned_dropLast hlast).prepend r.prologue
  · exact hfirst

theorem improves_dropLabels {env : Env} {front body back : List Line}
    (hfront : ∀ i ∈ instrsOf front, i.branchTarget? = none)
    (hback : ∀ i ∈ instrsOf back, i.branchTarget? = none) :
    Improves env (front ++ (body ++ back)) (front ++ (dropLabels body ++ back)) := by
  let targets := (instrsOf body).filterMap Instr.branchTarget?
  refine improves_thinned (P := fun a _ => isUsed targets a = false)
    ((Thinned.filter (fun _ h _ => h) body back).prepend front) ?_ ?_
  · intro a rest s ha _
    cases a with
    | label => exact ⟨[], rfl⟩
    | instr => cases ha
  · intro a ha name hname rest hunused
    cases a with
    | label => cases hname
    | instr i comment =>
      rcases mem_append.1 ha with ha | ha
      · have hnone := hfront i (mem_instrsOf.2 ⟨comment, ha⟩)
        cases hnone.symm.trans hname
      rcases mem_append.1 ha with ha | ha
      · have hmem : name ∈ targets :=
          mem_filterMap.2 ⟨i, mem_instrsOf.2 ⟨comment, ha⟩, hname⟩
        have hunused : (_ || targets.contains name) = false := hunused
        rw [contains_iff_mem.2 hmem, Bool.or_true] at hunused
        cases hunused
      · have hnone := hback i (mem_instrsOf.2 ⟨comment, ha⟩)
        cases hnone.symm.trans hname

/-! ## Routines -/

def straightened (r : Routine) : Routine := fallThrough { r with body := cleanMoves r.body }

theorem within_straightened (r : Routine) : Within r.body (straightened r).body :=
  (Within.cleanMoves r.body).trans (within_fallThrough { r with body := cleanMoves r.body })

/-- A routine that needs no frame loses it, and returns in place. -/
theorem cleanRoutine_of_frameless {r : Routine} (hr : isFrameless (straightened r) = true) :
    cleanRoutine r = { straightened r with
      prologue := [], body := dropLabels ((straightened r).body.map returnInPlace)
      epilogue := [plain .ret] } := by
  have hbare : omitFrame (straightened r) =
      { straightened r with prologue := [], epilogue := bareReturn } := if_pos hr
  show (let r := inlineReturns (omitFrame (straightened r)); { r with body := dropLabels r.body }) = _
  rw [hbare]
  rfl

/-- Whether an instruction may stand in a body: it does not return or pop, and no conditional jump
leaves the body. -/
def Instr.isInner : Instr → Bool
  | .pop _ | .ret => false
  | .jcc _ name => name ≠ epilogueLabel
  | _ => true

/-- A routine as selection gives it. -/
structure Orderly (r : Routine) : Prop where
  distinct : LabelsDistinct r.code
  front : ∀ i ∈ instrsOf r.prologue, i.branchTarget? = none
  back : ∀ i ∈ instrsOf r.epilogue, i.branchTarget? = none
  inner : ∀ i ∈ instrsOf r.body, i.isInner = true
  leaf : r.isLeaf = true → ∀ target, .call target ∉ instrsOf r.body
  small : r.frameSize = 0 → r.saved = [] → r.prologue = framePush ∧ r.epilogue = framePop
  restores : plain (.pop .rbp) ∈ r.epilogue

namespace Orderly

variable {r : Routine} {env : Env} {s : State} {trace : Trace}

theorem withBody (h : Orderly r) (hbody : Within r.body body) : Orderly { r with body := body } where
  distinct := by
    have hd := h.distinct
    rw [Routine.code, append_assoc] at hd ⊢
    exact hd.within hbody
  front := h.front
  back := h.back
  inner := by
    intro i hi
    obtain hi | ⟨d, s, -, rfl⟩ := hbody.instrs i hi
    · exact h.inner i hi
    · rfl
  leaf := by
    intro hleaf target hi
    obtain hi | ⟨d, s, -, heq⟩ := hbody.instrs _ hi
    · exact h.leaf hleaf target hi
    · cases heq
  small := h.small
  restores := h.restores

/-- Where the frame is needed, the epilogue is not a bare return. -/
theorem inlineReturns_eq (h : Orderly r) : inlineReturns r = r := by
  rw [inlineReturns]
  split
  · next heq =>
    have hmem := mem_map_of_mem (f := fun a : Line => (a.label?, a.instr?)) h.restores
    rw [heq] at hmem
    exact absurd hmem (by decide)
  · rfl

theorem straightened (h : Orderly r) : Orderly (straightened r) :=
  h.withBody (within_straightened r)

theorem push_not_mem_straightened (h : ∀ v, .push v ∉ instrsOf r.body) (v : Arg) :
    .push v ∉ instrsOf (Asm.straightened r).body := by
  intro hmem
  obtain hmem | ⟨d, s, -, heq⟩ := (within_straightened r).instrs _ hmem
  · exact h v hmem
  · cases heq

/-- A routine that needs its frame loses labels only, once its lines are straightened. -/
theorem cleanRoutine_of_framed (h : Orderly r) (hr : isFrameless (Asm.straightened r) ≠ true) :
    cleanRoutine r =
      { Asm.straightened r with body := dropLabels (Asm.straightened r).body } := by
  have hsame : omitFrame (Asm.straightened r) = Asm.straightened r := if_neg hr
  show (let r := inlineReturns (omitFrame (Asm.straightened r))
    { r with body := dropLabels r.body }) = _
  rw [hsame, h.straightened.inlineReturns_eq]

theorem isUnframed (h : Orderly r) (hpush : ∀ v, .push v ∉ instrsOf r.body)
    (hr : isFrameless r = true) : ∀ i ∈ instrsOf r.body, i.isUnframed = true := by
  intro i hi
  simp only [isFrameless, Bool.and_eq_true, Bool.not_eq_true', any_eq_false,
    Bool.or_eq_true, not_or, Bool.not_eq_true] at hr
  obtain ⟨⟨⟨hleaf, _⟩, _⟩, huses⟩ := hr
  obtain ⟨hbp, hsp⟩ := huses i hi
  have hinner := h.inner i hi
  unfold Instr.isUnframed
  rw [hbp, hsp]
  cases i with
  | push v => exact absurd hi (hpush v)
  | call target => exact absurd hi (h.leaf hleaf target)
  | pop | ret => cases hinner
  | _ => rfl

theorem label_not_mem (h : Orderly r) (hr : r.epilogue = framePop) :
    .label epilogueLabel ∉ r.body := by
  intro hmem
  have hd := h.distinct
  rw [Routine.code, hr, LabelsDistinct, filterMap_append] at hd
  refine (disjoint_of_nodup_append hd) (a := epilogueLabel) ?_ mem_cons_self
  exact mem_filterMap.2 ⟨_, mem_append_right _ hmem, rfl⟩

/-- Cleaning up makes no instructions but returns and moves from one register to another. -/
theorem mem_cleanRoutine (h : Orderly r) (hi : i ∈ instrsOf (cleanRoutine r).code) :
    i ∈ instrsOf r.code ∨ i = .ret ∨ ∃ d s : PhysReg, d ≠ s ∧ i = .mov (.reg d) (.reg s) := by
  have hcode : ∀ {front body back : List Line},
      i ∈ instrsOf (front ++ dropLabels body ++ back) →
        i ∈ instrsOf front ∨ i ∈ instrsOf body ∨ i ∈ instrsOf back := by
    intro front body back hi
    rw [instrsOf_append, instrsOf_append, mem_append, mem_append, or_assoc] at hi
    refine hi.imp_right (.imp_left fun hi => ?_)
    obtain ⟨comment, hmem⟩ := mem_instrsOf.1 hi
    exact mem_instrsOf.2 ⟨comment, mem_of_mem_filter hmem⟩
  have hbody : i ∈ instrsOf (Asm.straightened r).body →
      i ∈ instrsOf r.code ∨ i = .ret ∨ ∃ d s : PhysReg, d ≠ s ∧ i = .mov (.reg d) (.reg s) := by
    intro hi
    refine ((within_straightened r).instrs i hi).imp (fun hi => ?_) .inr
    rw [Routine.code, instrsOf_append, instrsOf_append, mem_append, mem_append]
    exact .inl (.inr hi)
  by_cases hr : isFrameless (Asm.straightened r) = true
  · rw [cleanRoutine_of_frameless hr] at hi
    rcases hcode hi with hi | hi | hi
    · cases hi
    · obtain ⟨comment, hmem⟩ := mem_instrsOf.1 hi
      obtain ⟨a, ha, heq⟩ := mem_map.1 hmem
      rw [returnInPlace] at heq
      split at heq
      · cases heq
        exact .inr (.inl rfl)
      · exact hbody (mem_instrsOf.2 ⟨comment, heq ▸ ha⟩)
    · exact .inr (.inl (mem_singleton.1 hi))
  · rw [h.cleanRoutine_of_framed hr] at hi
    rcases hcode hi with hi | hi | hi
    · rw [Routine.code, instrsOf_append, instrsOf_append, mem_append, mem_append]
      exact .inl (.inl (.inl hi))
    · exact hbody hi
    · rw [Routine.code, instrsOf_append, mem_append]
      exact .inl (.inr hi)

theorem runs_frameless (h : Orderly r) (hpush : ∀ v, .push v ∉ instrsOf r.body)
    (hr : isFrameless r = true) (hruns : Runs env r.code s trace)
    (hapart : ∀ a ∈ trace.touched, Apart a (s.regs .rsp - 8)) :
    ∃ trace', Runs env (r.body.map returnInPlace ++ [plain .ret]) s trace' ∧
      trace'.calls = trace.calls ∧ SameAbove trace.final trace'.final := by
  have hsmall : r.prologue = framePush ∧ r.epilogue = framePop := by
    simp only [isFrameless, Bool.and_eq_true, decide_eq_true_eq, List.isEmpty_iff] at hr
    exact h.small hr.1.1.2 hr.1.2
  rw [Routine.code, hsmall.1, hsmall.2] at hruns
  obtain ⟨t1, hruns1, hcalls1, -, hfinal1⟩ := runs_omitFrame (h.isUnframed hpush hr) hruns hapart
  have hjcc : ∀ c, .jcc c epilogueLabel ∉ instrsOf r.body := by
    intro c hmem
    have hinner := h.inner _ hmem
    simp [Instr.isInner] at hinner
  obtain ⟨t2, hruns2, hcalls2, -, hfinal2⟩ :=
    improves_inlineReturns (h.label_not_mem hsmall.2) hjcc s t1 hruns1
  exact ⟨t2, hruns2, hcalls2.trans hcalls1, hfinal2 ▸ hfinal1⟩

/-- **Cleaning up** an orderly routine keeps what it does. -/
theorem runs_clean (h : Orderly r) (hruns : Runs env r.code s trace)
    (hbare : (cleanRoutine r).prologue = [] → (∀ v, .push v ∉ instrsOf r.body) ∧
      ∀ a ∈ trace.touched, Apart a (s.regs .rsp - 8)) :
    ∃ trace', Runs env (cleanRoutine r).code s trace' ∧ trace'.calls = trace.calls ∧
      SameAbove trace.final trace'.final := by
  have himproves : Improves env r.code (Asm.straightened r).code := by
    refine .trans ?_ (improves_fallThrough env (h.withBody (.cleanMoves r.body)).distinct)
    rw [Routine.code, Routine.code, append_assoc, append_assoc]
    exact improves_cleanMoves env r.prologue r.body r.epilogue
  obtain ⟨t2, hruns2, hcalls2, htouched2, hfinal2⟩ := himproves s trace hruns
  by_cases hr : isFrameless (Asm.straightened r) = true
  · rw [cleanRoutine_of_frameless hr] at hbare ⊢
    obtain ⟨hpush, hapart⟩ := hbare rfl
    obtain ⟨t3, hruns3, hcalls3, hfinal3⟩ := h.straightened.runs_frameless
      (push_not_mem_straightened hpush) hr hruns2 fun a ha => hapart a (htouched2 ha)
    have hlabels := @improves_dropLabels env [] ((Asm.straightened r).body.map returnInPlace)
      [plain .ret] (by simp [instrsOf])
      (by simp [instrsOf, plain, Line.instr?, Instr.branchTarget?])
    obtain ⟨t4, hruns4, hcalls4, -, hfinal4⟩ := hlabels s t3 hruns3
    refine ⟨t4, hruns4, hcalls4.trans (hcalls3.trans hcalls2), ?_⟩
    rw [hfinal4, ← hfinal2]
    exact hfinal3
  · rw [Routine.code, append_assoc] at hruns2
    obtain ⟨t3, hruns3, hcalls3, -, hfinal3⟩ :=
      improves_dropLabels h.straightened.front h.straightened.back s t2 hruns2
    rw [h.cleanRoutine_of_framed hr, Routine.code, append_assoc]
    refine ⟨t3, hruns3, hcalls3.trans hcalls2, ?_⟩
    rw [hfinal3, hfinal2]
    exact .refl _

end Orderly

/-! ## Routines of allocated functions -/

theorem labels_prologue (slots : Nat) (saved : List PhysReg) :
    (prologue slots saved).filterMap Line.label? = [] := by
  rw [filterMap_eq_nil_iff]
  intro a ha
  simp only [prologue, mem_append, mem_map] at ha
  obtain (ha | ha) | ⟨r, _, rfl⟩ := ha
  · revert a
    decide
  · split at ha
    · cases ha
    · cases mem_singleton.1 ha
      rfl
  · rfl

theorem labels_epilogue (slots : Nat) (saved : List PhysReg) :
    (epilogue slots saved).filterMap Line.label? = [epilogueLabel] := by
  have hpops : (saved.reverse.map fun r => Line.instr (.pop r) (some ("restore " ++ r.name))).filterMap
      Line.label? = [] := by
    rw [filterMap_eq_nil_iff, forall_mem_map]
    exact fun _ _ => rfl
  unfold epilogue
  dsimp only
  split <;> split <;>
    simp only [filterMap_append, filterMap_cons, filterMap_nil, Line.label?, plain, hpops,
      append_nil]

theorem mem_prologue {slots : Nat} {saved : List PhysReg}
    (h : i ∈ instrsOf (prologue slots saved)) :
    i = .push (.reg .rbp) ∨ i = .mov (.reg .rbp) (.reg .rsp) ∨
      i = .alu .sub .rsp (.imm (Int64.ofNat (paddedSlots slots saved.length * 8))) ∨
      ∃ r ∈ saved, i = .push (.reg r) := by
  obtain ⟨comment, hmem⟩ := mem_instrsOf.1 h
  simp only [prologue, mem_append, mem_map, mem_cons, not_mem_nil, or_false] at hmem
  obtain ((hmem | hmem) | hmem) | ⟨r, hr, hmem⟩ := hmem
  · exact .inl (Line.instr.inj hmem).1
  · exact .inr (.inl (Line.instr.inj hmem).1)
  · split at hmem
    · cases hmem
    · exact .inr (.inr (.inl (Line.instr.inj (mem_singleton.1 hmem)).1))
  · exact .inr (.inr (.inr ⟨r, hr, (Line.instr.inj hmem).1.symm⟩))

theorem mem_epilogue {slots : Nat} {saved : List PhysReg}
    (h : i ∈ instrsOf (epilogue slots saved)) :
    i = .lea .rsp (.base .rbp
        (-Int64.ofNat (paddedSlots slots saved.length + saved.length) * 8)) ∨
      (∃ r ∈ saved, i = .pop r) ∨ i = .mov (.reg .rsp) (.reg .rbp) ∨ i = .pop .rbp ∨ i = .ret := by
  obtain ⟨comment, hmem⟩ := mem_instrsOf.1 h
  simp only [epilogue, mem_append, mem_cons, not_mem_nil, or_false] at hmem
  obtain ((hmem | hmem) | hmem) | hmem | hmem := hmem
  · cases hmem
  · split at hmem
    · cases hmem
    · rcases mem_cons.1 hmem with hmem | hmem
      · exact .inl (Line.instr.inj hmem).1
      · obtain ⟨r, hr, hmem⟩ := mem_map.1 hmem
        exact .inr (.inl ⟨r, mem_reverse.1 hr, (Line.instr.inj hmem).1.symm⟩)
  · split at hmem
    · cases hmem
    · exact .inr (.inr (.inl (Line.instr.inj (mem_singleton.1 hmem)).1))
  · exact .inr (.inr (.inr (.inl (Line.instr.inj hmem).1)))
  · exact .inr (.inr (.inr (.inr (Line.instr.inj hmem).1)))

theorem branchTarget?_prologue (slots : Nat) (saved : List PhysReg) :
    ∀ i ∈ instrsOf (prologue slots saved), i.branchTarget? = none := by
  intro i hi
  obtain rfl | rfl | rfl | ⟨r, _, rfl⟩ := mem_prologue hi <;> rfl

theorem branchTarget?_epilogue (slots : Nat) (saved : List PhysReg) :
    ∀ i ∈ instrsOf (epilogue slots saved), i.branchTarget? = none := by
  intro i hi
  obtain rfl | ⟨r, _, rfl⟩ | rfl | rfl | rfl := mem_epilogue hi <;> rfl

theorem Chosen.isInner {i : IR.Instr} (h : Chosen syms f i j) : j.isInner = true := by
  cases h with
  | @taken _ _ _ _ _ _ b => exact decide_eq_true (blockLabel_ne_epilogueLabel f b)
  | _ => rfl

theorem labelsDistinct_routine (hf : f.layout.Nodup) (h : routine syms f = .ok x) :
    LabelsDistinct x.code := by
  obtain ⟨body, hbody, h⟩ := Except.bind_eq_ok.1 h
  cases h
  have hlabels := (selectBlocks_spec hbody).1
  -- The labels are those of blocks, which differ, and the one of the epilogue.
  show LabelsDistinct (prologue _ _ ++ body ++ epilogue _ _)
  rw [LabelsDistinct, filterMap_append, filterMap_append, labels_prologue,
    labels_epilogue, nil_append]
  refine ((hf.map fun _ _ => blockLabel_injective).sublist hlabels).append (nodup_singleton _) ?_
  intro name hname hepilogue
  obtain ⟨b, -, rfl⟩ := mem_map.1 (hlabels.subset hname)
  exact blockLabel_ne_epilogueLabel f b (mem_singleton.1 hepilogue)

theorem call_not_mem_of_isLeaf (h : routine syms f = .ok x) (hleaf : x.isLeaf = true) (target : String) :
    .call target ∉ instrsOf x.body := by
  obtain ⟨body, hbody, h⟩ := Except.bind_eq_ok.1 h
  cases h
  intro hmem
  have hleaf : (!(instrsOf body).any Instr.isCall) = true := hleaf
  rw [Bool.not_eq_true', any_eq_false] at hleaf
  exact hleaf _ hmem rfl

theorem orderly_routine (h : routine syms f = .ok x) (hdistinct : LabelsDistinct x.code) :
    Orderly x := by
  have hleaf := call_not_mem_of_isLeaf h
  obtain ⟨body, hbody, h⟩ := Except.bind_eq_ok.1 h
  cases h
  have hinstrs := (selectBlocks_spec hbody).2.1
  refine ⟨hdistinct, branchTarget?_prologue _ _, branchTarget?_epilogue _ _, ?_, hleaf, ?_, ?_⟩
  · intro j hj
    obtain ⟨b, _, i, _, hsel⟩ := hinstrs j hj
    exact hsel.isInner
  · intro hsize hsaved
    have hsaved : savedBy body = [] := hsaved
    have hsize : paddedSlots f.slots (savedBy body).length * 8 = 0 := hsize
    have hpadded : paddedSlots f.slots (savedBy body).length = 0 := by omega
    constructor
    · show prologue f.slots (savedBy body) = framePush
      rw [prologue, hpadded, hsaved]
      rfl
    · show epilogue f.slots (savedBy body) = framePop
      rw [epilogue, hpadded, hsaved]
      rfl
  · exact mem_append_right _ mem_cons_self

/-- A leaf with balanced blocks pushes nothing: what is pushed is taken off by a call. -/
theorem push_not_mem_of_isLeaf (hf : Alloc.Stacked f) (h : routine syms f = .ok x)
    (hleaf : x.isLeaf = true) (v : Arg) : .push v ∉ instrsOf x.body := by
  have hnone := call_not_mem_of_isLeaf h hleaf
  obtain ⟨body, hbody, h⟩ := Except.bind_eq_ok.1 h
  cases h
  intro hj
  obtain ⟨b, hb, i, hi, hsel⟩ := (selectBlocks_spec hbody).2.1 _ hj
  cases hsel
  obtain ⟨k, hk, hcall⟩ := (hf.balanced b hb).exists_call (.inr ⟨_, hi⟩)
  obtain ⟨target, htarget⟩ := exists_call_of_isCall hbody hb hk hcall
  exact hnone target htarget

theorem name_cleanRoutine (r : Routine) : (cleanRoutine r).name = r.name := by
  have hreturns : ∀ r : Routine, (inlineReturns r).name = r.name := by
    intro r
    rw [inlineReturns]
    split <;> rfl
  have hframe : ∀ r : Routine, (omitFrame r).name = r.name := by
    intro r
    rw [omitFrame]
    split <;> rfl
  exact (hreturns _).trans (hframe _)

theorem name_routine {y : Routine} (hy : routine syms f = .ok y) : y.name = f.label := by
  obtain ⟨body, -, hy⟩ := Except.bind_eq_ok.1 hy
  cases hy
  rfl

theorem exists_func_of_mem {p : IR.Program} {l : Listing} (hl : listing p = .ok l) (hx : x ∈ l.routines) :
    ∃ f ∈ p.functions, routine (.ofProgram p) f = .ok x := by
  obtain ⟨xs, hxs, hl⟩ := Except.bind_eq_ok.1 hl
  cases hl
  obtain ⟨k, hk⟩ := List.getElem?_of_mem hx
  obtain ⟨f, hf, hroutine⟩ := Alloc.forall₂_getElem? (mapM_eq_ok_iff.1 hxs).flip hk
  exact ⟨f, Array.mem_toList_iff.1 (List.mem_of_getElem? hf), hroutine⟩

/-- **Cleaning up keeps what a routine does.** Take the routine of any function in which no label stands
twice. Whatever the calls do, if it reaches its return then so does the routine cleaned up, with the
same calls in the same states, the same registers, and the same memory but for the word just below the
stack. A routine that loses its frame must push nothing, and not access the word in which the frame
pointer would be. -/
theorem runs_cleanRoutine (hx : routine syms f = .ok x) (hdistinct : LabelsDistinct x.code) (env : Env)
    (s : State) {trace : Trace} (hruns : Runs env x.code s trace)
    (hbare : (cleanRoutine x).prologue = [] → (∀ v, .push v ∉ instrsOf x.body) ∧
      ∀ a ∈ trace.touched, Apart a (s.regs .rsp - 8)) :
    ∃ trace', Runs env (cleanRoutine x).code s trace' ∧ trace'.calls = trace.calls ∧
      trace'.final.regs = trace.final.regs ∧
      ∀ a, 8 ≤ distance (trace.final.regs .rsp - 8) a →
        trace'.final.memory a = trace.final.memory a := by
  obtain ⟨trace', hruns', hcalls, hfinal⟩ := (orderly_routine hx hdistinct).runs_clean hruns hbare
  exact ⟨trace', hruns', hcalls, hfinal.regs, hfinal.memory⟩

/-! ## What the conditions are for -/

def firstRoutine (p : IR.Program) : Option Routine := do
  let q ← (Alloc.conventional p).toOption
  let (r, _) ← (Alloc.allocated PhysReg.allocatable q).toOption
  let l ← (listing r).toOption
  l.routines.head?

theorem firstRoutine_eq_some {p : IR.Program} (h : firstRoutine p = some x) :
    ∃ q r stats l, Alloc.conventional p = .ok q ∧
      Alloc.allocated PhysReg.allocatable q = .ok (r, stats) ∧ listing r = .ok l ∧
      x ∈ l.routines := by
  simp only [firstRoutine, Option.bind_eq_bind, Option.bind_eq_some_iff,
    Except.toOption_eq_some] at h
  obtain ⟨q, hq, ⟨r, stats⟩, hr, l, hl, hx⟩ := h
  exact ⟨q, r, stats, l, hq, hr, hl, mem_of_head? hx⟩

def quietEnv : Env := ⟨fun _ => 0, fun _ s => s⟩

/-- A state at the start of a routine with one argument. -/
def startState (argument : Word) : State where
  regs
    | .rsp => 4096
    | .rbp => 7
    | .rdi => argument
    | _ => 0
  flags := .undefined
  memory := fun _ => 0

/-- A program with one function, which writes through its parameter. -/
def writeThrough : IR.Program where
  functions := #[{
    name := "write"
    label := "write"
    params := [0]
    blocks := #[{
      name := "entry"
      instrs := [.store (.base (.vreg 0) 0) (.imm 5), .ret none] }]
    layout := [0]
    hints := #["p"] }]

/-- A program with one function, which pushes a word and returns. -/
def lonePush : IR.Program where
  functions := #[{
    name := "push"
    label := "push"
    blocks := #[{
      name := "entry"
      instrs := [.push (.imm 5), .ret none] }]
    layout := [0] }]

def frameAtReturn (env : Env) (s : State) (code : List Line) : Option Word :=
  (run env code 20 s code).map (·.final.regs .rbp)

/-- Some routine of the program returns with other registers once it is cleaned up, when it starts
with a pointer to the word below the stack. -/
def CleaningShows (p : IR.Program) : Prop :=
  ∃ q r stats l x trace, Alloc.conventional p = .ok q ∧
    Alloc.allocated PhysReg.allocatable q = .ok (r, stats) ∧ listing r = .ok l ∧ x ∈ l.routines ∧
    Runs quietEnv x.code (startState 4088) trace ∧
    ∀ trace', Runs quietEnv (cleanRoutine x).code (startState 4088) trace' →
      trace'.final.regs ≠ trace.final.regs

theorem cleaningShows_of_frameAtReturn {p : IR.Program} {v w : Word} (hne : v ≠ w)
    (h : (firstRoutine p).map (fun x => (frameAtReturn quietEnv (startState 4088) x.code,
      frameAtReturn quietEnv (startState 4088) (cleanRoutine x).code)) = some (some v, some w)) :
    CleaningShows p := by
  obtain ⟨x, hx, hframe⟩ := Option.map_eq_some_iff.1 h
  obtain ⟨q, r, stats, l, hq, hr, hl, hmem⟩ := firstRoutine_eq_some hx
  obtain ⟨hframe, hclean⟩ := Prod.mk.inj hframe
  obtain ⟨trace, hrun, hbp⟩ := Option.map_eq_some_iff.1 hframe
  obtain ⟨trace1, hrun1, hbp1⟩ := Option.map_eq_some_iff.1 hclean
  refine ⟨q, r, stats, l, x, trace, hq, hr, hl, hmem, ⟨20, hrun⟩, fun trace' hruns heq => ?_⟩
  obtain rfl := Runs.unique ⟨20, hrun1⟩ hruns
  rw [heq, hbp] at hbp1
  exact hne hbp1

/-- Where the word of the saved frame pointer is overwritten through a pointer, or where a word stays
pushed, the frame pointer at the return is another one without the frame. -/
theorem clean_differs : CleaningShows writeThrough ∧ CleaningShows lonePush := by
  have hne : (5 : Word) ≠ 7 := by decide
  exact ⟨cleaningShows_of_frameAtReturn hne (by decide +kernel),
    cleaningShows_of_frameAtReturn hne (by decide +kernel)⟩

theorem touched_writeThrough : (firstRoutine writeThrough).bind (fun x =>
    (run quietEnv x.code 20 (startState 64) x.code).map fun trace =>
      ((cleanRoutine x).prologue, x.code.filterMap Line.label?, trace.touched,
        (instrsOf x.body).filter fun | .push _ => true | _ => false)) =
    some ([], [".bb0_entry", epilogueLabel], [64], []) := by
  decide +kernel

theorem runs_cleanRoutine_writeThrough : ∃ x trace trace', firstRoutine writeThrough = some x ∧
    (cleanRoutine x).prologue = [] ∧ Runs quietEnv x.code (startState 64) trace ∧
    Runs quietEnv (cleanRoutine x).code (startState 64) trace' ∧
    trace'.calls = trace.calls ∧ trace'.final.regs = trace.final.regs ∧
    ∀ a, 8 ≤ distance (trace.final.regs .rsp - 8) a →
      trace'.final.memory a = trace.final.memory a := by
  obtain ⟨x, hx, hrun⟩ := Option.bind_eq_some_iff.1 touched_writeThrough
  obtain ⟨trace, hrun, heq⟩ := Option.map_eq_some_iff.1 hrun
  simp only [Prod.mk.injEq] at heq
  obtain ⟨hbare, hlabels, htouched, hpush⟩ := heq
  obtain ⟨q, r, stats, l, -, -, hl, hmem⟩ := firstRoutine_eq_some hx
  obtain ⟨f, -, hroutine⟩ := exists_func_of_mem hl hmem
  have hdistinct : LabelsDistinct x.code := by
    rw [LabelsDistinct, hlabels]
    decide
  have hapart : ∀ a ∈ trace.touched, Apart a ((startState 64).regs .rsp - 8) := by
    intro a ha
    rw [htouched, List.mem_singleton] at ha
    rw [ha]
    decide +kernel
  obtain ⟨trace', h⟩ := runs_cleanRoutine hroutine hdistinct quietEnv (startState 64) ⟨20, hrun⟩
    fun _ => ⟨fun v hv => filter_eq_nil_iff.1 hpush _ hv rfl, hapart⟩
  exact ⟨x, trace, trace', hx, hbare, ⟨20, hrun⟩, h⟩

end MxStar.Asm
