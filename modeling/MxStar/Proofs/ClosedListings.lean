import MxStar.Proofs.ChosenInstrs
import MxStar.Proofs.Compilations
import MxStar.Proofs.SelectedBlocks
import MxStar.Tree.Sample

/-!
Listings that are closed.

All that the code of a listing refers to is defined in it or declared as external, and nothing is declared
or labelled that is not used (`Listing.Closed`). Selection labels every block that is jumped to
(`resolved_routine`). Cleaning up keeps just these labels, and all calls (`closed_cleanRoutine`).
-/
namespace MxStar.Asm

open List

open IR (Func BlockId PhysReg)

variable {syms : Symbols} {f : Func} {i : Instr} {r : Routine} {name : String} {body : List Line}

/-! ## Closed listings -/

/-- The place in memory that an operand is. -/
def Arg.mem? : Arg → Option Mem
  | .mem m => some m
  | _ => none

def Instr.mems : Instr → List Mem
  | .mov dst src => dst.mem?.toList ++ src.mem?.toList
  | .lea _ m => [m]
  | .push src | .alu _ _ src | .cmp _ src => src.mem?.toList
  | _ => []

def labelsOf (lines : List Line) : List String := lines.filterMap Line.label?

/-- A routine in which every jump goes to the one label of its name, control does not run past the
end, labels of blocks are jumped to, and no register is moved to itself. -/
structure Routine.Closed (x : Routine) : Prop where
  targets : ∀ i ∈ instrsOf x.code, ∀ name, i.branchTarget? = some name →
    (labelsOf (x.body ++ x.epilogue)).count name = 1
  ends : ∃ init, x.code = init ++ [plain .ret]
  used : ∀ name ∈ labelsOf x.code, blockMark.toList.isPrefixOf name.toList = true →
    ∃ i ∈ instrsOf x.code, i.branchTarget? = some name
  moves : ∀ r, .mov (.reg r) (.reg r) ∉ instrsOf x.code

/-- A listing in which all that is called and all data that are named are defined or declared, and all
that is declared is called. -/
structure Listing.Closed (l : Listing) : Prop where
  routines : ∀ x ∈ l.routines, x.Closed
  calls : ∀ x ∈ l.routines, ∀ target, .call target ∈ instrsOf x.code →
    (∃ y ∈ l.routines, y.name = target) ∨ target ∈ l.externs
  externs : ∀ target ∈ l.externs, ∃ x ∈ l.routines, .call target ∈ instrsOf x.code
  data : ∀ x ∈ l.routines, ∀ i ∈ instrsOf x.code, ∀ name, .label name ∈ i.mems →
    ∃ d ∈ l.data, d.label = name

theorem labelsOf_append (lines rest : List Line) :
    labelsOf (lines ++ rest) = labelsOf lines ++ labelsOf rest := filterMap_append

theorem mem_labelsOf {lines : List Line} : name ∈ labelsOf lines ↔ .label name ∈ lines := by
  rw [labelsOf, mem_filterMap]
  constructor
  · rintro ⟨a, ha, hname⟩
    cases a with
    | label => exact Option.some.inj hname ▸ ha
    | instr => cases hname
  · exact fun h => ⟨_, h, rfl⟩

/-! ## Labels of blocks -/

/-- Jumps of a body go to its labels, or to those of the epilogue. -/
def Resolved (r : Routine) : Prop :=
  ∀ i ∈ instrsOf r.body, ∀ name, i.branchTarget? = some name →
    name ∈ labelsOf r.body ∨ name ∈ labelsOf r.epilogue

theorem mem_targets_of_successor {b : IR.Block} (h : IR.EndsOnce b.instrs) {i : IR.Instr}
    (hi : i ∈ b.instrs) {t : BlockId} (ht : t ∈ i.successors) : t ∈ b.targets := by
  obtain ⟨init, last, hcode, hterm, hinit⟩ := h.split
  rw [IR.EndsOnce.targets hcode hterm]
  rw [hcode, mem_append, mem_singleton] at hi
  rcases hi with hi | rfl
  · have hnone := hinit i hi
    cases i with
    | jump | branch => cases hnone
    | _ => cases ht
  · exact ht

/-- A jump that is selected goes to a successor, or to the epilogue. -/
theorem Chosen.branchTarget {i : IR.Instr} {j : Instr} (h : Chosen syms f i j)
    (hname : j.branchTarget? = some name) :
    (∃ t ∈ i.successors, name = blockLabel f t) ∨ name = epilogueLabel := by
  have hbranch : ∀ {cond lhs rhs} {t e b : BlockId}, b = t ∨ b = e →
      b ∈ (IR.Instr.branch cond lhs rhs t e).successors := by
    intro cond lhs rhs t e b hb
    by_cases hte : t = e
    · subst hte
      simpa [IR.Instr.successors] using hb
    · simpa [IR.Instr.successors, hte] using hb
  cases h with
  | jump => exact .inl ⟨_, mem_singleton_self _, (Option.some.inj hname).symm⟩
  | taken hb | other hb => exact .inl ⟨_, hbranch hb, (Option.some.inj hname).symm⟩
  | leave => exact .inr (Option.some.inj hname).symm
  | _ => cases hname

/-- **Every jump of a routine goes to one of its labels.** -/
theorem resolved_routine (hf : Alloc.Emittable f) {y : Routine} (hy : routine syms f = .ok y) :
    Resolved y := by
  intro j hj name hname
  have hshaped := hf.stacked.shaped
  obtain ⟨body, hbody, hy'⟩ := Except.bind_eq_ok.1 hy
  obtain rfl := Except.ok.inj hy'
  obtain ⟨b, hb, i, hi, hchosen⟩ := exists_chosen hbody hj
  obtain ⟨t, ht, rfl⟩ | rfl := hchosen.branchTarget hname
  · -- The block is not the entry, so that it has a label.
    have htarget := mem_targets_of_successor (hshaped.ends b hb) hi ht
    have hne : t ≠ f.entry := fun h => hf.entered b hb (h ▸ htarget)
    obtain ⟨before, after, hlayout⟩ := append_of_mem (hshaped.targets b hb t htarget)
    obtain ⟨code, rest, -, hsuffix⟩ := routine_block hy hlayout
    rw [labelLine_of_ne hne] at hsuffix
    have hlabel : blockLabel f t ∈ labelsOf (prologue f.slots (savedBy body) ++ body ++
        epilogue f.slots (savedBy body)) :=
      mem_labelsOf.2 (hsuffix.subset (by simp))
    rw [labelsOf_append, labelsOf_append, mem_append, mem_append] at hlabel
    obtain (hlabel | hlabel) | hlabel := hlabel
    · rw [labelsOf, labels_prologue] at hlabel
      cases hlabel
    · exact .inl hlabel
    · exact .inr hlabel
  · refine .inr ?_
    show epilogueLabel ∈ (epilogue f.slots (savedBy body)).filterMap Line.label?
    rw [labels_epilogue]
    exact mem_singleton_self _

theorem Resolved.within (h : Resolved r) (hbody : Within r.body body) :
    Resolved { r with body := body } := by
  intro i hi name hname
  show name ∈ labelsOf body ∨ name ∈ labelsOf r.epilogue
  rw [labelsOf, hbody.labels]
  obtain hi | ⟨d, s, -, rfl⟩ := hbody.instrs i hi
  · exact h i hi name hname
  · cases hname

/-! ## Labels that are kept -/

theorem instrsOf_dropLabels (body : List Line) : instrsOf (dropLabels body) = instrsOf body := by
  rw [instrsOf, dropLabels, filterMap_filter]
  refine filterMap_congr fun a _ => ?_
  cases a with
  | label name => exact ite_self none
  | instr i comment => rfl

theorem mem_labelsOf_dropLabels : name ∈ labelsOf (dropLabels body) ↔ name ∈ labelsOf body ∧
      (blockMark.toList.isPrefixOf name.toList = true →
        ∃ i ∈ instrsOf body, i.branchTarget? = some name) := by
  rw [mem_labelsOf, mem_labelsOf, dropLabels, List.mem_filter]
  refine and_congr_right fun _ => ?_
  rw [isUsed, Bool.or_eq_true, Bool.not_eq_true', contains_iff_mem, mem_filterMap]
  cases blockMark.toList.isPrefixOf name.toList <;> simp

theorem labelsOf_dropLabels_sublist (body : List Line) :
    (labelsOf (dropLabels body)).Sublist (labelsOf body) :=
  filter_sublist.filterMap Line.label?

theorem count_dropLabels {body back : List Line} (hi : i ∈ instrsOf body)
    (hname : i.branchTarget? = some name) (hmem : name ∈ labelsOf body ∨ name ∈ labelsOf back)
    (hd : LabelsDistinct (body ++ back)) : (labelsOf (dropLabels body ++ back)).count name = 1 := by
  refine count_eq_one_of_mem ?_ ?_
  · rw [labelsOf_append]
    refine List.Nodup.sublist ((labelsOf_dropLabels_sublist body).append_right _) ?_
    rw [← labelsOf_append]
    exact hd
  · rw [labelsOf_append, mem_append]
    exact hmem.imp_left fun h => mem_labelsOf_dropLabels.2 ⟨h, fun _ => ⟨i, hi, hname⟩⟩

/-! ## Instructions that are kept -/

theorem mem_instrsOf_cons {a : Line} {lines : List Line} :
    i ∈ instrsOf (a :: lines) ↔ a.instr? = some i ∨ i ∈ instrsOf lines := by
  cases a with
  | label name => simp [instrsOf, Line.instr?]
  | instr j comment => simp [instrsOf, Line.instr?, eq_comm]

theorem Thinned.mem {P : Line → List Line → Prop} {code code' : List Line} (h : Thinned P code code')
    (hP : ∀ comment rest, ¬P (.instr i comment) rest) (hi : i ∈ instrsOf code) :
    i ∈ instrsOf code' := by
  induction h with
  | nil => exact hi
  | keep a _ ih => exact mem_instrsOf_cons.2 ((mem_instrsOf_cons.1 hi).imp_right ih)
  | @drop rest rest' a ha _ ih =>
    rcases mem_instrsOf_cons.1 hi with heq | hi
    · cases a with
      | label => cases heq
      | instr j comment =>
        cases heq
        exact absurd ha (hP comment rest)
    · exact ih hi

theorem Tidied.mem {change : Instr → Instr → Change} {before : Option Instr} {code code' : List Line}
    (h : Tidied change before code code') (hkeep : ∀ j, change j i = .keep) (hi : i ∈ instrsOf code) :
    i ∈ instrsOf code' := by
  induction h with
  | nil => exact hi
  | keep a _ ih => exact mem_instrsOf_cons.2 ((mem_instrsOf_cons.1 hi).imp_right ih)
  | drop hc _ ih =>
    rcases mem_instrsOf_cons.1 hi with heq | hi
    · cases heq
      cases hc.symm.trans (hkeep _)
    · exact ih hi
  | replace hc _ ih =>
    rcases mem_instrsOf_cons.1 hi with heq | hi
    · cases heq
      cases hc.symm.trans (hkeep _)
    · exact mem_instrsOf_cons.2 (.inr (ih hi))

theorem call_mem_straightened {target : String} (h : .call target ∈ instrsOf r.code) :
    .call target ∈ instrsOf (straightened r).code := by
  have hjump : ∀ comment rest,
      ¬jumpsToNext (.instr (.call target) comment) (List.head? rest) = true := by
    intro comment rest hnext
    cases hnext
  rw [Routine.code, append_assoc] at h ⊢
  have hdropped : ∀ a : Line, (!a.instr?.any isSelfMove) = false → ∀ _ : List Line,
      a.instr?.any isSelfMove = true := by simp
  have hself := ((Thinned.filter hdropped r.body r.epilogue).prepend r.prologue).mem
    (fun _ _ hself => Bool.noConfusion hself) h
  have hinverse := (Tidied.prepend (.of_changePairs inverseMove _ r.epilogue) r.prologue none).mem
    (fun j => by unfold inverseMove; split <;> trivial) hself
  have hmoves := (Tidied.prepend (.of_changePairs storeReload _ r.epilogue) r.prologue none).mem
    (fun j => by unfold storeReload; split <;> trivial) hinverse
  have hjumps := ((thinned_dropJumps (cleanMoves r.body) r.epilogue).prepend r.prologue).mem hjump hmoves
  rw [straightened, fallThrough]
  dsimp only
  split
  · next hlast => exact ((thinned_dropLast hlast).prepend r.prologue).mem hjump hjumps
  · exact hjumps

theorem isSelfMove_straightened (h : i ∈ instrsOf (straightened r).body) : isSelfMove i = false := by
  have hdistinct : ∀ {d s : PhysReg}, d ≠ s → isSelfMove (.mov (.reg d) (.reg s)) = false :=
    fun hne => decide_eq_false hne
  have hfall := within_fallThrough { r with body := cleanMoves r.body }
  obtain h | ⟨d, s, hne, rfl⟩ := hfall.instrs i h
  · have hpairs : Within (r.body.filter fun a => !a.instr?.any isSelfMove) (cleanMoves r.body) :=
      (Within.changePairs changesMoves_inverseMove _).trans (.changePairs changesMoves_storeReload _)
    obtain h | ⟨d, s, hne, rfl⟩ := hpairs.instrs i h
    · obtain ⟨comment, hmem⟩ := mem_instrsOf.1 h
      have hkeep : (!isSelfMove i) = true := (List.mem_filter.1 hmem).2
      exact Bool.eq_false_of_not_eq_true' hkeep
    · exact hdistinct hne
  · exact hdistinct hne

theorem labelsOf_returnInPlace (body : List Line) :
    labelsOf (body.map returnInPlace) = labelsOf body := by
  rw [labelsOf, filterMap_map]
  refine filterMap_congr fun a _ => ?_
  cases a with
  | label => rfl
  | instr i comment =>
    rw [Function.comp_apply, returnInPlace]
    split <;> rfl

/-- With returns in place, the instructions are returns and those that do not jump to the epilogue. -/
theorem mem_returnInPlace (h : i ∈ instrsOf (body.map returnInPlace)) :
    i = .ret ∨ i ∈ instrsOf body ∧ i.jumpTarget? ≠ some epilogueLabel := by
  obtain ⟨comment, hmem⟩ := mem_instrsOf.1 h
  obtain ⟨a, ha, heq⟩ := mem_map.1 hmem
  rw [returnInPlace] at heq
  split at heq
  · cases heq
    exact .inl rfl
  · next hne =>
    subst heq
    exact .inr ⟨mem_instrsOf.2 ⟨comment, ha⟩, hne⟩

theorem call_mem_cleanRoutine (hr : Orderly r) {target : String} (h : .call target ∈ instrsOf r.body) :
    .call target ∈ instrsOf (cleanRoutine r).code := by
  have hcode : .call target ∈ instrsOf r.code := by
    rw [Routine.code, instrsOf_append, instrsOf_append, mem_append, mem_append]
    exact .inl (.inr h)
  by_cases hframe : isFrameless (straightened r) = true
  · -- A routine that loses its frame calls nothing.
    have hleaf : r.isLeaf = true := by
      simp only [isFrameless, Bool.and_eq_true] at hframe
      exact hframe.1.1.1
    cases hr.leaf hleaf _ h
  · have hs := call_mem_straightened hcode
    rw [Routine.code, instrsOf_append, instrsOf_append] at hs
    rw [hr.cleanRoutine_of_framed hframe, Routine.code, instrsOf_append, instrsOf_append,
      instrsOf_dropLabels]
    exact hs

/-! ## Routines -/

/-- What the code around a body has: no label but that of the epilogue, no jump, no move of a register
to itself, and a return at the end. -/
structure Enclosed (r : Routine) : Prop where
  front : labelsOf r.prologue = []
  back : ∀ name ∈ labelsOf r.epilogue, name = epilogueLabel
  straight : ∀ i ∈ instrsOf r.prologue ++ instrsOf r.epilogue, i.branchTarget? = none
  moves : ∀ q, .mov (.reg q) (.reg q) ∉ instrsOf r.prologue ++ instrsOf r.epilogue
  ends : ∃ init, r.epilogue = init ++ [plain .ret]

theorem enclosed_routine {y : Routine} (hy : routine syms f = .ok y) : Enclosed y := by
  obtain ⟨body, -, hy⟩ := Except.bind_eq_ok.1 hy
  cases hy
  refine ⟨labels_prologue _ _, fun name hname => ?_, ?_, fun q => ?_, ?_⟩
  · have hlabels : labelsOf (epilogue f.slots (savedBy body)) = [epilogueLabel] := labels_epilogue _ _
    exact mem_singleton.1 (hlabels ▸ hname)
  · exact forall_mem_append.2 ⟨branchTarget?_prologue _ _, branchTarget?_epilogue _ _⟩
  · intro hq
    rcases mem_append.1 hq with hq | hq
    · obtain h | h | h | ⟨r, _, h⟩ := mem_prologue hq <;> cases h
    · obtain h | ⟨r, _, h⟩ | h | h | h := mem_epilogue hq <;> cases h
  · exact ⟨_, append_cons _ (plain (.pop .rbp)) [plain .ret]⟩

theorem enclosed_bare (r : Routine) (body : List Line) :
    Enclosed { r with prologue := [], body := body, epilogue := [plain .ret] } where
  front := rfl
  back := fun _ hname => nomatch hname
  straight := by
    intro i hi
    obtain rfl := mem_singleton.1 hi
    rfl
  moves := by
    intro q hq
    cases mem_singleton.1 hq
  ends := ⟨[], rfl⟩

theorem closed_dropLabels (henclosed : Enclosed r) (hresolved : Resolved r)
    (hdistinct : LabelsDistinct (r.body ++ r.epilogue))
    (hmoves : ∀ i ∈ instrsOf r.body, isSelfMove i = false) :
    Routine.Closed { r with body := dropLabels r.body } := by
  obtain ⟨hfront, hback, hstraight, haround, init, hends⟩ := henclosed
  rw [forall_mem_append] at hstraight
  have hcode : ∀ {i : Instr}, i ∈ instrsOf (r.prologue ++ dropLabels r.body ++ r.epilogue) ↔
      i ∈ instrsOf r.body ∨ i ∈ instrsOf r.prologue ++ instrsOf r.epilogue := by
    intro i
    rw [instrsOf_append, instrsOf_append, instrsOf_dropLabels, mem_append, mem_append,
      mem_append, or_assoc, or_left_comm]
  refine ⟨?_, ?_, ?_, ?_⟩
  · intro i hi name hname
    rcases hcode.1 hi with hi | hi
    · exact count_dropLabels hi hname (hresolved i hi name hname) hdistinct
    · have hnone := (mem_append.1 hi).elim (hstraight.1 i) (hstraight.2 i)
      cases hnone.symm.trans hname
  · refine ⟨r.prologue ++ dropLabels r.body ++ init, ?_⟩
    rw [Routine.code, hends, append_assoc _ init]
  · intro name hname hmark
    rw [Routine.code, labelsOf_append, labelsOf_append, hfront, nil_append, mem_append]
      at hname
    rcases hname with hname | hname
    · obtain ⟨i, hi, htarget⟩ := (mem_labelsOf_dropLabels.1 hname).2 hmark
      exact ⟨i, hcode.2 (.inl hi), htarget⟩
    · cases hback name hname
      exact absurd hmark (by decide)
  · intro q hq
    rcases hcode.1 hq with hq | hq
    · have hself : isSelfMove (.mov (.reg q) (.reg q)) = true := decide_eq_true rfl
      cases hself.symm.trans (hmoves _ hq)
    · exact haround q hq

/-- **A routine is closed once it is cleaned up.** -/
theorem closed_cleanRoutine (hr : Orderly r) (hresolved : Resolved r) (henclosed : Enclosed r) :
    (cleanRoutine r).Closed := by
  have hs := hr.straightened
  have hres : Resolved (straightened r) := hresolved.within (within_straightened r)
  have hdistinct : LabelsDistinct ((straightened r).body ++ (straightened r).epilogue) := by
    have hd := hs.distinct
    rw [Routine.code, append_assoc] at hd
    exact hd.sublist ((sublist_append_right _ _).filterMap _)
  by_cases hframe : isFrameless (straightened r) = true
  · rw [cleanRoutine_of_frameless hframe]
    have hlabels := labelsOf_returnInPlace (straightened r).body
    refine closed_dropLabels
      (enclosed_bare (straightened r) ((straightened r).body.map returnInPlace)) ?_ ?_ ?_
    · -- What jumps to the epilogue is a jump, and that is a return now.
      intro i hi name hname
      rcases mem_returnInPlace hi with rfl | ⟨hi, hjump⟩
      · cases hname
      have hne : name ≠ epilogueLabel := by
        rintro rfl
        have hinner := hs.inner i hi
        cases i with
        | jmp => exact hjump hname
        | jcc =>
          cases hname
          simp [Instr.isInner] at hinner
        | _ => cases hname
      left
      show name ∈ labelsOf ((straightened r).body.map returnInPlace)
      rw [hlabels]
      exact (hres i hi name hname).resolve_right fun h => hne (henclosed.back name h)
    · show (labelsOf ((straightened r).body.map returnInPlace ++ [plain .ret])).Nodup
      rw [labelsOf_append, hlabels]
      show (labelsOf (straightened r).body ++ []).Nodup
      rw [append_nil]
      exact hdistinct.sublist ((sublist_append_left _ _).filterMap _)
    · intro i hi
      rcases mem_returnInPlace hi with rfl | ⟨hi, -⟩
      · rfl
      · exact isSelfMove_straightened hi
  · rw [hr.cleanRoutine_of_framed hframe]
    exact closed_dropLabels
      ⟨henclosed.front, henclosed.back, henclosed.straight, henclosed.moves, henclosed.ends⟩
      hres hdistinct fun _ => isSelfMove_straightened

/-! ## Listings -/

theorem mem_calledBuiltins {p : IR.Program} {b : IR.Builtin} :
    b ∈ calledBuiltins p ↔ ∃ f ∈ p.functions, ∃ c ∈ f.layout, ∃ dst args n,
      IR.Instr.call dst (.builtin b) args n ∈ f.code c := by
  have hall : b ∈ IR.Builtin.all := by cases b <;> decide
  rw [calledBuiltins, List.mem_filter, and_iff_right hall, Array.any_eq_true']
  refine exists_congr fun f => and_congr_right fun _ => ?_
  rw [any_eq_true]
  constructor
  · rintro ⟨i, hi, hcall⟩
    obtain ⟨c, hc, hi⟩ := mem_flatMap.1 hi
    split at hcall
    · next c' =>
      obtain rfl := of_decide_eq_true hcall
      exact ⟨c, hc, _, _, _, hi⟩
    · cases hcall
  · rintro ⟨c, hc, dst, args, n, hi⟩
    exact ⟨_, mem_flatMap.2 ⟨c, hc, hi⟩, decide_eq_true rfl⟩

/-- What a routine calls and names is what its body does: neither the code around a body nor cleaning
up adds to it. -/
theorem exists_chosen_of_mem (hf : Alloc.Stacked f) {y : Routine} (hy : routine syms f = .ok y)
    {j : Instr} (hj : j ∈ instrsOf (cleanRoutine y).code)
    (hrefers : j.isCall = true ∨ ∃ name, .label name ∈ j.mems) :
    ∃ b ∈ f.layout, ∃ i ∈ f.code b, Chosen syms f i j := by
  have hnone : ¬(Instr.isCall j = false ∧ ∀ name, .label name ∉ j.mems) := by
    rintro ⟨hcall, hname⟩
    rcases hrefers with h | ⟨name, h⟩
    · cases hcall.symm.trans h
    · exact hname name h
  have horderly := orderly_routine hy (labelsDistinct_routine hf.shaped.nodup hy)
  obtain hj | rfl | ⟨d, s, -, rfl⟩ := horderly.mem_cleanRoutine hj
  · obtain ⟨body, hbody, hy⟩ := Except.bind_eq_ok.1 hy
    cases hy
    rw [Routine.code, instrsOf_append, instrsOf_append, mem_append, mem_append] at hj
    obtain (hj | hj) | hj := hj
    · obtain rfl | rfl | rfl | ⟨r, _, rfl⟩ := mem_prologue hj <;>
        exact absurd ⟨rfl, by simp [Instr.mems, Arg.mem?]⟩ hnone
    · exact exists_chosen hbody hj
    · obtain rfl | ⟨r, _, rfl⟩ | rfl | rfl | rfl := mem_epilogue hj <;>
        exact absurd ⟨rfl, by simp [Instr.mems, Arg.mem?]⟩ hnone
  · exact absurd ⟨rfl, by simp [Instr.mems]⟩ hnone
  · exact absurd ⟨rfl, by simp [Instr.mems, Arg.mem?]⟩ hnone

theorem exists_static {p : IR.Program} {s : IR.StaticId} (h : (Symbols.ofProgram p).static s = .ok name) :
    ∃ t ∈ p.statics, t.label = name := by
  have hmap : (Symbols.ofProgram p).statics[s]? = some name := by
    unfold Symbols.static at h
    split at h
    · next hs => exact hs.trans (congrArg some (Except.ok.inj h))
    · cases h
  rw [Symbols.ofProgram, Array.getElem?_map, Option.map_eq_some_iff] at hmap
  obtain ⟨t, ht, hname⟩ := hmap
  exact ⟨t, Array.mem_of_getElem? ht, hname⟩

theorem exists_static_of_selectMem {p : IR.Program} {a : IR.Address} {m : Mem}
    (h : selectMem (.ofProgram p) a = .ok m) (hm : m = .label name) :
    ∃ t ∈ p.statics, t.label = name := by
  subst hm
  cases a with
  | static s =>
    obtain ⟨label, hs, h⟩ := Except.bind_eq_ok.1 h
    cases h
    exact exists_static hs
  | base b offset =>
    obtain ⟨r, -, h⟩ := Except.bind_eq_ok.1 h
    cases h
  | slot | incoming => cases h

theorem mem?_selectArg {o : IR.Operand} {a : Arg} (h : selectArg o = .ok a) : a.mem? = none := by
  cases o with
  | phys | imm => cases h; rfl
  | vreg | static => cases h

theorem Chosen.exists_static {p : IR.Program} {i : IR.Instr} {j : Instr}
    (h : Chosen (.ofProgram p) f i j) (hname : .label name ∈ j.mems) :
    ∃ t ∈ p.statics, t.label = name := by
  have hnone : ∀ {o : IR.Operand} {a : Arg}, selectArg o = .ok a → .label name ∉ a.mem?.toList := by
    intro o a ha hmem
    rw [mem?_selectArg ha] at hmem
    cases hmem
  cases h with
  | copy _ _ ha | alu _ _ ha | compare ha | test ha | push ha => exact absurd hname (hnone ha)
  | address hs =>
    cases mem_singleton.1 hname
    exact Asm.exists_static hs
  | load hm => exact exists_static_of_selectMem hm (mem_singleton.1 hname).symm
  | store hm ha =>
    rcases mem_cons.1 hname with heq | hname
    · exact exists_static_of_selectMem hm heq.symm
    · exact absurd hname (hnone ha)
  | neg | not | cqo | idiv | shift | set | movzx | call | release | jump | taken | other | leave =>
    cases hname

/-- What is called is a function of the program, or one that another file defines. -/
theorem Chosen.exists_callee {p : IR.Program} {i : IR.Instr} {target : String}
    (h : Chosen (.ofProgram p) f i (.call target)) : (∃ g ∈ p.functions, g.label = target) ∨
      ∃ dst b args n, i = .call dst (.builtin b) args n ∧ b.symbol = target := by
  cases h with
  | @call dst callee args n _ htarget =>
    cases callee with
    | builtin b => exact .inr ⟨dst, b, args, n, rfl, Except.ok.inj htarget⟩
    | func id =>
      have hmap : (Symbols.ofProgram p).functions[id]? = some target := by
        simp only [Symbols.callee] at htarget
        split at htarget
        · next hid => exact hid.trans (congrArg some (Except.ok.inj htarget))
        · cases htarget
      rw [Symbols.ofProgram, Array.getElem?_map, Option.map_eq_some_iff] at hmap
      obtain ⟨g, hg, hlabel⟩ := hmap
      exact .inl ⟨g, Array.mem_of_getElem? hg, hlabel⟩

end MxStar.Asm

namespace MxStar

open IR

variable {options : Options} {tree : Tree.Program} {ir p : Program} {l : Asm.Listing}

/-- **Emitted listings are closed**, with and without inlining: jumps stay within their routine, control
does not leave it but by a return, calls and data are defined or declared, and no label of a block, no
declaration and no move of a register to itself is left that serves nothing. -/
theorem closed_of_compiles (h : Compiles options tree ir p l) : l.Closed where
  routines := by
    intro x hx
    obtain ⟨f, hf, y, hy, rfl⟩ := h.exists_routine hx
    exact Asm.closed_cleanRoutine (h.orderly hf hy) (Asm.resolved_routine (h.emittable hf) hy)
      (Asm.enclosed_routine hy)
  calls := by
    intro x hx target hcall
    obtain ⟨f, hf, y, hy, rfl⟩ := h.exists_routine hx
    obtain ⟨b, hb, i, hi, hchosen⟩ :=
      Asm.exists_chosen_of_mem (h.emittable hf).stacked hy hcall (.inl rfl)
    obtain ⟨g, hg, rfl⟩ | ⟨dst, c, args, n, rfl, rfl⟩ := hchosen.exists_callee
    · obtain ⟨z, hz, hmem⟩ := h.exists_mem_routines hg
      exact .inl ⟨_, hmem, (Asm.name_cleanRoutine z).trans (Asm.name_routine hz)⟩
    · rw [h.externs]
      exact .inr (List.mem_map_of_mem (Asm.mem_calledBuiltins.2 ⟨f, hf, b, hb, dst, args, n, hi⟩))
  externs := by
    intro target htarget
    rw [h.externs] at htarget
    obtain ⟨c, hc, rfl⟩ := List.mem_map.1 htarget
    obtain ⟨f, hf, b, hb, dst, args, n, hi⟩ := Asm.mem_calledBuiltins.1 hc
    obtain ⟨y, hy, hmem⟩ := h.exists_mem_routines hf
    refine ⟨_, hmem, Asm.call_mem_cleanRoutine (h.orderly hf hy) ?_⟩
    obtain ⟨body, hbody, hy⟩ := Except.bind_eq_ok.1 hy
    cases hy
    obtain ⟨next, first, hfirst, hall⟩ := Asm.mem_body_of_selectInstr hbody hb hi
    cases hfirst
    exact Asm.mem_instrsOf.2 ⟨none, hall _ List.mem_cons_self⟩
  data := by
    intro x hx i hi name hname
    obtain ⟨f, hf, y, hy, rfl⟩ := h.exists_routine hx
    obtain ⟨b, hb, i, hi, hchosen⟩ :=
      Asm.exists_chosen_of_mem (h.emittable hf).stacked hy hi (.inr ⟨name, hname⟩)
    obtain ⟨s, hs, rfl⟩ := hchosen.exists_static hname
    rw [h.data]
    exact ⟨_, List.mem_map_of_mem (Array.mem_toList_iff.2 hs), rfl⟩

theorem closed_sample : ∃ ir p l, Compiles { inline := false } .sample ir p l ∧
    l.externs = ["__builtin_printlnInt"] ∧ l.Closed := by
  have hsample : (do
      let ir ← compileToIR (← Scope.ofProgram .sample) { inline := false } .sample
      let x ← assemble PhysReg.allocatable ir
      return x.2.externs) = .ok ["__builtin_printlnInt"] := by
    decide +kernel
  obtain ⟨scope, hscope, h⟩ := Except.bind_eq_ok.1 hsample
  obtain ⟨ir, hir, h⟩ := Except.bind_eq_ok.1 h
  obtain ⟨⟨p, l⟩, hl, h⟩ := Except.bind_eq_ok.1 h
  have hc : Compiles { inline := false } .sample ir p l := ⟨⟨scope, hscope, hir⟩, hl⟩
  exact ⟨ir, p, l, hc, Except.ok.inj h, closed_of_compiles hc⟩

end MxStar
