import MxStar.Proofs.AllocatedFunctions
import MxStar.Proofs.DefinedPasses
import MxStar.Proofs.Inlining

/-!
Programs whose code refers only to what exists.

Inlining does not keep a program defined: where a call wants a value and the function that it calls gives
none, the copy writes nothing. It does keep a program intact: blocks end with their only transfer of control,
and all that the code names exists (`Spliced.intact`). A function is intact if and only if it is defined once
all its registers are parameters (`Func.opened`), so what keeps programs defined and does not look at
parameters keeps them intact.
-/
namespace MxStar.IR

open List

variable {callable : FuncId → Prop} {p : Program} {statics : Nat}

/-! ## Intact functions -/

/-- What is known in a function if every register of it counts as written. -/
def Func.whole (f : Func) (statics : Nat) (callable : FuncId → Prop) : Known :=
  ⟨f.vregCount, f.blocks.size, statics, callable, fun _ => ∅, { v | v < f.vregCount }⟩

/-- Every block ends with its only transfer of control, and all that the code refers to exists. -/
structure Func.Intact (statics : Nat) (callable : FuncId → Prop) (f : Func) : Prop where
  nodup : f.layout.Nodup
  layout : ∀ b, b ∈ f.layout ↔ b < f.blocks.size
  entry : f.entry < f.blocks.size
  params : ∀ v ∈ f.params, v < f.vregCount
  ends : ∀ b, b < f.blocks.size → EndsOnce (f.code b)
  within : ∀ b, ∀ i ∈ f.code b, i.Within (f.whole statics callable)

/-- The function has one block, and that is empty: it was declared and never built. -/
def Func.IsStub (f : Func) : Prop := f.allInstrs = [] ∧ f.layout.length = 1

/-- There is an entry, and what it calls is intact. Functions that nothing calls may be stubs. -/
def Program.Intact (p : Program) : Prop :=
  ∃ callable : FuncId → Prop,
    (∀ id, callable id → ∃ f, p.functions[id]? = some f ∧ f.Intact p.statics.size callable) ∧
    (∀ f ∈ p.functions, f.Intact p.statics.size callable ∨ f.IsStub) ∧
    ∃ id, p.entry = some id ∧ callable id

def Program.Built (p : Program) : Prop := ∀ f ∈ p.functions, f.allInstrs ≠ []

/-- All functions of the program are intact, and they call functions of the program. -/
def Program.Complete (p : Program) : Prop :=
  ∀ f ∈ p.functions, f.Intact p.statics.size (· < p.functions.size)

/-- The image of an instruction, where all that it may refer to has an image. -/
theorem within_image {K L : Known} {base : VReg} {t : BlockId → BlockId} {i : Instr}
    (hi : i.Within K) (hregs : base + K.regs ≤ L.regs) (hhas : ∀ v, K.Has v → L.Has (base + v))
    (hstatics : K.statics ≤ L.statics) (hcallable : ∀ id, K.callable id → L.callable id)
    (henter : ∀ b, K.Enters b → L.Enters (t b)) : (Pass.image base t i).Within L := by
  have hop : ∀ {o : Operand}, o.Within K → (Pass.shift base o).Within L := by
    intro o ho
    cases o with
    | vreg v => exact hhas v ho
    | phys q => exact ho
    | imm w => trivial
    | static s => exact Nat.lt_of_lt_of_le ho hstatics
  have hdst : ∀ {o : Operand}, o.Writable K → (Pass.shift base o).Writable L := by
    intro o ho
    cases o with
    | vreg v => exact Nat.lt_of_lt_of_le (Nat.add_lt_add_left (k := base) ho) hregs
    | phys q => exact ho
    | imm w => exact ho
    | static s => exact ho
  have haddr : ∀ {a : Address}, a.Within K → (a.mapOperands (Pass.shift base)).Within L := by
    intro a ha
    cases a with
    | base b offset => exact hop (o := b) ha
    | static s => exact Nat.lt_of_lt_of_le ha hstatics
    | slot k => exact ha
    | incoming k => exact ha
  cases i with
  | binary | compare => exact ⟨hdst hi.1, hop hi.2.1, hop hi.2.2⟩
  | unary | move => exact ⟨hdst hi.1, hop hi.2⟩
  | load => exact ⟨hdst hi.1, haddr hi.2⟩
  | store => exact ⟨haddr hi.1, hop hi.2⟩
  | call dst callee args n =>
    refine ⟨fun o ho => ?_, ?_, fun o ho => ?_⟩
    · obtain ⟨o0, ho0, rfl⟩ := Option.map_eq_some_iff.1 ho
      exact hdst (hi.1 o0 ho0)
    · cases callee with
      | func id => exact hcallable id hi.2.1
      | builtin b => trivial
    · obtain ⟨o0, ho0, rfl⟩ := mem_map.1 ho
      exact hop (hi.2.2 o0 ho0)
  | push => exact hi
  | jump => exact henter _ hi
  | branch => exact ⟨hop hi.1, hop hi.2.1, henter _ hi.2.2.1, henter _ hi.2.2.2⟩
  | ret v =>
    intro o ho
    obtain ⟨o0, ho0, rfl⟩ := Option.map_eq_some_iff.1 ho
    exact hop (hi o0 ho0)

/-! ## Code that ends once -/

theorem EndsOnce.prepend {code : List Instr} (h : EndsOnce code) (init : List Instr)
    (hinit : ∀ i ∈ init, i.isTerminator = false) : EndsOnce (init ++ code) := by
  obtain ⟨mid, last, rfl, hterm, hmid⟩ := h.split
  rw [← append_assoc]
  refine ⟨⟨last, getLast?_concat, hterm⟩, ?_⟩
  rw [dropLast_concat]
  exact fun i hi => (mem_append.1 hi).elim (hinit i) (hmid i)

/-- Code ends once if each transfer of control in it becomes code that does. -/
theorem endsOnce_flatMap_of_forall {h : Instr → List Instr} {code : List Instr}
    (hends : ∀ i ∈ code, i.isTerminator = true → EndsOnce (h i))
    (hothers : ∀ i ∈ code, i.isTerminator = false → ∀ j ∈ h i, j.isTerminator = false)
    (hcode : EndsOnce code) : EndsOnce (code.flatMap h) := by
  obtain ⟨init, last, rfl, hterm, hinit⟩ := hcode.split
  rw [flatMap_append, flatMap_singleton]
  refine (hends last (by simp) hterm).prepend _ fun j hj => ?_
  obtain ⟨i, hi, hj⟩ := mem_flatMap.1 hj
  exact hothers i (mem_append_left _ hi) (hinit i hi) j hj

/-! ## Functions all whose registers are parameters -/

def Func.opened (f : Func) : Func := { f with params := List.range f.vregCount }

def Program.opened (p : Program) : Program := p.mapFunctions Func.opened

theorem Func.Defined.opened {f : Func} (h : f.Defined statics callable) :
    f.opened.Defined statics callable := by
  obtain ⟨starts, hentry, hblocks⟩ := h.grounded
  have hrange : { v | v ∈ f.params } ⊆ { v | v ∈ f.opened.params } := fun v hv =>
    mem_range.2 (h.params v hv)
  exact { h with
    params := fun v hv => mem_range.1 hv
    grounded := ⟨starts, hentry.trans hrange, hblocks⟩ }

/-- A function is intact if it is defined with all its registers as parameters. -/
theorem Func.intact_iff {f : Func} :
    f.Intact statics callable ↔
      (∀ v ∈ f.params, v < f.vregCount) ∧ f.opened.Defined statics callable := by
  constructor
  · intro h
    refine ⟨h.params, h.nodup, h.layout, h.entry, fun v hv => mem_range.1 hv, h.ends, ?_⟩
    refine ⟨fun _ => { v | v < f.vregCount }, fun v hv => mem_range.2 hv, fun b _ => ?_⟩
    refine Pass.grounded_of_forall fun i hi => (h.within b i hi).mono ?_
    exact ⟨Nat.le_refl _, Nat.le_refl _, fun _ h => h, fun _ hb => ⟨hb.1, subset_rfl⟩, subset_rfl⟩
  · rintro ⟨hparams, h⟩
    refine ⟨h.nodup, h.layout, h.entry, hparams, h.ends, fun b i hi => ?_⟩
    obtain ⟨starts, -, hblocks⟩ := h.grounded
    have hb : b < f.blocks.size := by
      by_contra hb
      rw [f.code_eq_nil (Nat.le_of_not_lt hb)] at hi
      cases hi
    obtain ⟨E, hE⟩ := (hblocks b hb).exists_within hi
    have himage : (Pass.image 0 id i).Within (f.whole statics callable) := within_image hE
      (Nat.zero_add _).le (fun v hv => by rw [Nat.zero_add]; exact ⟨hv.1, hv.1⟩) (Nat.le_refl _)
      (fun _ h => h) fun b hb => ⟨hb.1, Set.empty_subset _⟩
    rwa [Pass.image_zero] at himage

theorem Func.Defined.allInstrs_ne_nil {f : Func} (h : f.Defined statics callable) :
    f.allInstrs ≠ [] := by
  obtain ⟨i, hi, -⟩ := (h.ends f.entry h.entry).1
  exact ne_nil_of_mem (Pass.mem_allInstrs.2 ⟨f.entry, h.entry, mem_of_getLast? hi⟩)

/-- Every function is a stub, or its parameters are registers that it has. -/
def Program.Declares (p : Program) : Prop :=
  ∀ f ∈ p.functions, f.IsStub ∨ f.allInstrs ≠ [] ∧ ∀ v ∈ f.params, v < f.vregCount

theorem Program.intact_iff : p.Intact ↔ p.Declares ∧ p.opened.Defined := by
  constructor
  · rintro ⟨callable, hcallable, hothers, hentry⟩
    refine ⟨fun f hf => ?_, callable, ?_, ?_, hentry⟩
    · rcases hothers f hf with hintact | hstub
      · obtain ⟨hparams, hdef⟩ := Func.intact_iff.1 hintact
        exact .inr ⟨hdef.allInstrs_ne_nil, hparams⟩
      · exact .inl hstub
    · intro id hid
      obtain ⟨f, hf, hintact⟩ := hcallable id hid
      refine ⟨f.opened, ?_, (Func.intact_iff.1 hintact).2⟩
      change (p.functions.map Func.opened)[id]? = _
      rw [Array.getElem?_map, hf]
      rfl
    · intro g hg
      obtain ⟨f, hf, rfl⟩ := Array.mem_map.1 hg
      exact (hothers f hf).imp (fun h => (Func.intact_iff.1 h).2) fun h => h.1
  · rintro ⟨hdeclares, callable, hcallable, hothers, hentry⟩
    refine ⟨callable, ?_, ?_, hentry⟩
    · intro id hid
      obtain ⟨g, hg, hdef⟩ := hcallable id hid
      change (p.functions.map Func.opened)[id]? = _ at hg
      rw [Array.getElem?_map] at hg
      obtain ⟨f, hf, rfl⟩ := Option.map_eq_some_iff.1 hg
      rcases hdeclares f (Array.mem_of_getElem? hf) with hstub | ⟨-, hparams⟩
      · exact absurd hstub.1 hdef.allInstrs_ne_nil
      · exact ⟨f, hf, Func.intact_iff.2 ⟨hparams, hdef⟩⟩
    · intro f hf
      rcases hdeclares f hf with hstub | ⟨hne, hparams⟩
      · exact .inr hstub
      · have hdef := (hothers f.opened (Array.mem_map_of_mem hf)).resolve_right hne
        exact .inl (Func.intact_iff.2 ⟨hparams, hdef⟩)

theorem Program.Defined.opened (h : p.Defined) : p.opened.Defined :=
  h.mapFunctions (fun _ _ _ hf => hf.opened) fun _ _ hf => hf

theorem Program.Defined.intact (h : p.Defined)
    (hstubs : ∀ f ∈ p.functions, f.allInstrs = [] → f.layout.length = 1) : p.Intact := by
  refine Program.intact_iff.2 ⟨fun f hf => ?_, h.opened⟩
  obtain ⟨callable, -, hothers, -⟩ := h
  rcases hothers f hf with hdef | hempty
  · exact .inr ⟨hdef.allInstrs_ne_nil, hdef.params⟩
  · exact .inl ⟨hempty, hstubs f hf hempty⟩

theorem Program.Built.mapFunctions (h : p.Built) {g : Func → Func}
    (hg : ∀ f ∈ p.functions, f.allInstrs ≠ [] → (g f).allInstrs ≠ []) :
    (p.mapFunctions g).Built := by
  intro f' hf'
  obtain ⟨f, hf, rfl⟩ := Array.mem_map.1 hf'
  exact hg f hf (h f hf)

/-- A change of functions that keeps programs defined and does the same whatever the parameters are
keeps them intact. -/
theorem Program.Intact.mapFunctions (h : p.Intact) {g : Func → Func} (statics : Array Static)
    (hdef : p.opened.Defined → Program.Defined { p.opened.mapFunctions g with statics := statics })
    (hopened : ∀ f ∈ p.functions, (g f).opened = (g f.opened).opened)
    (hparams : ∀ f ∈ p.functions, (g f).params = f.params ∧ f.vregCount ≤ (g f).vregCount)
    (hstub : ∀ f ∈ p.functions, f.IsStub → (g f).IsStub)
    (hbuilt : ∀ f ∈ p.functions, f.allInstrs ≠ [] → (g f).allInstrs ≠ []) :
    Program.Intact { p.mapFunctions g with statics := statics } := by
  obtain ⟨hdeclares, hp⟩ := Program.intact_iff.1 h
  refine Program.intact_iff.2 ⟨fun f' hf' => ?_, ?_⟩
  · obtain ⟨f, hf, rfl⟩ := Array.mem_map.1 hf'
    obtain ⟨hsame, hmore⟩ := hparams f hf
    rcases hdeclares f hf with hf' | ⟨hne, hregs⟩
    · exact .inl (hstub f hf hf')
    · exact .inr ⟨hbuilt f hf hne, fun v hv => Nat.lt_of_lt_of_le (hregs v (hsame ▸ hv)) hmore⟩
  · have hsame : p.functions.map (fun f => (g f).opened) =
        p.functions.map fun f => (g f.opened).opened := Array.map_congr_left hopened
    have hdef' := (hdef hp).opened
    simp only [Program.opened, Program.mapFunctions, Array.map_map] at hdef' ⊢
    change Program.Defined { p with functions := p.functions.map fun f => (g f).opened, statics := _ }
    rw [hsame]
    exact hdef'

end MxStar.IR

namespace MxStar.Pass

open IR List

variable {p q : Program} {b : BlockId} {f : Func}

/-! ## Passes -/

/-- Code for each instruction keeps stubs, and functions that are none. -/
theorem isStub_expandAll (g : Instr → List Instr) (h : f.IsStub) : (f.expandAll g).IsStub := by
  refine ⟨?_, h.2⟩
  rw [Func.allInstrs_expandAll, h.1]
  rfl

theorem allInstrs_expandAll_ne_nil {g : Instr → List Instr} (hg : ∀ i, g i ≠ [])
    (h : f.allInstrs ≠ []) : (f.expandAll g).allInstrs ≠ [] := by
  rw [Func.allInstrs_expandAll]
  intro hnil
  obtain ⟨i, hi⟩ := exists_mem_of_ne_nil _ h
  exact hg i (flatMap_eq_nil_iff.1 hnil i hi)

theorem allInstrs_mapInstrs_ne_nil (g : Instr → Instr) (h : f.allInstrs ≠ []) :
    (f.mapInstrs g).allInstrs ≠ [] := by
  rw [Func.mapInstrs_eq_expandAll]
  exact allInstrs_expandAll_ne_nil (fun i => cons_ne_nil _ _) h

theorem twoOperandInstr_ne_nil (i : Instr) : twoOperandInstr i ≠ [] := by
  unfold twoOperandInstr
  split
  · split <;> simp
  · simp

theorem intact_twoOperand (h : p.Intact) : (twoOperand p).Intact :=
  h.mapFunctions p.statics (fun hp => defined_twoOperand hp) (fun _ _ => rfl)
    (fun _ _ => ⟨rfl, Nat.le_refl _⟩) (fun _ _ hf => isStub_expandAll _ hf)
    fun _ _ hf => allInstrs_expandAll_ne_nil twoOperandInstr_ne_nil hf

theorem intact_renameStatics (h : p.Intact) (g : StaticId → StaticId) (statics : Array Static)
    (hdef : p.opened.Defined → Program.Defined { renameStatics p.opened g with statics := statics }) :
    Program.Intact { renameStatics p g with statics := statics } := by
  refine h.mapFunctions statics hdef (fun _ _ => rfl) (fun _ _ => ⟨rfl, Nat.le_refl _⟩)
    (fun f _ hf => ?_) fun f _ hf => ?_
  · rw [Func.mapInstrs_eq_expandAll]
    exact isStub_expandAll _ hf
  · exact allInstrs_mapInstrs_ne_nil _ hf

theorem referenced_opened (p : Program) : referenced p.opened = referenced p := by
  simp only [referenced, Program.opened, Program.mapFunctions, Array.toList_map, flatMap_map]
  rfl

/-- Replacing instructions changes the blocks only, and does the same whatever the parameters are. -/
theorem expandLayout_eq (f : Func) (g : Instr → List Instr) :
    f.expandLayout g = { f with blocks := f.layout.foldl (fun blocks b => blocks.modify b fun block =>
      { block with instrs := (blocks[b]?.getD { name := "" }).instrs.flatMap g }) f.blocks } := by
  unfold Func.expandLayout
  refine foldl_hom (fun blocks : Array Block => ({ f with blocks := blocks } : Func)) ?_
  exact fun _ _ => rfl

theorem cacheGlobals_opened (statics : Array Static) (f : Func) :
    (cacheGlobals statics f).opened = (cacheGlobals statics f.opened).opened := by
  have hsame : accessed f.opened = accessed f := rfl
  simp only [cacheGlobals, hsame, expandLayout_eq]
  split <;> rfl

theorem params_cacheGlobals (statics : Array Static) (f : Func) :
    (cacheGlobals statics f).params = f.params ∧
      f.vregCount ≤ (cacheGlobals statics f).vregCount := by
  unfold cacheGlobals
  extract_lets globals c hints g
  split
  · exact ⟨rfl, Nat.le_refl _⟩
  · rw [expandLayout_eq]
    refine ⟨rfl, ?_⟩
    change f.hints.size ≤ (f.hints ++ hints.toArray).size
    rw [Array.size_append]
    exact Nat.le_add_right _ _

theorem allInstrs_addEntry_ne_nil (f : Func) (name : String) (code : List Instr) :
    (f.addEntry name code).allInstrs ≠ [] := by
  have hmem : .jump f.entry ∈ (f.addEntry name code).code f.blocks.size := by
    rw [Func.code_addEntry, if_pos rfl]
    exact mem_append_right _ (mem_singleton.2 rfl)
  refine ne_nil_of_mem (mem_allInstrs.2 ⟨f.blocks.size, ?_, hmem⟩)
  rw [Func.size_addEntry]
  exact Nat.lt_succ_self _

theorem allInstrs_cacheGlobals_ne_nil (statics : Array Static) (h : f.allInstrs ≠ []) :
    (cacheGlobals statics f).allInstrs ≠ [] := by
  unfold cacheGlobals
  extract_lets globals c hints g
  split
  · exact h
  · exact allInstrs_addEntry_ne_nil _ _ _

theorem intact_cacheInLeaves (h : p.Intact) : (cacheInLeaves p).Intact := by
  refine h.mapFunctions p.statics (fun hp => defined_cacheInLeaves hp) (fun f _ => ?_)
    (fun f _ => ?_) (fun f _ hstub => ?_) fun f _ hne => ?_
  · by_cases hcalls : f.hasCalls = true
    · rw [if_pos hcalls, if_pos (show f.opened.hasCalls = true from hcalls)]
      rfl
    · rw [if_neg hcalls, if_neg (show ¬f.opened.hasCalls = true from hcalls), cacheGlobals_opened]
  · split
    · exact ⟨rfl, Nat.le_refl _⟩
    · exact params_cacheGlobals p.statics f
  · split
    · exact hstub
    · rw [cacheGlobals_eq_self _ hstub.1]
      exact hstub
  · split
    · exact hne
    · exact allInstrs_cacheGlobals_ne_nil p.statics hne

theorem built_layoutStatics (h : p.Built) : (layoutStatics p).Built := by
  have hcached : (cacheInLeaves p).Built := h.mapFunctions fun f _ hne => by
    split
    · exact hne
    · exact allInstrs_cacheGlobals_ne_nil p.statics hne
  have hrenamed : ∀ {p : Program} (g : StaticId → StaticId), p.Built → (renameStatics p g).Built :=
    fun g h => h.mapFunctions fun _ _ => allInstrs_mapInstrs_ne_nil _
  exact hrenamed _ (hrenamed _ hcached)

theorem intact_layoutStatics (h : p.Intact) : (layoutStatics p).Intact := by
  have hcoalesced : (coalesce (cacheInLeaves p)).Intact :=
    intact_renameStatics (intact_cacheInLeaves h) _ _ fun hp => defined_coalesce hp
  have hkept : (dropUnreferenced (coalesce (cacheInLeaves p))).Intact := by
    refine intact_renameStatics hcoalesced _ _ fun hp => ?_
    have hdef := defined_dropUnreferenced hp
    rw [dropUnreferenced, referenced_opened] at hdef
    exact hdef
  obtain ⟨callable, hcallable, hothers, hentry⟩ := hkept
  have hsize : (layoutStatics p).statics.size =
      (dropUnreferenced (coalesce (cacheInLeaves p))).statics.size := Array.size_mapIdx ..
  rw [← hsize] at hcallable hothers
  exact ⟨callable, hcallable, hothers, hentry⟩

/-! ## Splices -/

section Splice

variable {s : Site} {g : Func}

theorem mem_insertAfter {c : BlockId} {new l : List BlockId} :
    c ∈ insertAfter b new l ↔ c ∈ new ∨ c ∈ l := by
  fun_induction insertAfter b new l with
  | case1 => simp
  | case2 => simp only [cons_append, mem_cons, mem_append]; tauto
  | case3 d rest hd ih => simp only [mem_cons, ih]; tauto

theorem nodup_insertAfter {new l : List BlockId} (hnew : new.Nodup) (hl : l.Nodup)
    (hdisjoint : ∀ c ∈ new, c ∉ l) : (insertAfter b new l).Nodup := by
  fun_induction insertAfter b new l with
  | case1 => exact hnew
  | case2 rest =>
    obtain ⟨hb, hrest⟩ := nodup_cons.1 hl
    refine nodup_cons.2 ⟨fun hmem => ?_, List.Nodup.append hnew hrest fun c hc hcr => ?_⟩
    · exact (mem_append.1 hmem).elim (fun h => hdisjoint _ h mem_cons_self) hb
    · exact hdisjoint c hc (mem_cons_of_mem _ hcr)
  | case3 d rest hd ih =>
    obtain ⟨hdrest, hrest⟩ := nodup_cons.1 hl
    refine nodup_cons.2 ⟨fun hmem => ?_, ih hrest fun c hc hcr => ?_⟩
    · exact (mem_insertAfter.1 hmem).elim (fun h => hdisjoint _ h mem_cons_self) hdrest
    · exact hdisjoint c hc (mem_cons_of_mem _ hcr)

/-- **A splice keeps the layout complete.** -/
theorem Spliced.complete (h : Spliced s g) (hcaller : s.caller.Complete) : g.Complete where
  nodup := by
    rw [h.layout]
    refine nodup_insertAfter nodup_range' hcaller.nodup fun c hc hmem => ?_
    exact absurd ((hcaller.mem_layout c).1 hmem) (Nat.not_lt.2 (mem_range'_1.1 hc).1)
  entry := by
    rw [h.entry, h.size]
    exact Nat.lt_succ_of_lt (Nat.lt_of_lt_of_le hcaller.entry (Nat.le_add_right _ _))
  mem_layout b := by
    rw [h.layout, mem_insertAfter, hcaller.mem_layout, mem_range'_1, h.size]
    have hcount : ∀ x m n : Nat, (m ≤ x ∧ x < m + (n + 1)) ∨ x < m ↔ x < m + n + 1 := by omega
    exact hcount b _ _

/-- Every block from the first of a copy up to the join is the copy of a block. -/
theorem Copy.exists_target_eq {c : Copy} (hnodup : c.order.Nodup) (hle : c.blockBase ≤ b)
    (hlt : b < c.join) : ∃ b' ∈ c.order, c.target b' = b := by
  obtain ⟨k, rfl⟩ := Nat.exists_eq_add_of_le hle
  have hk : k < c.order.length := Nat.lt_of_add_lt_add_left hlt
  have hback : c.order.length - 1 - k < c.order.reverse.length := by
    rw [length_reverse]
    omega
  refine ⟨c.order.reverse[c.order.length - 1 - k], mem_reverse.1 (getElem_mem hback), ?_⟩
  have hplace : c.order.length - 1 - (c.order.length - 1 - k) = k := by omega
  rw [Copy.target, (nodup_reverse.2 hnodup).idxOf_getElem, hplace]

/-- The copy of a transfer of control is code that ends with its only one. -/
theorem endsOnce_instr {i : Instr} (hi : i.isTerminator = true) : EndsOnce (s.copy.instr s.dst i) := by
  cases i with
  | jump t | branch cond l r t e => exact endsOnce_singleton rfl
  | ret v =>
    cases v with
    | none => cases hdst : s.dst <;> exact endsOnce_singleton rfl
    | some v =>
      cases hdst : s.dst with
      | none => exact endsOnce_singleton rfl
      | some d =>
        have hjump : EndsOnce [.jump s.copy.join] := endsOnce_singleton rfl
        exact hjump.prepend [.move d (s.copy.operand v)] (by simp [Instr.isTerminator])
  | _ => cases hi

theorem isTerminator_of_mem_instr {i j : Instr} (hi : i.isTerminator = false)
    (hj : j ∈ s.copy.instr s.dst i) : j.isTerminator = false := by
  cases i with
  | jump | branch | ret => cases hi
  | _ =>
    rw [mem_singleton.1 hj]
    rfl

theorem endsOnce_enter (c : Copy) (args : List Operand) : EndsOnce (c.enter args) := by
  refine (endsOnce_singleton rfl).prepend _ fun i hi => ?_
  obtain ⟨x, -, rfl⟩ := mem_map.1 hi
  rfl

variable {statics : Nat} {callable : FuncId → Prop}

theorem order_copy (hcallee : s.callee.Intact statics callable) : s.copy.order = s.callee.layout := by
  have hnone : (List.range s.callee.blocks.size).filter
      (fun b => !s.callee.layout.contains b) = [] := by
    rw [filter_eq_nil_iff]
    intro b hb
    simpa using (hcallee.layout b).2 (mem_range.1 hb)
  exact (congrArg (s.callee.layout ++ ·) hnone).trans (append_nil _)

theorem Spliced.block_cases (h : Spliced s g) (hcallee : s.callee.Intact statics callable)
    (hb : b < g.blocks.size) :
    b < s.caller.blocks.size ∨ (∃ c, c < s.callee.blocks.size ∧ b = s.copy.target c) ∨
      b = s.copy.join := by
  by_cases hold : b < s.caller.blocks.size
  · exact .inl hold
  by_cases hjoin : b = s.copy.join
  · exact .inr (.inr hjoin)
  have hlt : b < s.copy.join := by
    rw [h.size] at hb
    exact Nat.lt_of_le_of_ne (Nat.le_of_lt_succ hb) hjoin
  have hnodup : s.copy.order.Nodup := order_copy hcallee ▸ hcallee.nodup
  obtain ⟨c, hc, rfl⟩ := s.copy.exists_target_eq hnodup (Nat.le_of_not_lt hold) hlt
  rw [order_copy hcallee] at hc
  exact .inr (.inl ⟨c, (hcallee.layout c).1 hc, rfl⟩)

theorem Spliced.endsOnce (h : Spliced s g) (hcaller : s.caller.Intact statics callable)
    (hcallee : s.callee.Intact statics callable) (hb : b < g.blocks.size) :
    EndsOnce (g.code b) := by
  have hsite := hcaller.ends s.block s.block_lt
  rw [s.code] at hsite
  have hafter := hsite.of_suffix (suffix_append s.before _)
  obtain hold | ⟨c, hc, rfl⟩ | rfl := h.block_cases hcallee hb
  · by_cases hblock : b = s.block
    · rw [hblock, h.head]
      refine (endsOnce_enter s.copy s.args).prepend _ fun i hi => hsite.2 i ?_
      rw [dropLast_append_cons]
      exact mem_append_left _ hi
    · rw [h.other b hold hblock]
      exact hcaller.ends b hold
  · rw [h.copied c (s.copy.mem_order hc)]
    exact endsOnce_flatMap_of_forall (fun i _ => endsOnce_instr)
      (fun i _ hi j => isTerminator_of_mem_instr hi) (hcallee.ends c hc)
  · rw [h.joined]
    exact hafter.2 rfl

/-- **A splice keeps a function intact**, where the function called is. -/
theorem Spliced.intact (h : Spliced s g) (hcaller : s.caller.Intact statics callable)
    (hcallee : s.callee.Intact statics callable) : g.Intact statics callable := by
  have hsize : s.caller.blocks.size ≤ g.blocks.size := by
    rw [h.size]
    exact Nat.le_succ_of_le (Nat.le_add_right _ _)
  have htarget : ∀ c, c < s.callee.blocks.size → s.copy.target c < g.blocks.size := fun c hc => by
    rw [h.size]
    exact Nat.lt_succ_of_lt (s.copy.target_lt (s.copy.mem_order hc))
  have hjoin : s.copy.join < g.blocks.size := h.size ▸ Nat.lt_succ_self _
  have hregs : s.caller.vregCount ≤ g.vregCount := h.vregs ▸ Nat.le_add_right _ _
  have hle : (s.caller.whole statics callable).Le (g.whole statics callable) := {
    regs := hregs
    statics := Nat.le_refl _
    callable := fun _ h => h
    enters := fun b hb => ⟨Nat.lt_of_lt_of_le hb.1 hsize, Set.empty_subset _⟩
    written := fun v hv => Nat.lt_of_lt_of_le hv hregs }
  have hcopied : ∀ v, v < s.callee.vregCount → s.caller.vregCount + v < g.vregCount := fun v hv =>
    h.vregs ▸ Nat.add_lt_add_left hv _
  have hsite : Instr.Within (s.caller.whole statics callable)
      (.call s.dst (.func s.id) s.args s.stackArgs) := by
    refine hcaller.within s.block _ ?_
    rw [s.code]
    exact mem_append_right _ mem_cons_self
  obtain ⟨hnodup, hentry, hlayout⟩ := h.complete ⟨hcaller.nodup, hcaller.entry, hcaller.layout⟩
  refine ⟨hnodup, hlayout, hentry, fun v hv => ?_, fun b hb => h.endsOnce hcaller hcallee hb, ?_⟩
  · rw [h.params] at hv
    exact Nat.lt_of_lt_of_le (hcaller.params v hv) hregs
  · intro b i hi
    obtain ⟨b', hold⟩ | henter | ⟨b', j, hj, hcopy⟩ := h.mem_code hi
    · exact (hcaller.within b' i hold).mono hle
    · rcases mem_append.1 henter with hmove | hjump
      · obtain ⟨⟨v, a⟩, hmem, rfl⟩ := mem_map.1 hmove
        obtain ⟨hv, ha⟩ := of_mem_zip hmem
        exact ⟨hcopied v (hcallee.params v hv), (hsite.2.2 a ha).mono hle⟩
      · rw [mem_singleton.1 hjump]
        exact ⟨htarget _ hcallee.entry, Set.empty_subset _⟩
    · have hwithin := hcallee.within b' j hj
      have himage : ∀ v, (s.callee.whole statics callable).Has v →
          (g.whole statics callable).Has (s.caller.vregCount + v) := fun v hv =>
        ⟨hcopied v hv.1, hcopied v hv.1⟩
      obtain ⟨-, rfl⟩ | rfl | ⟨d, v, hd, rfl, rfl⟩ := mem_instr hcopy
      · exact within_image hwithin h.vregs.ge himage (Nat.le_refl _) (fun _ h => h)
          fun c hc => ⟨htarget c hc.1, Set.empty_subset _⟩
      · exact ⟨hjoin, Set.empty_subset _⟩
      · refine ⟨(hsite.1 d hd).mono hle, ?_⟩
        have hv := hwithin v rfl
        cases v with
        | vreg v => exact himage v hv
        | phys q => exact hv
        | imm w => trivial
        | static n => exact hv

end Splice

/-- Inlining one call keeps a program intact: a function without code has no calls. -/
theorem SplicedIn.intact {s : Site} {g : Func} {fid : FuncId} (h : SplicedIn p q s g fid)
    (hp : p.Intact) : q.Intact := by
  obtain ⟨callable, hcallable, hothers, hentry⟩ := hp
  have hmem : .call s.dst (.func s.id) s.args s.stackArgs ∈ s.caller.code s.block := by
    rw [s.code]
    exact mem_append_right _ mem_cons_self
  have hcaller : s.caller.Intact p.statics.size callable := by
    refine (hothers s.caller (Array.mem_of_getElem? h.caller)).resolve_right fun hstub => ?_
    have hall := mem_allInstrs.2 ⟨s.block, s.block_lt, hmem⟩
    rw [hstub.1] at hall
    cases hall
  obtain ⟨f, hf, hcallee⟩ := hcallable s.id (hcaller.within _ _ hmem).2.1
  obtain rfl : s.callee = f := Option.some.inj (h.callee.symm.trans hf)
  have hg := h.spliced.intact hcaller hcallee
  rw [Program.Intact, h.statics, h.entry]
  refine ⟨callable, fun id hid => ?_, fun f hf => ?_, hentry⟩
  · rw [h.functions]
    split
    · exact ⟨g, rfl, hg⟩
    · exact hcallable id hid
  · obtain ⟨id, hid⟩ := Array.getElem?_of_mem hf
    rw [h.functions] at hid
    split at hid
    · obtain rfl := Option.some.inj hid
      exact .inl hg
    · exact hothers f (Array.mem_of_getElem? hid)

theorem SplicedIn.built {s : Site} {g : Func} {fid : FuncId} (h : SplicedIn p q s g fid)
    (hp : p.Built) : q.Built := by
  intro f hf
  obtain ⟨id, hid⟩ := Array.getElem?_of_mem hf
  rw [h.functions] at hid
  split at hid
  · obtain rfl := Option.some.inj hid
    have hlt : s.block < g.blocks.size := by
      rw [h.spliced.size]
      exact Nat.lt_succ_of_lt (Nat.lt_of_lt_of_le s.block_lt (Nat.le_add_right _ _))
    have hmem : .jump (s.copy.target s.callee.entry) ∈ g.code s.block := by
      rw [h.spliced.head]
      exact mem_append_right _ (mem_append_right _ mem_cons_self)
    exact ne_nil_of_mem (mem_allInstrs.2 ⟨s.block, hlt, hmem⟩)
  · exact hp f (Array.mem_of_getElem? hid)

theorem built_of_inlines (hchain : Relation.ReflTransGen Inlines p q) (h : p.Built) : q.Built := by
  induction hchain with
  | refl => exact h
  | tail _ hlast ih =>
    obtain ⟨s, g, fid, hspliced⟩ := hlast
    exact hspliced.built ih

theorem intact_of_inlines (hchain : Relation.ReflTransGen Inlines p q) (h : p.Intact) :
    q.Intact := by
  induction hchain with
  | refl => exact h
  | tail _ hlast ih =>
    obtain ⟨s, g, fid, hspliced⟩ := hlast
    exact hspliced.intact ih

end MxStar.Pass

namespace MxStar

open IR

variable {p : Program}

/-- The functions of a program that are not built are stubs. -/
theorem Lowering.intact_lowerProgram {tree : Tree.Program} {scope : Scope}
    (hscope : Scope.ofProgram tree = .ok scope) (h : lowerProgram scope tree = .ok p) :
    p.Intact := by
  refine (defined_lowerProgram hscope h).intact fun f hf hempty => ?_
  obtain ⟨env, p1, func, -, hfilled, hfunctions, -, hmakes⟩ := lowerProgram_spec hscope h
  rw [hfunctions] at hf
  rcases Array.mem_push.1 hf with hf | rfl
  · rcases hfilled.others f hf with hdef | ⟨name, label, rfl⟩
    · exact absurd hempty hdef.allInstrs_ne_nil
    · rfl
  · exact absurd hempty hmakes.defined.allInstrs_ne_nil

theorem intact_optimize (options : Options) (h : p.Intact) : (optimize options p).Intact := by
  have htwo := Pass.intact_twoOperand h
  rw [optimize]
  refine Pass.intact_layoutStatics ?_
  split
  · exact Pass.intact_of_inlines (Pass.inlines_inlineCalls {} _) htwo
  · exact htwo

theorem built_optimize (options : Options) (h : p.Built) : (optimize options p).Built := by
  have htwo : (Pass.twoOperand p).Built :=
    h.mapFunctions fun _ _ => Pass.allInstrs_expandAll_ne_nil Pass.twoOperandInstr_ne_nil
  rw [optimize]
  refine Pass.built_layoutStatics ?_
  split
  · exact Pass.built_of_inlines (Pass.inlines_inlineCalls {} _) htwo
  · exact htwo

/-- **What the compiler hands to the back end is intact**, with or without inlining. -/
theorem intact_compileToIR {tree : Tree.Program} {scope : Scope} {options : Options}
    (hscope : Scope.ofProgram tree = .ok scope) (h : compileToIR scope options tree = .ok p) :
    p.Intact := by
  obtain ⟨unit, hunit, h⟩ := Except.bind_eq_ok.1 h
  cases h
  exact intact_optimize options (Lowering.intact_lowerProgram hscope hunit)

end MxStar

namespace MxStar.Alloc

open IR

/-! ## The calling convention -/

theorem computeFlow_stub {f : Func} (h : f.IsStub) :
    ∃ b, f.computeFlow = .error (.violation (.fallsOff b f.name)) := by
  obtain ⟨hempty, hlayout⟩ := h
  obtain ⟨b, hb⟩ := List.length_eq_one_iff.1 hlayout
  have hcode : (f.block b).instrs = [] := by
    rw [List.eq_nil_iff_forall_not_mem]
    intro i hi
    obtain ⟨block, hblock, hmem⟩ := Func.mem_code (f := f) (b := b) hi
    have hall : i ∈ f.allInstrs := List.mem_flatMap.2 ⟨block, Array.mem_toList_iff.2 hblock, hmem⟩
    rw [hempty] at hall
    cases hall
  have hopen : (f.block b).isTerminated = false := by
    rw [Block.isTerminated, Block.terminator?, hcode]
    rfl
  refine ⟨b, ?_⟩
  rw [Func.computeFlow, hb, Func.closeBlocks, hopen]
  rfl

theorem complete_of_built {p : Program} (h : p.Intact) (hbuilt : p.Built) : p.Complete := by
  obtain ⟨callable, hcallable, hothers, -⟩ := h
  have hlt : ∀ id, callable id → id < p.functions.size := fun id hid => by
    obtain ⟨f, hf, -⟩ := hcallable id hid
    exact (Array.getElem?_eq_some_iff.1 hf).1
  intro f hf
  have hintact : f.Intact p.statics.size callable :=
    (hothers f hf).resolve_right fun hstub => hbuilt f hf hstub.1
  have hle : (f.whole p.statics.size callable).Le (f.whole p.statics.size (· < p.functions.size)) :=
    ⟨Nat.le_refl _, Nat.le_refl _, hlt, fun _ hb => hb, subset_rfl⟩
  exact { hintact with within := fun b i hi => (hintact.within b i hi).mono hle }

/-- The convention can be made explicit only where every function is built. -/
theorem complete_of_conventional {p q : Program} (h : p.Intact) (hq : conventional p = .ok q) :
    p.Complete := by
  refine complete_of_built h fun f hf hempty => ?_
  obtain ⟨gs, hgs, -⟩ := Except.bind_eq_ok.1 hq
  have hstub : f.IsStub := by
    obtain ⟨callable, -, hothers, -⟩ := h
    refine (hothers f hf).resolve_left fun hintact => ?_
    exact absurd hempty (Func.intact_iff.1 hintact).2.allInstrs_ne_nil
  obtain ⟨id, hid⟩ := List.getElem?_of_mem (Array.mem_toList_iff.2 hf)
  obtain ⟨g, -, hg⟩ := forall₂_getElem? (mapM_eq_ok_iff.1 hgs) hid
  obtain ⟨b, hb⟩ := computeFlow_stub hstub
  rw [applyConvention, hb] at hg
  cases hg

theorem within_successors {K : Known} {i : Instr} (hi : i.Within K) {t : BlockId}
    (ht : t ∈ i.successors) : K.Enters t := by
  cases i with
  | jump u =>
    rw [List.mem_singleton.1 ht]
    exact hi
  | branch cond l r u e =>
    have hmem : t = u ∨ t = e := by
      simp only [Instr.successors] at ht
      split at ht <;> simp_all
    rcases hmem with rfl | rfl
    · exact hi.2.2.1
    · exact hi.2.2.2
  | _ => cases ht

section Complete

variable {p : Program} (h : p.Complete)

include h

/-- In a complete program jumps stay among the blocks that are emitted. -/
theorem shaped_of_complete : ∀ f ∈ p.functions, f.Shaped := by
  intro f hf
  have hintact := h f hf
  have hin : ∀ b, b ∈ f.layout → b < f.blocks.size := fun b => (hintact.layout b).1
  refine ⟨hintact.nodup, (hintact.layout _).2 hintact.entry, hin,
    fun b hb => hintact.ends b (hin b hb), fun b hb t ht => ?_⟩
  obtain ⟨init, last, hcode, hterm, -⟩ := (hintact.ends b (hin b hb)).split
  rw [EndsOnce.targets hcode hterm] at ht
  have hlast := hintact.within b last (by simp [hcode])
  exact (hintact.layout t).2 (within_successors hlast ht).1

theorem noPush_of_complete : NoPush p := by
  intro f hf b hb i hi v heq
  have hwithin := (h f hf).within b i hi
  rw [heq] at hwithin
  exact hwithin

theorem noPhysRegs_of_complete : NoPhysRegs p := by
  intro f hf b hb i hi o ho q hq
  rw [hq] at ho
  exact (Pass.within_operands ((h f hf).within b i hi) _ ho).elim id id

end Complete

end MxStar.Alloc
