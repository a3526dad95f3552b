import MxStar.Proofs.ColoringRuns
import MxStar.Proofs.SpillingRuns

/-!
Allocation keeps what a program does, where the calling convention is explicit and functions start with
no register defined.

An allocation goes through spilled forms of the function to one that it colours (`allocateFrom_spec`).
The rounds of all functions are put into one sequence of programs (`forall₂_reflTransGen`).
-/
namespace MxStar.Alloc

open IR Interp List

variable {arity : FuncId → Nat} {palette : List PhysReg} {fs gs : List Func} {f g : Func}
  {p : Program} {c : Coloring} {id : FuncId}

/-! ## Rounds -/

def SpilledForm (f g : Func) : Prop := g.params = f.params ∧ ∃ slots, Spilled slots f g

theorem SpilledForm.refl (f : Func) : SpilledForm f f := by
  have hslots : ∀ v, (Slots.mk f.slots ∅).get? v = none := fun _ => rfl
  have hto : ∀ n i, SpillsTo ⟨f.slots, ∅⟩ n n i [i] := by
    intro n i
    have hrename : i.mapOperands (renameVReg id) = i :=
      mapOperands_eq_self fun o _ => renameVReg_of_keep fun _ _ => rfl
    have hstore : spillStore ⟨f.slots, ∅⟩ id i = [] := by
      unfold spillStore
      split
      · simp [hslots]
      · rfl
    have h := @SpillsTo.general ⟨f.slots, ∅⟩ n n i id [] ⟨fun _ _ => rfl, by simp [hslots],
      by simp [hslots]⟩ nodup_nil (by simp [hslots])
    rwa [hrename, hstore] at h
  have hcode : ∀ n (code : List Instr), Replaced (SpillsTo ⟨f.slots, ∅⟩ n n) code code := by
    intro n code
    induction code with
    | nil => exact .nil
    | cons i code ih => exact .cons (hto n i) ih
  exact ⟨rfl, ⟨f.slots, ∅⟩, {
    label := rfl
    base := rfl
    frame := rfl
    entry := rfl
    layout := rfl
    vregs := Nat.le_refl _
    size := rfl
    block := fun _ => rfl
    code := fun _ _ => hcode _ _ }⟩

theorem mem_operands_flatMap (h : uncoloured c f = []) {b : BlockId} (hb : b ∈ f.layout) {i : Instr}
    (hi : i ∈ f.code b) {v : VReg} (hv : .vreg v ∈ i.operands) : ∃ q, c.get? v = some q := by
  cases hq : c.get? v with
  | some q => exact ⟨q, rfl⟩
  | none =>
    have hmem : v ∈ uncoloured c f := by
      refine mem_filterMap.2 ⟨.vreg v, ?_, ?_⟩
      · exact mem_flatMap.2 ⟨i, mem_flatMap.2 ⟨b, hb, hi⟩, hv⟩
      · simp [Operand.vreg?, hq]
    simp [h] at hmem

theorem coloured_applyColoring (hf : f.Shaped) (hpal : ∀ q ∈ palette, q ∈ PhysReg.allocatable)
    {unspillable : SortedSet VReg} (hc : color (.build f (analyze f)) palette unspillable = .ok c)
    (hu : uncoloured c f = []) : Coloured f (applyColoring c f) c := by
  have hspec := Func.rewrite_spec (·.map (·.mapOperands (colorOperand c))) f.layout f hf.nodup
    hf.blocks
  have heq : applyColoring c f = Func.rewrite (·.map (·.mapOperands (colorOperand c))) f.layout f :=
    rfl
  refine {
    apart := fun b hb i post hs x y hclash hne hvirt q hq =>
      color_clash hc hb hs hclash hne hvirt hq
    total := fun b hb i hi v hv => mem_operands_flatMap hu hb hi hv
    palette := fun v q hq => hpal q ((color_valid hc).palette v q hq)
    code := fun b hb => ?_
    entry := ?_
    slots := ?_ }
  · rw [heq, Func.code_rewrite hf.nodup hf.blocks hb]
  · rw [heq, hspec.1]
  · rw [heq, hspec.1]

/-- An allocation that succeeds spills some registers and colours what comes of that. -/
theorem allocateFrom_spec (hpal : ∀ q ∈ palette, q ∈ PhysReg.allocatable) {n : Nat} {fuel : Nat}
    {unspillable : SortedSet VReg} {stats stats' : Stats} (hf : Settled n f)
    (h : allocateFrom palette fuel f unspillable stats = .ok (g, stats')) :
    ∃ f' c, Relation.ReflTransGen SpilledForm f f' ∧ Settled n f' ∧ Coloured f' g c := by
  induction fuel generalizing f unspillable stats with
  | zero => cases h
  | succ fuel ih =>
    simp only [allocateFrom] at h
    split at h
    · next c hc =>
      split at h
      · cases h
      · next hu =>
        cases h
        exact ⟨f, c, .refl, hf,
          coloured_applyColoring hf.shaped hpal hc (getLast?_eq_none_iff.1 hu)⟩
    · next spills hc =>
      split at h
      · cases h
      · have hs := spilled_spillRegs hf.shaped spills unspillable
        obtain ⟨f', c, hsteps, hset, hcol⟩ := ih (hs.settled hf) h
        exact ⟨f', c, .head ⟨params_spillRegs hf.shaped .., _, hs⟩ hsteps, hset, hcol⟩

/-! ## Functions without parameters -/

/-- The function without its parameters. Where the entry block binds them, nothing else looks at
them. -/
def bare (f : Func) : Func := { f with params := [] }

theorem Settled.bare {n : Nat} (h : Settled n f) : Settled n (bare f) where
  shaped := ⟨h.shaped.nodup, h.shaped.entry, h.shaped.blocks, h.shaped.ends, h.shaped.targets⟩
  flows := ⟨h.flows.nodup, h.flows.blocks, h.flows.succs, h.flows.closed, h.flows.preds,
    h.flows.preds_mem⟩
  entered := h.entered
  regs := h.regs
  abides := h.abides
  quiet := h.quiet
  opening := h.opening

theorem SpilledForm.bare (h : SpilledForm f g) : SpilledForm (bare f) (bare g) := by
  obtain ⟨-, slots, h⟩ := h
  exact ⟨rfl, slots, h.label, h.base, h.frame, h.entry, h.layout, h.vregs, h.size, h.block, h.code⟩

theorem Coloured.bare (h : Coloured f g c) : Coloured (bare f) g c := by
  have hlive : analyze (Alloc.bare f) = analyze f := analyze_congr rfl rfl
  refine ⟨?_, h.total, h.palette, h.code, h.entry, h.slots⟩
  rw [hlive]
  exact h.apart

/-! ## Programs -/

theorem forall₂_getElem? {α β : Type} {R : α → β → Prop} {as : List α} {bs : List β}
    (h : List.Forall₂ R as bs) {k : Nat} {a : α} (ha : as[k]? = some a) :
    ∃ b, bs[k]? = some b ∧ R a b := by
  induction h generalizing k with
  | nil => simp at ha
  | cons h _ ih =>
    cases k with
    | zero =>
      simp only [getElem?_cons_zero, Option.some.injEq] at ha
      exact ⟨_, rfl, ha ▸ h⟩
    | succ k => exact ih (by simpa using ha)

theorem forall₂_trans {α β γ : Type} {R : α → β → Prop} {S : β → γ → Prop} {as : List α} {bs : List β}
    {cs : List γ} (h : List.Forall₂ R as bs) (h' : List.Forall₂ S bs cs) :
    List.Forall₂ (fun a c => ∃ b, R a b ∧ S b c) as cs := by
  induction h generalizing cs with
  | nil =>
    cases h'
    exact .nil
  | cons hab _ ih =>
    obtain ⟨c, cs', hbc, hrest, rfl⟩ := forall₂_cons_left_iff.1 h'
    exact .cons ⟨_, hab, hbc⟩ (ih hrest)

theorem forall₂_reflTransGen {α : Type} {R : α → α → Prop} (hrefl : ∀ a, R a a) {as bs : List α}
    (h : List.Forall₂ (Relation.ReflTransGen R) as bs) :
    Relation.ReflTransGen (List.Forall₂ R) as bs := by
  induction h with
  | nil => exact .refl
  | cons h _ ih =>
    rename_i a b as bs _
    have hhead : Relation.ReflTransGen (List.Forall₂ R) (a :: as) (b :: as) :=
      h.lift (· :: as) fun _ _ hr => .cons hr (forall₂_same.2 fun a _ => hrefl a)
    have htail : Relation.ReflTransGen (List.Forall₂ R) (b :: as) (b :: bs) :=
      ih.lift (b :: ·) fun _ _ hr => .cons (hrefl b) hr
    exact hhead.trans htail

def withFunctions (p : Program) (fs : List Func) : Program := { p with functions := fs.toArray }

theorem functions_withFunctions :
    (withFunctions p fs).functions[id]? = some f ↔ fs[id]? = some f := by
  simp [withFunctions]

def BareProgram (arity : FuncId → Nat) (p : Program) : Prop :=
  SettledProgram arity p ∧ ∀ (id : FuncId) (f : Func), p.functions[id]? = some f → f.params = []

theorem simulatesCall_spilled (hp : BareProgram arity (withFunctions p fs))
    (h : List.Forall₂ SpilledForm fs gs) (id : FuncId) (args : List Word) :
    SimulatesCall (withFunctions p fs) (withFunctions p gs) (ConfigInStep (withFunctions p fs)) id args := by
  have hq : ∀ (id : FuncId) (f : Func), (withFunctions p fs).functions[id]? = some f →
      ∃ g slots, (withFunctions p gs).functions[id]? = some g ∧ Spilled slots f g := by
    intro id f hf
    obtain ⟨g, hg, -, slots, hs⟩ := forall₂_getElem? h (functions_withFunctions.1 hf)
    exact ⟨g, slots, functions_withFunctions.2 hg, hs⟩
  refine ⟨simulates_spilled hp.1.routed hp.2 hq, fun f hf input => ?_⟩
  obtain ⟨g, slots, hg, hs⟩ := hq id f hf
  exact ⟨g, hg, rfl, frameInStep_enter hp.1.routed hp.2 hf hs args, .nil⟩

theorem BareProgram.spilled (hp : BareProgram arity (withFunctions p fs))
    (h : List.Forall₂ SpilledForm fs gs) : BareProgram arity (withFunctions p gs) := by
  have hback : ∀ (id : FuncId) (g : Func), (withFunctions p gs).functions[id]? = some g →
      ∃ f slots, (withFunctions p fs).functions[id]? = some f ∧ g.params = f.params ∧
        Spilled slots f g := by
    intro id g hg
    obtain ⟨f, hf, hparams, slots, hs⟩ := forall₂_getElem? h.flip (functions_withFunctions.1 hg)
    exact ⟨f, slots, functions_withFunctions.2 hf, hparams, hs⟩
  constructor
  · intro id g hg
    obtain ⟨f, slots, hf, -, hs⟩ := hback id g hg
    obtain ⟨hset, hcalls⟩ := hp.1 id f hf
    refine ⟨hs.settled hset, fun b hb dst callee args n hj => ?_⟩
    exact hcalls b (hs.layout ▸ hb) dst callee args n (hs.call_mem hset hb hj)
  · intro id g hg
    obtain ⟨f, slots, hf, hparams, -⟩ := hback id g hg
    exact hparams.trans (hp.2 id f hf)

theorem simulatesCall_coloured (hp : BareProgram arity (withFunctions p fs))
    (h : List.Forall₂ (fun f g => ∃ c, Coloured f g c) fs gs) {args : List Word}
    (hargs : min (arity id) PhysReg.params.length ≤ args.length) :
    SimulatesCall (withFunctions p fs) (withFunctions p gs) (Tinted (withFunctions p fs)) id args := by
  have hq : ∀ (id : FuncId) (f : Func), (withFunctions p fs).functions[id]? = some f →
      ∃ g c, (withFunctions p gs).functions[id]? = some g ∧ Coloured f g c := by
    intro id f hf
    obtain ⟨g, hg, c, hc⟩ := forall₂_getElem? h (functions_withFunctions.1 hf)
    exact ⟨g, c, functions_withFunctions.2 hg, hc⟩
  refine ⟨simulates_coloured hp.1 hp.2 hq, fun f hf input => ?_⟩
  obtain ⟨g, c, hg, hc⟩ := hq id f hf
  exact ⟨g, hg, tinted_enter hp.1 hp.2 hf hc hargs rfl .nil⟩

/-- An allocation of all functions spills registers in each of them and colours what comes of that.
-/
theorem exists_rounds (hpal : ∀ q ∈ palette, q ∈ PhysReg.allocatable) {rs : List (Func × Stats)}
    (hset : ∀ f ∈ fs, ∃ n, Settled n f)
    (h : List.Forall₂ (fun f r => allocate palette f = .ok r) fs rs) :
    ∃ fs', List.Forall₂ (Relation.ReflTransGen SpilledForm) (fs.map bare) fs' ∧
      List.Forall₂ (fun f g => ∃ c, Coloured f g c) fs' (rs.map (·.1)) := by
  induction h with
  | nil => exact ⟨[], .nil, .nil⟩
  | cons h _ ih =>
    obtain ⟨fs', hrounds, hcols⟩ := ih fun f hf => hset f (mem_cons_of_mem _ hf)
    obtain ⟨n, hn⟩ := hset _ mem_cons_self
    obtain ⟨f', c, hsteps, -, hcol⟩ := allocateFrom_spec hpal hn h
    exact ⟨bare f' :: fs', .cons (hsteps.lift bare fun _ _ => SpilledForm.bare) hrounds,
      .cons ⟨c, hcol.bare⟩ hcols⟩

theorem SettledProgram.bareProgram (hp : SettledProgram arity p) :
    BareProgram arity (withFunctions p (p.functions.toList.map bare)) := by
  have hbare : ∀ (id : FuncId) (g : Func),
      (withFunctions p (p.functions.toList.map bare)).functions[id]? = some g →
      ∃ f, p.functions[id]? = some f ∧ g = bare f := by
    intro id g hg
    rw [functions_withFunctions, getElem?_map, Option.map_eq_some_iff] at hg
    obtain ⟨f, hf, rfl⟩ := hg
    exact ⟨f, by simpa using hf, rfl⟩
  constructor
  · intro id g hg
    obtain ⟨f, hf, rfl⟩ := hbare id g hg
    obtain ⟨hset, hcalls⟩ := hp id f hf
    exact ⟨hset.bare, hcalls⟩
  · intro id g hg
    obtain ⟨f, -, rfl⟩ := hbare id g hg
    rfl

/-- What spilling and colouring keep holds of an allocated program, if it does of the program without
parameters. -/
theorem allocated_induct {P : Program → Prop} (hpal : ∀ q ∈ palette, q ∈ PhysReg.allocatable)
    {p' : Program} {stats : List Stats} (hp : SettledProgram arity p)
    (h : allocated palette p = .ok (p', stats))
    (hP : P (withFunctions p (p.functions.toList.map bare)))
    (hspill : ∀ {fs gs}, BareProgram arity (withFunctions p fs) → List.Forall₂ SpilledForm fs gs →
      P (withFunctions p fs) → P (withFunctions p gs))
    (hcolor : ∀ {fs gs}, BareProgram arity (withFunctions p fs) →
      List.Forall₂ (fun f g => ∃ c, Coloured f g c) fs gs →
      P (withFunctions p fs) → P (withFunctions p gs)) : P p' := by
  obtain ⟨rs, hrs, hp'⟩ := Except.bind_eq_ok.1 h
  cases hp'
  have hset : ∀ f ∈ p.functions.toList, ∃ n, Settled n f := by
    intro f hf
    obtain ⟨id, hid⟩ := getElem?_of_mem hf
    exact ⟨arity id, (hp id f (by simpa using hid)).1⟩
  obtain ⟨fs', hrounds, hcols⟩ := exists_rounds hpal hset (mapM_eq_ok_iff.1 hrs)
  have hlast : ∀ fs', Relation.ReflTransGen (List.Forall₂ SpilledForm)
      (p.functions.toList.map bare) fs' → BareProgram arity (withFunctions p fs') ∧
        P (withFunctions p fs') := by
    intro fs' hrounds
    induction hrounds with
    | refl => exact ⟨hp.bareProgram, hP⟩
    | tail _ hround ih => exact ⟨ih.1.spilled hround, hspill ih.1 hround ih.2⟩
  obtain ⟨hbare, hP'⟩ := hlast fs' (forall₂_reflTransGen SpilledForm.refl hrounds)
  exact hcolor hbare hcols hP'

/-- **Allocation keeps the outcome**, from the program without parameters on. -/
theorem callEnds_allocated (hpal : ∀ q ∈ palette, q ∈ PhysReg.allocatable) {p' : Program}
    {stats : List Stats} (hp : SettledProgram arity p) (h : allocated palette p = .ok (p', stats))
    {args : List Word} (hargs : min (arity id) PhysReg.params.length ≤ args.length) {input : String}
    {o : Except RunError Outcome} (ho : Definite o)
    (hends : CallEnds (withFunctions p (p.functions.toList.map bare)) id args input o) :
    CallEnds p' id args input o :=
  allocated_induct (P := fun q => CallEnds q id args input o) hpal hp h hends
    (fun hp hs => (simulatesCall_spilled hp hs id args).callEnds ho)
    (fun hp hc => (simulatesCall_coloured hp hc hargs).callEnds ho)

end MxStar.Alloc
