import MxStar.Proofs.AllocationRuns
import MxStar.Proofs.ConventionalFunctions

/-!
The stack within a function.

Once the calling convention is explicit, the words that a block pushes are the ones that its calls take off
(`Balanced`), provided that the program pushes nothing on its own. Allocation keeps that (`Stacked`).
-/
namespace MxStar.Alloc

open IR List

variable {code new pre rest : List Instr} {hi lo n : Nat} {palette : List PhysReg} {f g : Func}
  {stats : List Stats} {i : Instr} {p q r : Program} {slots : Slots}

/-! ## Balanced code -/

def usesStack : Instr → Bool
  | .push _ | .call .. => true
  | _ => false

/-- After `n` words have been pushed, every call takes off what has been pushed until then, and
nothing is left at the end. -/
def Balanced : Nat → List Instr → Prop
  | n, [] => n = 0
  | n, .push _ :: rest => Balanced (n + 1) rest
  | n, .call _ _ _ k :: rest => k = n ∧ Balanced 0 rest
  | n, _ :: rest => Balanced n rest

theorem balanced_cons (hi : usesStack i = false) : Balanced n (i :: rest) ↔ Balanced n rest := by
  cases i with
  | push | call => cases hi
  | _ => exact Iff.rfl

theorem balanced_append (hpre : ∀ i ∈ pre, usesStack i = false) :
    Balanced n (pre ++ rest) ↔ Balanced n rest := by
  induction pre with
  | nil => exact Iff.rfl
  | cons i pre ih =>
    rw [forall_mem_cons] at hpre
    rw [cons_append, balanced_cons hpre.1, ih hpre.2]

/-- Where something is on the stack, there is a call to take it off. -/
theorem Balanced.exists_call (h : Balanced n code) (hn : n ≠ 0 ∨ ∃ v, .push v ∈ code) :
    ∃ i ∈ code, i.isCall = true := by
  induction code generalizing n with
  | nil =>
    obtain hn | ⟨v, hv⟩ := hn
    · exact absurd h hn
    · cases hv
  | cons i code ih =>
    by_cases hcall : i.isCall
    · exact ⟨i, mem_cons_self, hcall⟩
    · have hrest : ∃ m, Balanced m code ∧ (m ≠ 0 ∨ ∃ v, .push v ∈ code) := by
        cases i with
        | push v => exact ⟨n + 1, h, .inl (Nat.succ_ne_zero n)⟩
        | call => exact absurd rfl hcall
        | _ =>
          refine ⟨n, h, hn.imp_right fun ⟨v, hv⟩ => ⟨v, ?_⟩⟩
          rcases mem_cons.1 hv with hv | hv
          · cases hv
          · exact hv
      obtain ⟨m, hm, hpushed⟩ := hrest
      obtain ⟨j, hj, hcall⟩ := ih hm hpushed
      exact ⟨j, mem_cons_of_mem _ hj, hcall⟩

/-! ## The convention -/

theorem Prepares.usesStack {P : Operand → Prop} {v o : Operand} (h : Prepares P lo hi v o pre) :
    ∀ j ∈ pre, usesStack j = false := by
  cases h with
  | keep => simp
  | temp => simp [Alloc.usesStack]

/-- An instruction that neither calls nor pushes becomes code that does not. -/
theorem Part.usesStack {j : Instr} (h : Part i j) (hi : usesStack i = false) :
    Alloc.usesStack j = false := by
  cases h with
  | setup h => cases h <;> rfl
  | push hcall =>
    cases i with
    | call => cases hi
    | _ => cases hcall
  | call heq =>
    subst heq
    cases hi
  | same => exact hi
  | _ => rfl

theorem Pushes.balanced {args : List Operand} (h : Pushes hi lo args new) :
    Balanced n (new ++ rest) ↔ Balanced (n + args.length) rest := by
  induction h generalizing n with
  | nil => exact Iff.rfl
  | cons ha _ _ _ ih =>
    rw [append_assoc, balanced_append ha.usesStack, length_cons, Nat.add_comm _ 1,
      ← Nat.add_assoc]
    exact ih

theorem balanced_padding {stack : List Operand} :
    Balanced 0 (padding stack ++ rest) ↔ Balanced (stack.length % 2) rest := by
  rw [padding]
  split
  · next hodd =>
    rw [hodd]
    exact Iff.rfl
  · next heven =>
    rw [show stack.length % 2 = 0 by omega]
    exact Iff.rfl

theorem usesStack_map {α : Type} {f : α → Instr} {xs : List α} (h : ∀ x, usesStack (f x) = false) :
    ∀ j ∈ xs.map f, usesStack j = false := forall_mem_map.2 fun x _ => h x

/-- The code that stands for an instruction takes off what it pushes. -/
theorem Conforms.balanced (h : Conforms lo hi i new) (hi : ∀ v, i ≠ .push v)
    (hrest : Balanced 0 rest) : Balanced 0 (new ++ rest) := by
  by_cases hstack : usesStack i = false
  · exact (balanced_append fun j hj => (h.part j hj).usesStack hstack).2 hrest
  cases h with
  | call h =>
    rw [append_assoc, append_assoc, append_assoc, balanced_padding, h.balanced, argMoves,
      balanced_append (usesStack_map fun _ => rfl), cons_append]
    refine ⟨?_, (balanced_append (usesStack_map fun _ => rfl)).2 hrest⟩
    rw [stackWords, length_reverse, Nat.add_comm]
  | same h =>
    rcases h with ⟨d, s, rfl⟩ | ⟨s, rfl⟩ | ⟨t, rfl⟩ | rfl
    · exact absurd rfl hstack
    · exact absurd rfl (hi s)
    · exact absurd rfl hstack
    · exact absurd rfl hstack
  | _ => exact absurd rfl hstack

theorem balanced_conforms {code' : List Instr} (h : Replaced (Conforms lo hi) code code')
    (hno : ∀ i ∈ code, ∀ v, i ≠ .push v) : Balanced 0 code' := by
  induction h with
  | nil => exact rfl
  | cons h _ ih =>
    rw [forall_mem_cons] at hno
    exact h.balanced hno.1 (ih hno.2)

/-! ## Spilling and colouring -/

theorem balanced_mapOperands_cons {σ : Operand → Operand} {rest' : List Instr}
    (hrest : ∀ n, Balanced n rest ↔ Balanced n rest') :
    Balanced n (i.mapOperands σ :: rest) ↔ Balanced n (i :: rest') := by
  cases i with
  | push => exact hrest _
  | call => exact and_congr_right fun _ => hrest _
  | _ => exact hrest n

theorem usesStack_spillStore {τ : VReg → VReg} : ∀ j ∈ spillStore slots τ i, usesStack j = false := by
  intro j hj
  obtain ⟨d, -, -, rfl⟩ := mem_spillStore hj
  rfl

theorem SpillsTo.balanced {rest' : List Instr} (h : SpillsTo slots lo hi i new)
    (hrest : ∀ n, Balanced n rest ↔ Balanced n rest') (n : Nat) :
    Balanced n (new ++ rest) ↔ Balanced n (i :: rest') := by
  cases h with
  | store heq | load heq =>
    rw [heq]
    exact hrest n
  | general =>
    rw [append_assoc, balanced_append (usesStack_map fun _ => rfl), cons_append]
    exact balanced_mapOperands_cons fun n => (balanced_append usesStack_spillStore).trans (hrest n)

theorem balanced_spilled {code' : List Instr} (h : Replaced (SpillsTo slots lo hi) code code')
    (n : Nat) : Balanced n code' ↔ Balanced n code := by
  induction h generalizing n with
  | nil => exact Iff.rfl
  | cons h _ ih => exact h.balanced ih n

theorem balanced_map (σ : Operand → Operand) (code : List Instr) (n : Nat) :
    Balanced n (code.map (·.mapOperands σ)) ↔ Balanced n code := by
  induction code generalizing n with
  | nil => exact Iff.rfl
  | cons i code ih => exact balanced_mapOperands_cons ih

/-! ## Functions -/

/-- A function with a proper shape whose blocks are balanced. -/
structure Stacked (f : Func) : Prop where
  shaped : f.Shaped
  balanced : ∀ b ∈ f.layout, Balanced 0 (f.code b)

def NoPush (p : Program) : Prop := ∀ f ∈ p.functions, f.Every fun i => ∀ v, i ≠ .push v

theorem Conventional.stacked (h : Conventional f g) (hno : f.Every fun i => ∀ v, i ≠ .push v) :
    Stacked g where
  shaped := h.shaped
  balanced := by
    intro b hb
    by_cases hentry : b = g.entry
    · have hbindings : ∀ j ∈ bindings f.params.zipIdx, usesStack j = false := by
        intro j hj
        obtain ⟨⟨v, k⟩, -, rfl⟩ := mem_map.1 hj
        show usesStack (bindParam v k) = false
        rw [bindParam]
        split <;> rfl
      rw [hentry, h.opening]
      exact (balanced_append hbindings).2 rfl
    · exact balanced_conforms (h.code b hb hentry) (hno b (h.layout b hb hentry))

theorem Spilled.stacked (h : Spilled slots f g) (hf : Stacked f) : Stacked g where
  shaped := h.shaped hf.shaped
  balanced := fun b hb => (balanced_spilled (h.code b (h.layout ▸ hb)) 0).2
    (hf.balanced b (h.layout ▸ hb))

section Coloring

variable {f : Func} (hf : f.Shaped) (c : Coloring)

include hf

theorem applyColoring_eq : applyColoring c f = { f with blocks := (applyColoring c f).blocks } :=
  ((Func.rewrite_spec (·.map (·.mapOperands (colorOperand c))) f.layout f hf.nodup hf.blocks).1 :)

theorem layout_applyColoring : (applyColoring c f).layout = f.layout :=
  (congrArg Func.layout (applyColoring_eq hf c) :)

theorem entry_applyColoring : (applyColoring c f).entry = f.entry :=
  (congrArg Func.entry (applyColoring_eq hf c) :)

theorem slots_applyColoring : (applyColoring c f).slots = f.slots :=
  (congrArg Func.slots (applyColoring_eq hf c) :)

theorem label_applyColoring : (applyColoring c f).label = f.label :=
  (congrArg Func.label (applyColoring_eq hf c) :)

theorem code_applyColoring {b : BlockId} (hb : b ∈ f.layout) :
    (applyColoring c f).code b = (f.code b).map (·.mapOperands (colorOperand c)) :=
  Func.code_rewrite hf.nodup hf.blocks hb

theorem ends_applyColoring {b : BlockId} (hb : b ∈ f.layout) :
    EndsOnce ((applyColoring c f).code b) ∧
      ((applyColoring c f).block b).targets = (f.block b).targets := by
  have hcode := code_applyColoring hf c hb
  have hf' := hf.ends b hb
  have hg : EndsOnce ((applyColoring c f).code b) := by
    obtain ⟨init, last, hsplit, hlast, hinit⟩ := hf'.split
    rw [hcode, hsplit, map_append, map_singleton]
    refine ⟨⟨_, getLast?_concat, ?_⟩, ?_⟩
    · rw [isTerminator_mapOperands, hlast]
    · rw [dropLast_concat, forall_mem_map]
      intro i hi
      rw [isTerminator_mapOperands]
      exact hinit i hi
  refine ⟨hg, EndsOnce.targets_congr hf' hg ?_⟩
  change ((applyColoring c f).code b).getLast?.map _ = (f.code b).getLast?.map _
  rw [hcode, getLast?_map, Option.map_map]
  exact congrArg (Option.map · _) (funext fun i => successors_mapOperands _ i)

theorem shaped_applyColoring : (applyColoring c f).Shaped := by
  have hlayout := layout_applyColoring hf c
  refine ⟨?_, ?_, ?_, ?_, ?_⟩
  · exact hlayout ▸ hf.nodup
  · rw [hlayout, entry_applyColoring hf]
    exact hf.entry
  · intro b hb
    have hsize := (Func.rewrite_spec (·.map (·.mapOperands (colorOperand c))) f.layout f hf.nodup
      hf.blocks).2.1
    exact hsize.symm ▸ hf.blocks b (hlayout ▸ hb)
  · exact fun b hb => (ends_applyColoring hf c (hlayout ▸ hb)).1
  · intro b hb t ht
    rw [(ends_applyColoring hf c (hlayout ▸ hb)).2] at ht
    exact hlayout ▸ hf.targets b (hlayout ▸ hb) t ht

end Coloring

theorem stacked_applyColoring (hf : Stacked f) (c : Coloring) : Stacked (applyColoring c f) where
  shaped := shaped_applyColoring hf.shaped c
  balanced := by
    intro b hb
    rw [layout_applyColoring hf.shaped] at hb
    rw [code_applyColoring hf.shaped c hb, balanced_map]
    exact hf.balanced b hb

/-- What spilling keeps holds of the function that is coloured in the last round. -/
theorem allocateFrom_induct {P Q : Func → Prop}
    (hspill : ∀ {f g : Func} {slots : Slots}, f.Shaped → Spilled slots f g → P f → P g)
    (hcolor : ∀ {f : Func} {unspillable : SortedSet VReg} {c : Coloring}, f.Shaped →
      color (.build f (analyze f)) palette unspillable = .ok c → uncoloured c f = [] → P f →
      Q (applyColoring c f)) {fuel : Nat} {unspillable : SortedSet VReg} {stats stats' : Stats}
    (hf : f.Shaped) (hP : P f)
    (h : allocateFrom palette fuel f unspillable stats = .ok (g, stats')) : Q g := by
  induction fuel generalizing f unspillable stats with
  | zero => cases h
  | succ fuel ih =>
    simp only [allocateFrom] at h
    split at h
    · next c hc =>
      split at h
      · cases h
      · next hu =>
        cases h
        exact hcolor hf hc (getLast?_eq_none_iff.1 hu) hP
    · next spills _ =>
      split at h
      · cases h
      · have hs := spilled_spillRegs hf spills unspillable
        exact ih (hs.shaped hf) (hspill hf hs hP) h

/-- A property of instructions in a frame with a number of slots is kept by allocation if it is by the
code that spilling makes and by colouring. -/
theorem every_allocate {P : Nat → Instr → Prop}
    (hspill : ∀ {slots : Slots} {lo hi m n : Nat} {i : Instr} {new : List Instr},
      SpillsTo slots lo hi i new → m ≤ n → slots.base + slots.spilled.size ≤ n → P m i →
      ∀ j ∈ new, P n j)
    (hcolor : ∀ (c : Coloring) {n : Nat} {i : Instr}, P n i → P n (i.mapOperands (colorOperand c)))
    {stats : Stats} (hf : f.Shaped) (h : f.Every (P f.slots))
    (halloc : allocate palette f = .ok (g, stats)) : g.Every (P g.slots) := by
  refine allocateFrom_induct (P := fun f => f.Every (P f.slots)) (Q := fun f => f.Every (P f.slots))
    ?_ ?_ hf h halloc
  · intro f g slots _ hs h b hb j hj
    obtain ⟨i, hi, new, hnew, hj⟩ := hs.exists_of_mem (hs.layout ▸ hb) hj
    refine hspill hnew ?_ ?_ (h b (hs.layout ▸ hb) i hi) j hj
    · rw [hs.frame]
      exact Nat.le_add_right _ _
    · rw [hs.base, hs.frame]
  · intro f _ c hf _ _ h b hb j hj
    rw [layout_applyColoring hf] at hb
    rw [code_applyColoring hf c hb] at hj
    obtain ⟨i, hi, rfl⟩ := mem_map.1 hj
    rw [slots_applyColoring hf]
    exact hcolor c (h b hb i hi)

/-- The functions of an allocated program come of those of the program before the convention was made
explicit, one by one. -/
theorem forall₂_allocated (hp : ∀ f ∈ p.functions, f.Shaped) (hq : conventional p = .ok q)
    (hr : allocated palette q = .ok (r, stats)) :
    List.Forall₂ (fun f0 f => ∃ g stats', Conventional f0 g ∧ allocate palette g = .ok (f, stats'))
      p.functions.toList r.functions.toList := by
  obtain ⟨gs, hgs, hrel⟩ := exists_conventionalProgram hp
  obtain rfl : withFunctions p gs = q := Except.ok.inj (hgs.symm.trans hq)
  obtain ⟨fs, hfs, hr⟩ := Except.bind_eq_ok.1 hr
  cases hr
  rw [toList_toArray]
  refine forall₂_map_right_iff.2 ((forall₂_trans hrel (mapM_eq_ok_iff.1 hfs)).imp ?_)
  rintro f0 ⟨f, stats'⟩ ⟨g, hconv, halloc⟩
  exact ⟨g, stats', hconv, halloc⟩

theorem exists_source (hp : ∀ f ∈ p.functions, f.Shaped) (hq : conventional p = .ok q)
    (hr : allocated palette q = .ok (r, stats)) (hf : f ∈ r.functions) :
    ∃ f0 g stats', f0 ∈ p.functions ∧ Conventional f0 g ∧ allocate palette g = .ok (f, stats') := by
  obtain ⟨k, hk⟩ := getElem?_of_mem (Array.mem_toList_iff.2 hf)
  obtain ⟨f0, hf0, g, stats', hconv, halloc⟩ := forall₂_getElem? (forall₂_allocated hp hq hr).flip hk
  exact ⟨f0, g, stats', Array.mem_toList_iff.1 (mem_of_getElem? hf0), hconv, halloc⟩

end MxStar.Alloc
