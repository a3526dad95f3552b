import MxStar.Alloc.Allocation
import MxStar.Proofs.LiveSets

/-!
The interference graph and its colourings.

`edge_build_iff` says which registers interfere: those that some instruction keeps apart (`Clash`).
Selection keeps colourings valid (`select_valid`), so registers that clash have different colours
(`color_clash`).
-/
namespace MxStar.Alloc

open IR List

variable {palette : List PhysReg} {c : Coloring} {v : VReg} {unspillable : SortedSet VReg}
  {g : Interference} {live : Liveness} {f : Func} {p : PhysReg}

/-! ## Which registers interfere -/

/-- The register that a move may share a colour with. -/
def spared : Instr → Option Reg
  | .move _ src => src.reg?
  | _ => none

/-- The operands of an instruction that the machine wants apart. -/
def shapePairs : Instr → List (Operand × Operand)
  | .binary dst op lhs rhs =>
    if op = .div || op = .mod then [(rhs, .phys .rax), (rhs, .phys .rdx)]
    else if dst ≠ lhs then
      if dst = rhs then [(dst, lhs)] else [(dst, rhs)]
    else []
  | _ => []

/-- An instruction, with some registers live after it, keeps two registers apart. -/
def Clash (i : Instr) (after : RegSet) (a b : Reg) : Prop :=
  (a ∈ defs i ∧ b ∈ after ∧ spared i ≠ some b) ∨
    ∃ x ∈ shapePairs i, x.1.reg? = some a ∧ x.2.reg? = some b

namespace Interference

/-- A virtual register interferes with a register. -/
def Edge (g : Interference) (v : VReg) : Reg → Prop
  | .virt w => w ∈ g.neighbours v
  | .phys p => p ∈ g.banned v

def Sized (n : Nat) (g : Interference) : Prop := g.adjacent.size = n ∧ g.forbidden.size = n

/-- An edge between two registers is one from `v` to `r`. -/
def Joins (v : VReg) (r a b : Reg) : Prop :=
  r ≠ .virt v ∧ (a = .virt v ∧ b = r ∨ b = .virt v ∧ a = r)

/-- A change of the graph that keeps an invariant and makes a fact hold in one case, and otherwise leaves
the fact as it was. -/
def Adds (I E : Interference → Prop) (change : Interference → Interference) (P : Prop) : Prop :=
  ∀ g, I g → I (change g) ∧ (E (change g) ↔ E g ∨ P)

namespace Adds

variable {I E : Interference → Prop}

theorem congr {change : Interference → Interference} {P Q : Prop} (h : Adds I E change P)
    (hpq : P ↔ Q) : Adds I E change Q :=
  fun g hg => ⟨(h g hg).1, (h g hg).2.trans (or_congr_right hpq)⟩

theorem nothing : Adds I E (fun g => g) False :=
  fun _ hg => ⟨hg, by simp⟩

theorem comp {first second : Interference → Interference} {P Q : Prop} (h : Adds I E first P)
    (h' : Adds I E second Q) : Adds I E (fun g => second (first g)) (P ∨ Q) := by
  intro g hg
  obtain ⟨hg1, h1⟩ := h g hg
  obtain ⟨hg2, h2⟩ := h' _ hg1
  exact ⟨hg2, by rw [h2, h1, or_assoc]⟩

theorem foldl {α : Type} {change : Interference → α → Interference} {P : α → Prop}
    (h : ∀ x, Adds I E (change · x) (P x)) (l : List α) :
    Adds I E (fun g => l.foldl change g) (∃ x ∈ l, P x) := by
  induction l with
  | nil => exact nothing.congr (by simp)
  | cons x l ih => exact ((h x).comp ih).congr (by simp)

theorem foldr {α : Type} {change : α → Interference → Interference} {P : α → Prop}
    (h : ∀ x, Adds I E (change x) (P x)) (l : List α) :
    Adds I E (fun g => l.foldr change g) (∃ x ∈ l, P x) := by
  induction l with
  | nil => exact nothing.congr (by simp)
  | cons x l ih => exact (ih.comp (h x)).congr (by simp [or_comm])

end Adds

/-- A change of the graph that adds an edge from `v` to `r` in one case and keeps all others. -/
abbrev Records (n : Nat) (v : VReg) (r : Reg) (change : Interference → Interference) (P : Prop) :
    Prop :=
  Adds (Sized n) (·.Edge v r) change P

theorem getD_modify_insert {α : Type} [Ord α] [Std.TransOrd α] [Std.LawfulEqOrd α]
    (xs : Array (SortedSet α)) (i j : Nat) (a b : α) :
    b ∈ ((xs.modify i (·.insert a))[j]?).getD ∅ ↔
      b ∈ (xs[j]?).getD ∅ ∨ i < xs.size ∧ i = j ∧ b = a := by
  rw [Array.getElem?_modify]
  by_cases hij : i = j
  · subst hij
    by_cases hi : i < xs.size
    · simp [hi, or_comm]
    · simp [hi]
  · simp [hij]

theorem records_addEdge (n : Nat) (v : VReg) (r a b : Reg) :
    Records n v r (·.addEdge a b) (v < n ∧ Joins v r a b) := by
  rintro g ⟨hadj, hforb⟩
  cases a with
  | virt x =>
    cases b with
    | virt y =>
      simp only [addEdge]
      split
      · next hxy =>
        subst hxy
        refine ⟨⟨hadj, hforb⟩, ?_⟩
        simp only [Joins]
        grind
      · next hxy =>
        refine ⟨⟨by simpa using hadj, hforb⟩, ?_⟩
        cases r with
        | virt w =>
          simp only [Edge, neighbours, Joins, getD_modify_insert, Array.size_modify, hadj,
            Reg.virt.injEq]
          grind
        | phys p =>
          simp only [Edge, banned, Joins]
          grind
    | phys q =>
      refine ⟨⟨hadj, by simpa [addEdge] using hforb⟩, ?_⟩
      cases r with
      | virt w =>
        simp only [Edge, addEdge, neighbours, Joins]
        grind
      | phys p =>
        simp only [Edge, addEdge, banned, Joins, getD_modify_insert, hforb]
        grind
  | phys q =>
    cases b with
    | virt y =>
      refine ⟨⟨hadj, by simpa [addEdge] using hforb⟩, ?_⟩
      cases r with
      | virt w =>
        simp only [Edge, addEdge, neighbours, Joins]
        grind
      | phys p =>
        simp only [Edge, addEdge, banned, Joins, getD_modify_insert, hforb]
        grind
    | phys q' =>
      refine ⟨⟨hadj, hforb⟩, ?_⟩
      simp only [addEdge, Joins]
      grind

theorem records_addOperands (n : Nat) (v : VReg) (r : Reg) (a b : Operand) :
    Records n v r (·.addOperands a b)
      (∃ x y, a.reg? = some x ∧ b.reg? = some y ∧ v < n ∧ Joins v r x y) := by
  unfold addOperands
  cases a.reg? with
  | none => exact Adds.nothing.congr (by simp)
  | some x =>
    cases b.reg? with
    | none => exact Adds.nothing.congr (by simp)
    | some y => exact (records_addEdge n v r x y).congr (by simp)

theorem records_mark (n : Nat) (v : VReg) (r : Reg) (o : Operand) :
    Records n v r (·.mark o) False := by
  intro g hg
  cases o with
  | vreg w => cases r <;> exact ⟨hg, by simp [mark, Edge, neighbours, banned]⟩
  | _ => exact ⟨hg, (or_false _).symm ▸ Iff.rfl⟩

theorem records_addDefs (n : Nat) (v : VReg) (r : Reg) (i : Instr) (after : RegSet) :
    Records n v r (·.addDefs i after)
      (∃ a ∈ defs i, ∃ b ∈ after, spared i ≠ some b ∧ v < n ∧ Joins v r a b) := by
  have hinner : ∀ a b, Records n v r (fun g => if some b = spared i then g else g.addEdge a b)
      (spared i ≠ some b ∧ v < n ∧ Joins v r a b) := by
    intro a b
    by_cases h : some b = spared i
    · simpa only [if_pos h] using Adds.nothing.congr (by simp [← h])
    · simpa only [if_neg h] using (records_addEdge n v r a b).congr (by simp [Ne.symm h])
  exact .foldl (fun a => .foldr (hinner a) after.toList) (defs i).toList

theorem addShape_eq (i : Instr) : (fun g : Interference => g.addShape i) =
    fun g => (shapePairs i).foldl (fun g x => g.addOperands x.1 x.2) g := by
  funext g
  cases i with
  | binary dst op lhs rhs =>
    simp only [addShape, shapePairs]
    split
    · rfl
    · split
      · split <;> rfl
      · rfl
  | _ => rfl

theorem records_addShape (n : Nat) (v : VReg) (r : Reg) (i : Instr) :
    Records n v r (·.addShape i)
      (∃ x ∈ shapePairs i, ∃ a b, x.1.reg? = some a ∧ x.2.reg? = some b ∧ v < n ∧ Joins v r a b) := by
  rw [addShape_eq i]
  exact .foldl (fun x => records_addOperands n v r x.1 x.2) (shapePairs i)

theorem records_addInstr (n : Nat) (v : VReg) (r : Reg) (i : Instr) (after : RegSet) :
    Records n v r (·.addInstr i after) (∃ a b, Clash i after a b ∧ v < n ∧ Joins v r a b) := by
  refine (((Adds.foldl (records_mark n v r) i.operands).comp
    (records_addDefs n v r i after)).comp (records_addShape n v r i)).congr ?_
  simp only [Clash]
  grind

theorem snd_addCode (out : RegSet) (g : Interference) (code : List Instr) :
    (addCode out g code).2 = liveAt out code := by
  induction code with
  | nil => rfl
  | cons i code ih => simp only [addCode, ih, liveAt_cons]

theorem addCode_cons (out : RegSet) (i : Instr) (code : List Instr) :
    (fun g => (addCode out g (i :: code)).1) =
      fun g => (addCode out g code).1.addInstr i (liveAt out code) := by
  funext g
  simp only [addCode, snd_addCode]

/-- A sequence records the clashes of its instructions, each with what is live after it. -/
theorem records_addCode (n : Nat) (v : VReg) (r : Reg) (out : RegSet) (code : List Instr) :
    Records n v r (fun g => (addCode out g code).1)
      (∃ i post, i :: post <:+ code ∧
        ∃ a b, Clash i (liveAt out post) a b ∧ v < n ∧ Joins v r a b) := by
  induction code with
  | nil => exact Adds.nothing.congr (by simp)
  | cons i code ih =>
    rw [addCode_cons out i code]
    refine (ih.comp (records_addInstr n v r i (liveAt out code))).congr ?_
    simp only [suffix_cons_iff, List.cons.injEq]
    constructor
    · rintro (⟨j, post, hj, h⟩ | h)
      · exact ⟨j, post, .inr hj, h⟩
      · exact ⟨i, code, .inl ⟨rfl, rfl⟩, h⟩
    · rintro ⟨j, post, ⟨rfl, rfl⟩ | hj, h⟩
      · exact .inr h
      · exact .inl ⟨j, post, hj, h⟩

theorem edge_empty {n : Nat} {moves : Array (VReg × Reg)} {r : Reg} :
    ¬({ empty n with moves := moves } : Interference).Edge v r := by
  cases r <;> simp only [Edge, neighbours, banned, empty, Array.getElem?_replicate] <;>
    split <;> simp

/-- **The edges of the graph.** Two registers interfere just if some instruction keeps them apart,
given what is live after it. -/
theorem edge_build_iff {r : Reg} :
    (build f live).Edge v r ↔ v < f.vregCount ∧ ∃ b ∈ f.layout, ∃ i post, i :: post <:+ f.code b ∧
      ∃ x y, Clash i (liveAt (live.atEnd b) post) x y ∧ Joins v r x y := by
  have h := Adds.foldr (fun b => records_addCode f.vregCount v r (live.atEnd b) (f.code b))
    f.layout { empty f.vregCount with moves := (f.instrs.filterMap movePair?).toArray }
    ⟨by simp [empty], by simp [empty]⟩
  refine h.2.trans ?_
  simp only [edge_empty, false_or]
  grind

theorem sized_build (f : Func) (live : Liveness) : (build f live).Sized f.vregCount :=
  (Adds.foldr (fun b => records_addCode f.vregCount 0 (.virt 0) (live.atEnd b) (f.code b))
    f.layout _ ⟨by simp [empty], by simp [empty]⟩).1

/-! ## Which registers occur -/

/-- A change of the graph after which `v` is present in one case, and otherwise as it was. -/
abbrev Marks (n : Nat) (v : VReg) (change : Interference → Interference) (P : Prop) : Prop :=
  Adds (·.present.size = n) (·.present[v]?.getD false = true) change P

theorem marks_of_present {n : Nat} {change : Interference → Interference}
    (h : ∀ g, (change g).present = g.present) : Marks n v change False := by
  intro g hg
  simp only [h g, or_false]
  exact ⟨hg, trivial⟩

theorem marks_addEdge (n : Nat) (v : VReg) (a b : Reg) : Marks n v (·.addEdge a b) False := by
  refine marks_of_present fun g => ?_
  cases a with
  | virt x =>
    cases b with
    | virt y =>
      simp only [addEdge]
      split <;> rfl
    | phys q => rfl
  | phys p =>
    cases b with
    | virt y => rfl
    | phys q => rfl

theorem marks_mark (n : Nat) (v : VReg) (o : Operand) : Marks n v (·.mark o) (v < n ∧ o = .vreg v) := by
  intro g hg
  cases o with
  | vreg w =>
    refine ⟨(Array.size_setIfInBounds ..).trans hg, ?_⟩
    simp only [mark, Array.getElem?_setIfInBounds, hg, Operand.vreg.injEq]
    by_cases hw : w = v
    · subst hw
      by_cases hlt : w < n
      · simp [hlt]
      · simp [hlt, hg]
    · simp [hw]
  | _ => exact ⟨hg, by simp [mark]⟩

theorem marks_addDefs (n : Nat) (v : VReg) (i : Instr) (after : RegSet) :
    Marks n v (·.addDefs i after) False := by
  have hinner : ∀ a b, Marks n v (fun g => if some b = spared i then g else g.addEdge a b) False := by
    intro a b
    by_cases h : some b = spared i
    · simpa only [if_pos h] using Adds.nothing
    · simpa only [if_neg h] using marks_addEdge n v a b
  exact (Adds.foldl (fun a => .foldr (hinner a) after.toList) (defs i).toList).congr (by simp)

theorem marks_addOperands (n : Nat) (v : VReg) (a b : Operand) :
    Marks n v (·.addOperands a b) False := by
  unfold addOperands
  cases a.reg? with
  | none => exact Adds.nothing
  | some x =>
    cases b.reg? with
    | none => exact Adds.nothing
    | some y => exact marks_addEdge n v x y

theorem marks_addShape (n : Nat) (v : VReg) (i : Instr) : Marks n v (·.addShape i) False := by
  have h := Adds.foldl (fun x : Operand × Operand => marks_addOperands n v x.1 x.2) (shapePairs i)
  rw [addShape_eq i]
  exact h.congr (by simp)

theorem marks_addCode (n : Nat) (v : VReg) (out : RegSet) (code : List Instr) :
    Marks n v (fun g => (addCode out g code).1) (v < n ∧ ∃ i ∈ code, .vreg v ∈ i.operands) := by
  induction code with
  | nil => exact Adds.nothing.congr (by simp)
  | cons i code ih =>
    rw [addCode_cons out i code]
    refine (ih.comp (((Adds.foldl (marks_mark n v) i.operands).comp
      (marks_addDefs n v i (liveAt out code))).comp (marks_addShape n v i))).congr ?_
    simp only [mem_cons, exists_eq_or_imp, or_false]
    grind

/-- **The nodes of the graph** are the registers that occur. -/
theorem mem_nodes_build :
    v ∈ (build f live).nodes ↔
      v < f.vregCount ∧ ∃ b ∈ f.layout, ∃ i ∈ f.code b, .vreg v ∈ i.operands := by
  have h := Adds.foldr (fun b => marks_addCode f.vregCount v (live.atEnd b) (f.code b))
    f.layout { empty f.vregCount with moves := (f.instrs.filterMap movePair?).toArray }
    (by simp [empty])
  have hnone : ¬(Array.replicate f.vregCount false)[v]?.getD false = true := by
    rw [Array.getElem?_replicate]
    split <;> simp
  rw [nodes, List.mem_filter, mem_range, (sized_build f live).1]
  refine (and_congr_right fun _ => h.2).trans ?_
  simp only [empty, hnone]
  grind

end Interference

/-! ## Colourings -/

namespace Coloring

def ofReg (c : Coloring) : Reg → Option PhysReg
  | .virt v => c.get? v
  | .phys p => some p

/-- Registers that interfere have different colours, and all colours come from the palette. -/
structure Valid (g : Interference) (palette : List PhysReg) (c : Coloring) : Prop where
  size : c.colors.size = g.adjacent.size
  apart : ∀ v r p, g.Edge v r → c.get? v = some p → c.ofReg r ≠ some p
  palette : ∀ v p, c.get? v = some p → p ∈ palette

theorem get?_set (hv : v < c.colors.size) (p : PhysReg) (w : VReg) :
    (c.set v p).get? w = if v = w then some p else c.get? w := by
  simp only [get?, set, Array.getElem?_setIfInBounds]
  by_cases h : v = w
  · subst h
    simp [hv]
  · simp [h]

theorem get?_eq_none (hv : c.colors.size ≤ v) : c.get? v = none := by
  simp [get?, Array.getElem?_eq_none hv]

end Coloring

theorem valid_empty (g : Interference) (palette : List PhysReg) :
    (Coloring.empty g.adjacent.size).Valid g palette := by
  have hnone : ∀ v, (Coloring.empty g.adjacent.size).get? v = none := by
    intro v
    simp only [Coloring.get?, Coloring.empty, Array.getElem?_replicate]
    split <;> rfl
  refine ⟨by simp [Coloring.empty], ?_, ?_⟩
  · intro v r p _ h
    simp [hnone] at h
  · intro v p h
    simp [hnone] at h

/-- Interference goes both ways, and nothing interferes with itself. -/
structure Interference.Symmetric (g : Interference) : Prop where
  symm : ∀ v w, g.Edge v (.virt w) → w < g.adjacent.size → g.Edge w (.virt v)
  irrefl : ∀ v, ¬g.Edge v (.virt v)

theorem symmetric_build (f : Func) (live : Liveness) : (Interference.build f live).Symmetric := by
  constructor
  · intro v w h hw
    rw [Interference.edge_build_iff] at h ⊢
    obtain ⟨-, b, hb, i, post, hpost, x, y, hc, hne, hj⟩ := h
    rw [(Interference.sized_build f live).1] at hw
    refine ⟨hw, b, hb, i, post, hpost, x, y, hc, fun h => hne h.symm, ?_⟩
    exact hj.symm.imp And.symm And.symm
  · intro v h
    obtain ⟨-, b, hb, i, post, hpost, x, y, hc, hne, hj⟩ := Interference.edge_build_iff.1 h
    exact hne rfl

theorem mem_freeColors : p ∈ freeColors g palette c v ↔
      p ∈ palette ∧ ∀ r, g.Edge v r → c.ofReg r ≠ some p := by
  simp only [freeColors, List.mem_filter, Bool.and_eq_true, Bool.not_eq_true', ← Bool.not_eq_true,
    SortedSet.contains_iff, any_eq_true, decide_eq_true_eq, not_exists, not_and]
  refine and_congr_right fun _ => ⟨fun h r hr => ?_, fun h => ⟨?_, fun n hn => ?_⟩⟩
  · obtain ⟨hban, hnei⟩ := h
    cases r with
    | virt w => exact hnei w hr
    | phys q =>
      intro hq
      cases hq
      exact hban hr
  · exact fun hp => h (.phys p) hp rfl
  · exact h (.virt n) hn

theorem Coloring.Valid.set (hg : g.Symmetric) (hc : c.Valid g palette)
    (hp : p ∈ freeColors g palette c v) : (c.set v p).Valid g palette := by
  obtain ⟨hpal, hfree⟩ := mem_freeColors.1 hp
  by_cases hv : v < c.colors.size
  · refine ⟨by simpa [Coloring.set] using hc.size, ?_, ?_⟩
    · intro w r q hedge hw hr
      rw [Coloring.get?_set hv] at hw
      cases r with
      | phys s =>
        split at hw
        · next h =>
          subst h
          cases hw
          exact hfree _ hedge hr
        · exact hc.apart w _ q hedge hw hr
      | virt s =>
        simp only [Coloring.ofReg, Coloring.get?_set hv] at hr
        -- Either end of the edge may be the register that gets the colour.
        split at hw <;> split at hr
        · next h h' =>
          subst h h'
          exact hg.irrefl _ hedge
        · next h _ =>
          subst h
          cases hw
          exact hfree _ hedge hr
        · next _ h =>
          subst h
          cases hr
          exact hfree _ (hg.symm w v hedge (hc.size ▸ hv)) hw
        · exact hc.apart w _ q hedge hw hr
    · intro w q hw
      rw [Coloring.get?_set hv] at hw
      split at hw
      · cases hw
        exact hpal
      · exact hc.palette w q hw
  · have : c.set v p = c := by
      simp [Coloring.set, Array.setIfInBounds, hv]
    rwa [this]

theorem pick_mem_freeColors {first : PhysReg} {rest : List PhysReg}
    (h : freeColors g palette c v = first :: rest) :
    (preferred g c v (first :: rest)).getD first ∈ freeColors g palette c v := by
  rw [h]
  cases hp : preferred g c v (first :: rest) with
  | none => exact mem_cons_self
  | some p =>
    have := find?_some hp
    simpa using this

theorem select_valid (hg : g.Symmetric) (stack : List VReg) {spills : SortedSet VReg}
    (hc : c.Valid g palette) : (select g palette unspillable stack c spills).1.Valid g palette := by
  induction stack generalizing c spills with
  | nil => exact hc
  | cons v stack ih =>
    simp only [select]
    split
    · exact ih hc
    · next first rest hfree => exact ih (hc.set hg (pick_mem_freeColors hfree))

theorem color_valid (h : color (.build f live) palette unspillable = .ok c) :
    c.Valid (.build f live) palette := by
  simp only [color] at h
  split at h
  · cases h
    exact select_valid (symmetric_build f live) _ (valid_empty _ _)
  · cases h

/-- **Registers that clash have different colours.** One of them is virtual, and virtual registers
are below the number that the function has. -/
theorem color_clash (h : color (.build f live) palette unspillable = .ok c) {b : BlockId}
    (hb : b ∈ f.layout) {i : Instr} {post : List Instr} (hpost : i :: post <:+ f.code b) {x y : Reg}
    (hclash : Clash i (liveAt (live.atEnd b) post) x y) (hne : x ≠ y)
    (hvirt : (∃ v, x = .virt v) ∨ ∃ v, y = .virt v) (hx : c.ofReg x = some p) :
    c.ofReg y ≠ some p := by
  have hvalid := color_valid h
  have hlt : ∀ v q, c.get? v = some q → v < f.vregCount := by
    intro v q hq
    by_contra hv
    rw [← (Interference.sized_build f live).1, ← hvalid.size] at hv
    rw [Coloring.get?_eq_none (Nat.le_of_not_lt hv)] at hq
    cases hq
  intro hy
  rcases hvirt with ⟨v, rfl⟩ | ⟨v, rfl⟩
  · have hedge : (Interference.build f live).Edge v y :=
      Interference.edge_build_iff.2
        ⟨hlt v p hx, b, hb, i, post, hpost, _, _, hclash, hne.symm, .inl ⟨rfl, rfl⟩⟩
    exact hvalid.apart v y p hedge hx hy
  · have hedge : (Interference.build f live).Edge v x :=
      Interference.edge_build_iff.2
        ⟨hlt v p hy, b, hb, i, post, hpost, _, _, hclash, hne, .inr ⟨rfl, rfl⟩⟩
    exact hvalid.apart v x p hedge hy hx

end MxStar.Alloc
