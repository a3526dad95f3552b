import Mathlib.Data.List.TakeDrop
import Mathlib.Logic.Relation
import MxStar.Pass.CallGraph
import MxStar.Proofs.Sets

/-!
The search for the components of a call graph.

`Search.Sound` is what holds between two steps: a function of the path reaches all that was entered after it
and is on the stack, every function on the stack reaches one of the path that was entered no later, and
complete components are connected, and lead only to components complete before them (`Layered`). `Scanning`
is what holds while the callees of a function are followed, and `Visited` once it is left, so one visit
keeps the search sound, however deep it goes (`visited_visit`).
-/
namespace MxStar.Pass

open IR List

variable {u v w : FuncId} {s : Search}

namespace CallGraph

def Edge (g : CallGraph) (v w : FuncId) : Prop := w ∈ g.calls v

/-- One function leads to another through calls, or is that one. -/
abbrev Reaches (g : CallGraph) : FuncId → FuncId → Prop := Relation.ReflTransGen g.Edge

/-- Every component leads only to itself and to those that follow in the list. -/
def Layered (g : CallGraph) : List (List FuncId) → Prop
  | [] => True
  | c :: rest => (∀ v ∈ c, ∀ w, g.Edge v w → w ∈ c ∨ w ∈ rest.flatten) ∧ g.Layered rest

theorem Layered.edge {g : CallGraph} (hedge : g.Edge v w) :
    ∀ {cs : List (List FuncId)}, g.Layered cs → v ∈ cs.flatten → w ∈ cs.flatten
  | c :: rest, ⟨hc, hrest⟩, hv => by
    rw [flatten_cons, mem_append] at hv ⊢
    obtain hv | hv := hv
    · exact hc v hv w hedge
    · exact .inr (hrest.edge hedge hv)

theorem Layered.reaches {g : CallGraph} {cs : List (List FuncId)} (hcs : g.Layered cs)
    (h : g.Reaches v w) (hv : v ∈ cs.flatten) : w ∈ cs.flatten := by
  induction h with
  | refl => exact hv
  | tail _ hedge ih => exact hcs.edge hedge ih

end CallGraph

namespace Search

/-! ## Numbers -/

def Entered (s : Search) (v : FuncId) : Prop := s.indexOf v ≠ none

def num (s : Search) (v : FuncId) : Nat := (s.indexOf v).getD 0

theorem Entered.lt_size (h : s.Entered v) : v < s.index.size := by
  by_contra hv
  exact h (by rw [indexOf, Array.getElem?_eq_none (Nat.le_of_not_lt hv)]; rfl)

theorem indexOf_enter (hv : v < s.index.size) (u : FuncId) :
    (s.enter v).indexOf u = if v = u then some s.next else s.indexOf u := by
  rw [indexOf, enter, Array.getElem?_setIfInBounds]
  split
  · rfl
  · rfl

theorem entered_enter (hv : v < s.index.size) : (s.enter v).Entered u ↔ u = v ∨ s.Entered u := by
  rw [Entered, Entered, indexOf_enter hv]
  by_cases huv : v = u
  · simp [huv]
  · simp [huv, Ne.symm huv]

theorem num_enter_self (hv : v < s.index.size) : (s.enter v).num v = s.next := by
  rw [num, indexOf_enter hv, if_pos rfl, Option.getD_some]

theorem num_enter (hv : v < s.index.size) (hnew : ¬s.Entered v) (hu : s.Entered u) :
    (s.enter v).num u = s.num u := by
  rw [num, num, indexOf_enter hv, if_neg (by rintro rfl; exact hnew hu)]

theorem lowOf_enter (hv : v < s.low.size) (u : FuncId) :
    (s.enter v).lowOf u = if v = u then s.next else s.lowOf u := by
  rw [lowOf, enter, Array.getElem?_setIfInBounds]
  split
  · rfl
  · rfl

theorem lowOf_reach (s : Search) (v : FuncId) (n : Nat) (u : FuncId) :
    (s.reach v n).lowOf u = if v = u then min (s.lowOf u) n else s.lowOf u := by
  rw [lowOf, reach, Array.getElem?_modify]
  split
  · cases h : s.low[u]? <;> simp [lowOf, h]
  · rfl

/-! ## Sound searches -/

/-- What holds between two steps of the search, with a path of functions that are not left yet. -/
structure Sound (g : CallGraph) (s : Search) (path : List FuncId) : Prop where
  index_size : s.index.size = g.edges.size
  low_size : s.low.size = g.edges.size
  entered : ∀ v, s.Entered v ↔ v ∈ s.stack ∨ v ∈ s.done.flatten
  nodup : (s.stack ++ s.done.flatten).Nodup
  next : s.next = s.stack.length + s.done.flatten.length
  before : ∀ v, s.Entered v → s.num v < s.next
  onStack : ∀ v ∈ path, v ∈ s.stack
  left : ∀ v, s.Entered v → v ∉ path → ∀ w, g.Edge v w → s.Entered w
  down : ∀ v ∈ path, ∀ w ∈ s.stack, s.num v ≤ s.num w → g.Reaches v w
  up : ∀ w ∈ s.stack, ∃ v ∈ path, s.num v ≤ s.num w ∧ g.Reaches w v
  connected : ∀ c ∈ s.done, ∀ v ∈ c, ∀ w ∈ c, g.Reaches v w
  layered : g.Layered s.done

namespace Sound

variable {g : CallGraph} {s : Search} {path : List FuncId}

theorem reach (h : Sound g s path) (v : FuncId) (n : Nat) : Sound g (s.reach v n) path :=
  { h with low_size := (Array.size_modify ..).trans h.low_size }

theorem entered_of_stack (h : Sound g s path) (hv : v ∈ s.stack) : s.Entered v :=
  (h.entered v).2 (.inl hv)

theorem num_lt (h : Sound g s path) (hv : v ∈ s.stack) : s.num v < s.next :=
  h.before v (h.entered_of_stack hv)

theorem next_lt (h : Sound g s path) (hv : v < g.edges.size) (hnew : ¬s.Entered v) :
    s.next < g.edges.size := by
  have hnd : (v :: (s.stack ++ s.done.flatten)).Nodup :=
    nodup_cons.2 ⟨fun hmem => hnew ((h.entered v).2 (mem_append.1 hmem)), h.nodup⟩
  have hsub : v :: (s.stack ++ s.done.flatten) ⊆ List.range g.edges.size := by
    intro w hw
    rw [mem_range]
    obtain rfl | hw := mem_cons.1 hw
    · exact hv
    · rw [← h.index_size]
      exact ((h.entered w).2 (mem_append.1 hw)).lt_size
  have hle := (subperm_of_subset hnd hsub).length_le
  rw [length_cons, length_append, length_range, ← h.next] at hle
  exact hle

end Sound

/-! ## Progress of a search -/

/-- The second state comes later: new functions are on top of the stack, with higher numbers, and what was
known of the functions entered before is as it was. -/
structure Extends (s t : Search) (new : List FuncId) : Prop where
  stack : t.stack = new ++ s.stack
  kept : ∀ v, s.Entered v → t.indexOf v = s.indexOf v ∧ t.lowOf v = s.lowOf v
  next : s.next ≤ t.next
  fresh : ∀ v ∈ new, t.Entered v ∧ s.next ≤ t.num v

namespace Extends

variable {s t u : Search} {new more : List FuncId}

theorem entered (h : Extends s t new) (hv : s.Entered v) : t.Entered v := by
  rw [Entered, (h.kept v hv).1]
  exact hv

theorem num_eq (h : Extends s t new) (hv : s.Entered v) : t.num v = s.num v := by
  rw [num, num, (h.kept v hv).1]

theorem refl (s : Search) : Extends s s [] :=
  ⟨rfl, fun _ _ => ⟨rfl, rfl⟩, Nat.le_refl _, fun _ hv => absurd hv not_mem_nil⟩

theorem trans (h : Extends s t new) (h' : Extends t u more) : Extends s u (more ++ new) where
  stack := by rw [h'.stack, h.stack, append_assoc]
  kept v hv := by
    obtain ⟨hindex, hlow⟩ := h'.kept v (h.entered hv)
    exact ⟨hindex.trans (h.kept v hv).1, hlow.trans (h.kept v hv).2⟩
  next := Nat.le_trans h.next h'.next
  fresh v hv := by
    obtain hv | hv := mem_append.1 hv
    · exact ⟨(h'.fresh v hv).1, Nat.le_trans h.next (h'.fresh v hv).2⟩
    · obtain ⟨hent, hle⟩ := h.fresh v hv
      exact ⟨h'.entered hent, by rwa [h'.num_eq hent]⟩

/-- Noting a number of a function that was not entered before changes nothing that was known. -/
theorem reach (h : Extends s t new) (hv : ¬s.Entered v) (n : Nat) : Extends s (t.reach v n) new :=
  { h with
    kept := fun u hu => by
      rw [lowOf_reach, if_neg (by rintro rfl; exact hv hu)]
      exact h.kept u hu }

end Extends

/-- The state while the callees `ws` of the function `v`, entered at `s`, have been followed. -/
structure Scanning (g : CallGraph) (s t : Search) (path : List FuncId) (v : FuncId)
    (ws new : List FuncId) : Prop where
  sound : Sound g t (v :: path)
  extend : Extends s t (new ++ [v])
  number : t.indexOf v = some s.next
  followed : ∀ w ∈ ws, t.Entered w ∧ (w ∈ s.stack → t.lowOf v ≤ s.num w)
  crossed : ∀ u ∈ new, ∀ w ∈ s.stack, g.Edge u w → t.lowOf v ≤ s.num w
  low_le : t.lowOf v ≤ s.next
  back : ∃ y ∈ t.stack, t.num y = t.lowOf v ∧ g.Reaches v y

/-- The state when the function `v`, entered at `s`, has been left. Its component is complete, and then
nothing new is on the stack; or it reaches a function that was on the stack before. -/
structure Visited (g : CallGraph) (s t : Search) (path : List FuncId) (v : FuncId)
    (new : List FuncId) : Prop where
  sound : Sound g t path
  extend : Extends s t new
  entered : t.Entered v
  crossed : ∀ u ∈ new, ∀ w ∈ s.stack, g.Edge u w → t.lowOf v ≤ s.num w
  back : (new = [] ∧ s.next ≤ t.lowOf v) ∨ ∃ y ∈ s.stack, s.num y = t.lowOf v ∧ g.Reaches v y

section Steps

variable {g : CallGraph} {s t : Search} {path : List FuncId} {v : FuncId}

theorem Sound.enter (h : Sound g s path) (hv : v < g.edges.size) (hnew : ¬s.Entered v)
    (hpath : ∀ x ∈ path, g.Reaches x v) : Sound g (s.enter v) (v :: path) := by
  have hv' : v < s.index.size := h.index_size.symm ▸ hv
  have hnumv := num_enter_self hv'
  have hnum : ∀ {u}, u ∈ s.stack → (s.enter v).num u = s.num u := fun hu =>
    num_enter hv' hnew (h.entered_of_stack hu)
  constructor
  case index_size => exact Array.size_setIfInBounds.trans h.index_size
  case low_size => exact Array.size_setIfInBounds.trans h.low_size
  case entered =>
    intro u
    rw [entered_enter hv', h.entered]
    simp [Search.enter, or_assoc]
  case nodup =>
    exact nodup_cons.2 ⟨fun hmem => hnew ((h.entered v).2 (mem_append.1 hmem)), h.nodup⟩
  case next =>
    simp only [Search.enter, length_cons, h.next]
    omega
  case before =>
    intro u hu
    obtain rfl | hu := (entered_enter hv').1 hu
    · rw [hnumv]
      exact Nat.lt_succ_self _
    · rw [num_enter hv' hnew hu]
      exact Nat.lt_succ_of_lt (h.before u hu)
  case onStack =>
    intro x hx
    obtain rfl | hx := mem_cons.1 hx
    · exact mem_cons_self
    · exact mem_cons_of_mem _ (h.onStack x hx)
  case left =>
    intro u hu hup w hedge
    rw [mem_cons, not_or] at hup
    have hu := ((entered_enter hv').1 hu).resolve_left hup.1
    exact (entered_enter hv').2 (.inr (h.left u hu hup.2 w hedge))
  case down =>
    intro x hx w hw hle
    obtain rfl | hw := mem_cons.1 hw
    · obtain rfl | hx := mem_cons.1 hx
      · exact .refl
      · exact hpath x hx
    · have hlt := h.num_lt hw
      rw [hnum hw] at hle
      obtain rfl | hx := mem_cons.1 hx
      · omega
      · rw [hnum (h.onStack x hx)] at hle
        exact h.down x hx w hw hle
  case up =>
    intro w hw
    obtain rfl | hw := mem_cons.1 hw
    · exact ⟨w, mem_cons_self, Nat.le_refl _, .refl⟩
    · obtain ⟨x, hx, hle, hreach⟩ := h.up w hw
      exact ⟨x, mem_cons_of_mem _ hx, by rwa [hnum hw, hnum (h.onStack x hx)], hreach⟩
  case connected => exact h.connected
  case layered => exact h.layered

/-- A function that has just been entered reaches itself, and none of its callees has been followed. -/
theorem scanning_enter (h : Sound g s path) (hv : v < g.edges.size) (hnew : ¬s.Entered v)
    (hpath : ∀ x ∈ path, g.Reaches x v) : Scanning g s (s.enter v) path v [] [] := by
  have hv' : v < s.index.size := h.index_size.symm ▸ hv
  have hlow := lowOf_enter (h.low_size.symm ▸ hv : v < s.low.size)
  have hlowv : (s.enter v).lowOf v = s.next := by rw [hlow, if_pos rfl]
  have hne : ∀ u, s.Entered u → v ≠ u := fun u hu huv => hnew (huv ▸ hu)
  refine ⟨h.enter hv hnew hpath, ⟨rfl, fun u hu => ⟨?_, ?_⟩, Nat.le_succ _, fun u hu => ?_⟩, ?_,
    fun _ hw => absurd hw not_mem_nil, fun _ hu => absurd hu not_mem_nil, hlowv.le,
    ⟨v, mem_cons_self, (num_enter_self hv').trans hlowv.symm, .refl⟩⟩
  · rw [indexOf_enter hv', if_neg (hne u hu)]
  · rw [hlow, if_neg (hne u hu)]
  · obtain rfl := mem_singleton.1 hu
    exact ⟨(entered_enter hv').2 (.inl rfl), (num_enter_self hv').ge⟩
  · rw [indexOf_enter hv', if_pos rfl]

namespace Scanning

variable {ws new : List FuncId} (h : Scanning g s t path v ws new)
include h

theorem new_not_mem (hu : u ∈ new) : u ≠ v ∧ u ∉ s.stack := by
  have hnd := h.sound.nodup.of_append_left
  rw [h.extend.stack, append_assoc, singleton_append] at hnd
  obtain ⟨-, -, hdisj⟩ := nodup_append.1 hnd
  exact ⟨hdisj u hu v mem_cons_self, fun hs => hdisj u hu u (mem_cons_of_mem _ hs) rfl⟩

theorem num_eq : t.num v = s.next := by
  rw [num, h.number, Option.getD_some]

theorem entered : t.Entered v := by
  rw [Entered, h.number]
  exact Option.some_ne_none _

theorem next_lt : s.next < t.next := by
  have hlt := h.sound.before v h.entered
  rwa [h.num_eq] at hlt

theorem follow_done (hw : t.Entered w) (hstack : w ∉ t.stack) : Scanning g s t path v (w :: ws) new :=
  { h with
    followed := fun x hx => by
      obtain rfl | hx := mem_cons.1 hx
      · refine ⟨hw, fun hmem => absurd ?_ hstack⟩
        rw [h.extend.stack]
        exact mem_append_right _ hmem
      · exact h.followed x hx }

/-- What is off the path once `v` is left has callees that have been entered. -/
theorem entered_callee (hall : ∀ w, g.Edge v w → w ∈ ws) (hu : t.Entered u) (hup : u ∉ path)
    (hedge : g.Edge u w) : t.Entered w := by
  by_cases huv : u = v
  · subst huv
    exact (h.followed w (hall w hedge)).1
  · exact h.sound.left u hu (not_mem_cons_of_ne_of_not_mem huv hup) w hedge

variable (hs : Sound g s path)
include hs

theorem not_entered : ¬s.Entered v := by
  intro hv
  have hlt := hs.before v hv
  rw [← h.extend.num_eq hv, h.num_eq] at hlt
  exact Nat.lt_irrefl _ hlt

/-- Noting a number `n` for a callee `w` that is entered by now. It is not above the numbers that `w`, and
what was entered because of it, reach by one call; and it counts only if it is a number on the stack that
`v` reaches. -/
theorem note {u : Search} {n : Nat} {more : List FuncId} (hu : Sound g u (v :: path))
    (hext : Extends t u more) (hw : u.Entered w) (hle : w ∈ s.stack → n ≤ s.num w)
    (hcrossed : ∀ x ∈ more, ∀ y ∈ s.stack, g.Edge x y → n ≤ s.num y)
    (hback : n < t.lowOf v → ∃ y ∈ t.stack, t.num y = n ∧ g.Reaches v y) :
    Scanning g s (u.reach v n) path v (w :: ws) (more ++ new) := by
  obtain ⟨hindexv, hlowv⟩ := hext.kept v h.entered
  have hlow : (u.reach v n).lowOf v = min (t.lowOf v) n := by rw [lowOf_reach, if_pos rfl, hlowv]
  have hmin := Nat.min_le_left (t.lowOf v) n
  refine ⟨hu.reach v n, ?_, hindexv.trans h.number, fun x hx => ?_, fun x hx y hy hedge => ?_, ?_, ?_⟩
  · rw [append_assoc]
    exact (h.extend.trans hext).reach (h.not_entered hs) n
  · rw [hlow]
    obtain rfl | hx := mem_cons.1 hx
    · exact ⟨hw, fun hx => Nat.le_trans (Nat.min_le_right ..) (hle hx)⟩
    · exact ⟨hext.entered (h.followed x hx).1, fun hx' => Nat.le_trans hmin ((h.followed x hx).2 hx')⟩
  · rw [hlow]
    obtain hx | hx := mem_append.1 hx
    · exact Nat.le_trans (Nat.min_le_right ..) (hcrossed x hx y hy hedge)
    · exact Nat.le_trans hmin (h.crossed x hx y hy hedge)
  · rw [hlow]
    exact Nat.le_trans hmin h.low_le
  · have hlowest : ∃ y ∈ t.stack, t.num y = min (t.lowOf v) n ∧ g.Reaches v y := by
      by_cases hn : n < t.lowOf v
      · rw [Nat.min_eq_right (Nat.le_of_lt hn)]
        exact hback hn
      · rw [Nat.min_eq_left (Nat.le_of_not_lt hn)]
        exact h.back
    obtain ⟨y, hy, hnum, hreach⟩ := hlowest
    refine ⟨y, ?_, ?_, hreach⟩
    · exact (congrArg (y ∈ ·) hext.stack).mpr (mem_append_right _ hy)
    · rw [hlow, ← hnum]
      exact hext.num_eq (h.sound.entered_of_stack hy)

theorem follow_stack {n : Nat} (hedge : g.Edge v w) (hn : t.indexOf w = some n) (hw : w ∈ t.stack) :
    Scanning g s (t.reach v n) path v (w :: ws) new := by
  have hnum : t.num w = n := by rw [num, hn, Option.getD_some]
  refine h.note hs h.sound (.refl t) (h.sound.entered_of_stack hw) (fun hmem => ?_)
    (fun _ hx => absurd hx not_mem_nil) fun _ => ⟨w, hw, hnum, .single hedge⟩
  rw [← h.extend.num_eq (hs.entered_of_stack hmem), hnum]

theorem follow_visited {u : Search} {more : List FuncId} (hedge : g.Edge v w) (hw : ¬t.Entered w)
    (hu : Visited g t u (v :: path) w more) :
    Scanning g s (u.reach v (u.lowOf w)) path v (w :: ws) (more ++ new) := by
  refine h.note hs hu.sound hu.extend hu.entered (fun hmem => ?_) (fun x hx y hy hxy => ?_) fun hlt => ?_
  · exact absurd (h.extend.entered (hs.entered_of_stack hmem)) hw
  · rw [← h.extend.num_eq (hs.entered_of_stack hy)]
    refine hu.crossed x hx y ?_ hxy
    rw [h.extend.stack]
    exact mem_append_right _ hy
  · -- A callee whose component is complete has a number above that of the function.
    obtain ⟨-, hle⟩ | ⟨y, hy, hnum, hreach⟩ := hu.back
    · have hlow := h.low_le
      have hnext := h.next_lt
      omega
    · exact ⟨y, hy, hnum, .head hedge hreach⟩

variable (hall : ∀ w, g.Edge v w → w ∈ ws)
include hall

section Root

variable (hroot : t.lowOf v = s.next)
include hroot

/-- Functions entered since `v` was lead only to each other and to complete components, if `v` reaches no
number before its own. -/
theorem closed (hu : u ∈ new ++ [v]) (hedge : g.Edge u w) : w ∈ new ++ [v] ∨ w ∈ t.done.flatten := by
  have hbelow : w ∈ s.stack → ¬t.lowOf v ≤ s.num w := fun hw hle => by
    have hlt := hs.num_lt hw
    omega
  have hcases : t.Entered w ∧ w ∉ s.stack := by
    obtain hu | hu := mem_append.1 hu
    · obtain ⟨hne, hstack⟩ := h.new_not_mem hu
      refine ⟨h.sound.left u (h.extend.fresh u (mem_append_left _ hu)).1 ?_ w hedge,
        fun hw => hbelow hw (h.crossed u hu w hw hedge)⟩
      exact not_mem_cons_of_ne_of_not_mem hne fun hp => hstack (hs.onStack u hp)
    · obtain rfl := mem_singleton.1 hu
      exact ⟨(h.followed w (hall w hedge)).1, fun hw => hbelow hw ((h.followed w (hall w hedge)).2 hw)⟩
  have hw := (h.sound.entered w).1 hcases.1
  rw [h.extend.stack, mem_append] at hw
  exact hw.imp_left fun hw => hw.resolve_right hcases.2

theorem layered : g.Layered ((new ++ [v]) :: t.done) :=
  ⟨fun _ hu _ hedge => h.closed hs hall hroot hu hedge, h.sound.layered⟩

/-- Functions entered since `v` was reach each other, if `v` reaches no number before its own. -/
theorem connected {x y : FuncId} (hx : x ∈ new ++ [v]) (hy : y ∈ new ++ [v]) : g.Reaches x y := by
  have hdown : g.Reaches v y := h.sound.down v mem_cons_self y
    (h.extend.stack ▸ mem_append_left _ hy) (h.num_eq ▸ (h.extend.fresh y hy).2)
  obtain ⟨z, hz, -, hreach⟩ := h.sound.up x (h.extend.stack ▸ mem_append_left _ hx)
  obtain rfl | hz := mem_cons.1 hz
  · exact hreach.trans hdown
  · -- A function further back on the path is below `v` on the stack, and nothing leads there.
    have hmem := (h.layered hs hall hroot).reaches hreach (mem_flatten_of_mem mem_cons_self hx)
    have hnd := h.sound.nodup
    have hz := hs.onStack z hz
    rw [h.extend.stack] at hnd
    rw [flatten_cons] at hmem
    grind

/-- Leaving a function that reaches no number before its own: what was entered since is a component. -/
theorem leave_root :
    Visited g s { t with stack := s.stack, done := (new ++ [v]) :: t.done } path v [] := by
  have hsub : ∀ {x}, x ∈ s.stack → x ∈ t.stack := fun hx =>
    h.extend.stack ▸ mem_append_right _ hx
  have hentered : ∀ u, t.Entered u ↔ u ∈ s.stack ∨ u ∈ ((new ++ [v]) :: t.done).flatten := by
    intro u
    rw [h.sound.entered, h.extend.stack, flatten_cons]
    simp only [mem_append]
    tauto
  constructor
  case sound =>
    constructor
    case index_size => exact h.sound.index_size
    case low_size => exact h.sound.low_size
    case entered => exact hentered
    case nodup =>
      have hnd := h.sound.nodup
      rw [h.extend.stack] at hnd
      rw [flatten_cons, ← append_assoc]
      exact (perm_append_comm.append_right _).nodup_iff.1 hnd
    case next =>
      have hnext := h.sound.next
      rw [h.extend.stack, length_append] at hnext
      simp only [flatten_cons, length_append] at hnext ⊢
      omega
    case before => exact h.sound.before
    case onStack => exact hs.onStack
    case left => exact fun u hu hup w hedge => h.entered_callee hall hu hup hedge
    case down =>
      exact fun x hx w hw hle => h.sound.down x (mem_cons_of_mem _ hx) w (hsub hw) hle
    case up =>
      intro w hw
      obtain ⟨x, hx, hle, hreach⟩ := h.sound.up w (hsub hw)
      obtain rfl | hx := mem_cons.1 hx
      · have hlt := hs.num_lt hw
        rw [h.num_eq, h.extend.num_eq (hs.entered_of_stack hw)] at hle
        omega
      · exact ⟨x, hx, hle, hreach⟩
    case connected =>
      intro c hc x hx y hy
      obtain rfl | hc := mem_cons.1 hc
      · exact h.connected hs hall hroot hx hy
      · exact h.sound.connected c hc x hx y hy
    case layered => exact h.layered hs hall hroot
  case extend =>
    exact ⟨rfl, h.extend.kept, h.extend.next, fun _ hu => absurd hu not_mem_nil⟩
  case entered => exact h.entered
  case crossed => exact fun _ hu => absurd hu not_mem_nil
  case back => exact .inl ⟨rfl, hroot.ge⟩

end Root

/-- Leaving a function that reaches a number before its own: it stays on the stack. -/
theorem leave_inner (hinner : t.lowOf v < s.next) : Visited g s t path v (new ++ [v]) := by
  have hvnum := h.num_eq
  obtain ⟨y, hy, hynum, hreach⟩ := h.back
  -- What is reached is below the function on the stack.
  have hbelow : y ∈ s.stack := by
    rw [h.extend.stack, mem_append] at hy
    refine hy.resolve_left fun hy => ?_
    have hle := (h.extend.fresh y hy).2
    omega
  have hback : ∃ x ∈ path, t.num x ≤ t.num y ∧ g.Reaches v x := by
    obtain ⟨x, hx, hle, hyx⟩ := h.sound.up y hy
    obtain rfl | hx := mem_cons.1 hx
    · omega
    · exact ⟨x, hx, hle, hreach.trans hyx⟩
  refine ⟨?_, h.extend, h.entered, fun u hu w hw hedge => ?_, .inr ⟨y, hbelow, ?_, hreach⟩⟩
  · exact
      { h.sound with
        onStack := fun x hx => h.sound.onStack x (mem_cons_of_mem _ hx)
        left := fun u hu hup w hedge => h.entered_callee hall hu hup hedge
        down := fun x hx => h.sound.down x (mem_cons_of_mem _ hx)
        up := fun w hw => by
          obtain ⟨x, hx, hle, hwx⟩ := h.sound.up w hw
          obtain rfl | hx := mem_cons.1 hx
          · obtain ⟨x', hx', hle', hvx'⟩ := hback
            exact ⟨x', hx', by omega, hwx.trans hvx'⟩
          · exact ⟨x, hx, hle, hwx⟩ }
  · obtain hu | hu := mem_append.1 hu
    · exact h.crossed u hu w hw hedge
    · obtain rfl := mem_singleton.1 hu
      exact (h.followed w (hall w hedge)).2 hw
  · rw [← hynum]
    exact (h.extend.num_eq (hs.entered_of_stack hbelow)).symm

/-- **Leaving a function** whose callees have all been followed. -/
theorem leave : ∃ new', Visited g s (t.leave v) path v new' := by
  rw [Search.leave, h.number]
  split
  · next hroot =>
    have hnew : ∀ u ∈ new, decide (u ≠ v) = true := fun u hu => decide_eq_true (h.new_not_mem hu).1
    have hspan : t.stack.span (· ≠ v) = (new, v :: s.stack) := by
      rw [span_eq_takeWhile_dropWhile, h.extend.stack, append_assoc, singleton_append,
        takeWhile_append_of_pos hnew, dropWhile_append_of_pos hnew]
      simp
    rw [hspan]
    exact ⟨[], h.leave_root hs hall (Option.some.inj hroot)⟩
  · next hroot =>
    have hlow := h.low_le
    exact ⟨new ++ [v], h.leave_inner hs hall (Nat.lt_of_le_of_ne hlow fun heq => hroot (congrArg some heq))⟩

end Scanning

end Steps

end Search

/-! ## Visits -/

namespace CallGraph

open Search

/-- Follows one callee of a function. -/
def follow (g : CallGraph) (depth : Nat) (v : FuncId) (s : Search) (w : FuncId) : Search :=
  match s.indexOf w with
  | none => (g.visit depth s w).reach v ((g.visit depth s w).lowOf w)
  | some n => if s.stack.contains w then s.reach v n else s

theorem visit_succ (g : CallGraph) (depth : Nat) (s : Search) (v : FuncId) :
    g.visit (depth + 1) s v = ((g.calls v).foldl (g.follow depth v) (s.enter v)).leave v := rfl

def InRange (g : CallGraph) : Prop := ∀ v w, g.Edge v w → w < g.edges.size

section Follow

variable {g : CallGraph} {depth : Nat} {s t : Search} {path : List FuncId} {v w : FuncId}
  {ws new : List FuncId}

/-- Following one callee, if it can be visited should it not have been entered. -/
theorem scanning_follow (hs : Sound g s path) (h : Scanning g s t path v ws new) (hedge : g.Edge v w)
    (hvisit : ¬t.Entered w → ∃ more, Visited g t (g.visit depth t w) (v :: path) w more) :
    ∃ new', Scanning g s (g.follow depth v t w) path v (w :: ws) new' := by
  rw [follow]
  split
  · next hw =>
    obtain ⟨more, hvisited⟩ := hvisit (not_not.2 hw)
    exact ⟨more ++ new, h.follow_visited hs hedge (not_not.2 hw) hvisited⟩
  · next n hn =>
    split
    · next hw => exact ⟨new, h.follow_stack hs hedge hn (contains_iff_mem.1 hw)⟩
    · next hw =>
      have hent : t.Entered w := by
        rw [Entered, hn]
        exact Option.some_ne_none n
      exact ⟨new, h.follow_done hent (mt contains_iff_mem.2 hw)⟩

theorem scanning_follows (hs : Sound g s path)
    (hvisit : ∀ {t : Search} {ws new : List FuncId} {w : FuncId}, Scanning g s t path v ws new →
      g.Edge v w → ¬t.Entered w → ∃ more, Visited g t (g.visit depth t w) (v :: path) w more) :
    ∀ (rest : List FuncId) {t : Search} {ws new : List FuncId}, Scanning g s t path v ws new →
      (∀ w ∈ rest, g.Edge v w) →
      ∃ new', Scanning g s (rest.foldl (g.follow depth v) t) path v (rest.reverse ++ ws) new'
  | [], _, _, new, h, _ => ⟨new, h⟩
  | w :: rest, _, _, _, h, hedges => by
    obtain ⟨hedge, hedges⟩ := forall_mem_cons.1 hedges
    obtain ⟨new', h'⟩ := scanning_follow hs h hedge (hvisit h hedge)
    rw [reverse_cons, append_assoc]
    exact scanning_follows hs hvisit rest h' hedges

end Follow

/-- **One visit keeps the search sound**, if it may go as deep as there are functions left to enter. -/
theorem visited_visit {g : CallGraph} (hg : g.InRange) : ∀ {depth : Nat} {s : Search}
    {path : List FuncId} {v : FuncId}, Sound g s path → v < g.edges.size → ¬s.Entered v →
    (∀ x ∈ path, g.Reaches x v) → g.edges.size ≤ s.next + depth →
    ∃ new, Visited g s (g.visit depth s v) path v new
  | 0, s, path, v, hs, hv, hnew, _, hdepth => by
    have hlt := hs.next_lt hv hnew
    omega
  | depth + 1, s, path, v, hs, hv, hnew, hpath, hdepth => by
    have hvisit : ∀ {t : Search} {ws new : List FuncId} {w : FuncId}, Scanning g s t path v ws new →
        g.Edge v w → ¬t.Entered w → ∃ more, Visited g t (g.visit depth t w) (v :: path) w more := by
      intro t ws new w h hedge hw
      refine visited_visit hg h.sound (hg v w hedge) hw (fun x hx => ?_) ?_
      · obtain rfl | hx := mem_cons.1 hx
        · exact .single hedge
        · exact (hpath x hx).tail hedge
      · have hlt := h.next_lt
        omega
    obtain ⟨new, h⟩ :=
      scanning_follows hs hvisit (g.calls v) (scanning_enter hs hv hnew hpath) fun _ hw => hw
    rw [visit_succ]
    exact h.leave hs fun w hw => mem_append_left _ (mem_reverse.2 hw)

end CallGraph

end MxStar.Pass
