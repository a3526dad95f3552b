import MxStar.Proofs.CallSearch

/-!
The components of a call graph, and the functions that can call themselves.

In the end of the search every function is in one component (`exists_layers`). Components are connected
and lead only to those complete before them, which says what they are (`mem_component_iff`).
-/
namespace MxStar.Pass

open IR List

/-! ## Layers -/

namespace CallGraph

variable {g : CallGraph}

/-- In layers that are connected, a component has all functions that reach each other. -/
theorem mem_component_iff {v w : FuncId} : ∀ {cs : List (List FuncId)}, g.Layered cs → cs.flatten.Nodup →
    (∀ c ∈ cs, ∀ x ∈ c, ∀ y ∈ c, g.Reaches x y) → ∀ c ∈ cs, v ∈ c →
    (w ∈ c ↔ g.Reaches v w ∧ g.Reaches w v)
  | c :: rest, hlayered, hnd, hconn, d, hd, hv => by
    rw [flatten_cons, nodup_append] at hnd
    obtain ⟨-, hrest, hdisj⟩ := hnd
    obtain rfl | hd := mem_cons.1 hd
    · refine ⟨fun hw => ⟨hconn d mem_cons_self v hv w hw, hconn d mem_cons_self w hw v hv⟩,
        fun ⟨hvw, hwv⟩ => ?_⟩
      have hw := hlayered.reaches hvw (mem_flatten_of_mem mem_cons_self hv)
      rw [flatten_cons, mem_append] at hw
      exact hw.resolve_right fun hw => hdisj v hv v (hlayered.2.reaches hwv hw) rfl
    · exact mem_component_iff hlayered.2 hrest (fun c hc => hconn c (mem_cons_of_mem _ hc)) d hd hv

/-- No component calls into one that comes before it in the list. -/
theorem Layered.pairwise : ∀ {cs : List (List FuncId)}, g.Layered cs → cs.flatten.Nodup →
    cs.Pairwise fun later earlier => ∀ v ∈ earlier, ∀ w ∈ later, ¬g.Edge v w
  | [], _, _ => .nil
  | c :: rest, hlayered, hnd => by
    rw [flatten_cons, nodup_append] at hnd
    obtain ⟨-, hrest, hdisj⟩ := hnd
    refine .cons (fun d hd v hv w hw hedge => ?_) (hlayered.2.pairwise hrest)
    exact hdisj w hw w (hlayered.2.edge hedge (mem_flatten_of_mem hd hv)) rfl

/-! ## The whole search -/

theorem sound_start (g : CallGraph) : Search.Sound g (.start g.edges.size) [] := by
  have hnone : ∀ v, ¬(Search.start g.edges.size).Entered v := fun v hv => hv <| by
    rw [Search.indexOf, Search.start, Array.getElem?_replicate]
    split <;> rfl
  constructor <;> simp_all [Search.start, Layered]

theorem sound_visits (hg : g.InRange) : ∀ {l : List FuncId} {s : Search}, Search.Sound g s [] →
    (∀ v ∈ l, v < g.edges.size) →
    let t := l.foldl (fun s v => if (s.indexOf v).isSome then s else g.visit g.edges.size s v) s
    Search.Sound g t [] ∧ ∀ v, s.Entered v ∨ v ∈ l → t.Entered v
  | [], s, hs, _ => ⟨hs, fun v hv => hv.resolve_right not_mem_nil⟩
  | v :: l, s, hs, hl => by
    obtain ⟨hv, hl⟩ := forall_mem_cons.1 hl
    have hstep : ∃ t, (if (s.indexOf v).isSome then s else g.visit g.edges.size s v) = t ∧
        Search.Sound g t [] ∧ ∀ u, s.Entered u ∨ u = v → t.Entered u := by
      refine ⟨_, rfl, ?_⟩
      split
      · next hentered =>
        refine ⟨hs, fun u hu => hu.elim id ?_⟩
        rintro rfl
        exact Option.isSome_iff_ne_none.1 hentered
      · next hnew =>
        have hnew : ¬s.Entered v := fun h => hnew (Option.isSome_iff_ne_none.2 h)
        obtain ⟨new, hvisit⟩ := visited_visit hg hs hv hnew (fun _ hx => absurd hx not_mem_nil)
          (Nat.le_add_left ..)
        refine ⟨hvisit.sound, fun u hu => hu.elim hvisit.extend.entered ?_⟩
        rintro rfl
        exact hvisit.entered
    obtain ⟨t, ht, hsound, hentered⟩ := hstep
    obtain ⟨hsound', hentered'⟩ := sound_visits hg hsound hl
    rw [foldl_cons, ht]
    refine ⟨hsound', fun u hu => hentered' u ?_⟩
    obtain hu | hu := hu
    · exact .inl (hentered u (.inl hu))
    · obtain rfl | hu := mem_cons.1 hu
      · exact .inl (hentered u (.inr rfl))
      · exact .inr hu

/-- The search ends with all functions in components, the ones that call first. -/
theorem exists_layers (hg : g.InRange) : ∃ cs, g.components = cs.reverse ∧ g.Layered cs ∧
    cs.flatten.Nodup ∧ (∀ c ∈ cs, ∀ v ∈ c, ∀ w ∈ c, g.Reaches v w) ∧
    ∀ v, v ∈ cs.flatten ↔ v < g.edges.size := by
  obtain ⟨hs, hentered⟩ := sound_visits hg (sound_start g) fun _ => mem_range.1
  refine ⟨_, rfl, hs.layered, hs.nodup.of_append_right, hs.connected, fun v => ⟨fun hv => ?_, fun hv => ?_⟩⟩
  · rw [← hs.index_size]
    exact ((hs.entered v).2 (.inr hv)).lt_size
  · -- Nothing is left on the stack, since the path is empty.
    refine ((hs.entered v).1 (hentered v (.inr (mem_range.2 hv)))).resolve_left fun hstack => ?_
    obtain ⟨x, hx, -⟩ := hs.up v hstack
    cases hx

end CallGraph

/-! ## Programs -/

def Calls (p : Program) (f h : FuncId) : Prop :=
  ∃ func ∈ p.functions[f]?, ∃ dst args n, .call dst (.func h) args n ∈ func.instrs

theorem edge_ofProgram {p : Program} {f h : FuncId} :
    (CallGraph.ofProgram p).Edge f h ↔ Calls p f h := by
  rw [CallGraph.Edge, CallGraph.calls, CallGraph.ofProgram, Calls, Array.getElem?_map]
  cases p.functions[f]? with
  | none => simp [EmptyCollection.emptyCollection]
  | some func =>
    rw [Option.map_some, Option.getD_some, callees, ← SortedSet.mem_def, SortedSet.mem_ofList,
      mem_filterMap]
    constructor
    · rintro ⟨i, hi, hcall⟩
      split at hcall
      · cases hcall
        exact ⟨func, rfl, _, _, _, hi⟩
      · cases hcall
    · rintro ⟨_, ⟨⟩, dst, args, n, hi⟩
      exact ⟨_, hi, rfl⟩

/-- A function is in a component that counts as a cycle just if it leads back to itself. -/
theorem isCycle_iff {g : CallGraph} {c : List FuncId} (hnd : c.Nodup) {v : FuncId} (hv : v ∈ c)
    (hc : ∀ w, w ∈ c ↔ g.Reaches v w ∧ g.Reaches w v) :
    g.isCycle c = true ↔ Relation.TransGen g.Edge v v := by
  constructor
  · intro hcycle
    by_cases hother : ∃ w ∈ c, w ≠ v
    · obtain ⟨w, hw, hne⟩ := hother
      obtain ⟨hvw, hwv⟩ := (hc w).1 hw
      obtain rfl | ⟨u, hvu, huw⟩ := Relation.ReflTransGen.cases_head hvw
      · exact absurd rfl hne
      · exact .head' hvu (huw.trans hwv)
    · -- The function is alone, and calls itself.
      obtain rfl : c = [v] := by
        refine perm_singleton.1 ((perm_ext_iff_of_nodup hnd (nodup_singleton v)).2 fun w => ?_)
        rw [mem_singleton]
        exact ⟨fun hw => by_contra fun hne => hother ⟨w, hw, hne⟩, fun hw => hw ▸ hv⟩
      exact .single (contains_iff_mem.1 hcycle)
  · intro hloop
    obtain ⟨w, hvw, hwv⟩ := Relation.TransGen.head'_iff.1 hloop
    have hw : w ∈ c := (hc w).2 ⟨.single hvw, hwv⟩
    match c, hv, hw with
    | [u], hv, hw =>
      obtain rfl := mem_singleton.1 hv
      obtain rfl := mem_singleton.1 hw
      exact contains_iff_mem.2 hvw
    | _ :: _ :: _, _, _ => rfl

/-- **Components and recursion are exact.** In a program whose calls are in range, every function is in one
component; a component has just the functions that reach each other through calls; a function that calls one
of another component comes in a later one; and the functions found recursive are those that lead back to
themselves through at least one call. -/
theorem components_exact {p : Program} (hp : ∀ f h, Calls p f h → h < p.functions.size) :
    let g := CallGraph.ofProgram p
    g.components.flatten.Perm (List.range p.functions.size) ∧
    (∀ c ∈ g.components, ∀ f ∈ c, ∀ h,
      h ∈ c ↔ Relation.ReflTransGen (Calls p) f h ∧ Relation.ReflTransGen (Calls p) h f) ∧
    (∀ (i j : Nat) c d, g.components[i]? = some c → g.components[j]? = some d →
      ∀ f ∈ c, ∀ h ∈ d, Calls p f h → i ≠ j → j < i) ∧
    ∀ f, f ∈ g.recursive ↔ Relation.TransGen (Calls p) f f := by
  intro g
  have hedge : g.Edge = Calls p := by
    ext f h
    exact edge_ofProgram
  have hsize : g.edges.size = p.functions.size := Array.size_map ..
  have hrange : g.InRange := fun f h hfh => hsize ▸ hp f h (edge_ofProgram.1 hfh)
  obtain ⟨cs, hcs, hlayered, hnd, hconn, hall⟩ := g.exists_layers hrange
  have hmem := fun {f h} => g.mem_component_iff (v := f) (w := h) hlayered hnd hconn
  rw [← hedge, ← hsize]
  have hperm : cs.reverse.flatten.Perm cs.flatten := List.Perm.flatten (List.reverse_perm cs)
  refine ⟨?_, fun c hc f hf h => ?_, fun i j c d hi hj f hf h hh hfh hne => ?_, fun f => ?_⟩
  · rw [hcs]
    refine hperm.trans ((List.perm_ext_iff_of_nodup hnd List.nodup_range).2 fun f => ?_)
    rw [hall, List.mem_range]
  · rw [hcs, List.mem_reverse] at hc
    exact hmem c hc hf
  · rw [hcs] at hi hj
    by_contra hle
    have hlt : i < j := by omega
    obtain ⟨hi', rfl⟩ := List.getElem?_eq_some_iff.1 hi
    obtain ⟨hj', rfl⟩ := List.getElem?_eq_some_iff.1 hj
    have hpairwise := List.pairwise_reverse.2 (hlayered.pairwise hnd)
    exact List.pairwise_iff_getElem.1 hpairwise i j hi' hj' hlt f hf h hh hfh
  · have hcycle : ∀ c ∈ cs, f ∈ c → (g.isCycle c = true ↔ Relation.TransGen g.Edge f f) := fun c hc hf =>
      isCycle_iff ((List.nodup_flatten.1 hnd).1 c hc) hf fun w => hmem c hc hf
    rw [CallGraph.recursive, SortedSet.mem_ofList, List.mem_flatten]
    simp only [hcs, List.mem_filter, List.mem_reverse]
    constructor
    · rintro ⟨c, ⟨hc, hcyc⟩, hf⟩
      exact (hcycle c hc hf).1 hcyc
    · intro hloop
      obtain ⟨h, -, hhf⟩ := Relation.TransGen.tail'_iff.1 hloop
      obtain ⟨c, hc, hf⟩ := List.mem_flatten.1 ((hall f).2 (hrange h f hhf))
      exact ⟨c, ⟨hc, (hcycle c hc hf).2 hloop⟩, hf⟩

/-- A function that calls the functions of the list. -/
def caller (callees : List FuncId) : Func where
  name := "f"
  label := "f"
  blocks := #[{ name := "entry", instrs := callees.map (fun f => .call none (.func f) [] 0) ++ [.ret none] }]
  layout := [0]

/-- The first two functions call each other, and the second one also the third; the third one calls itself;
the last one calls the first and is not called. -/
def parity : Program where
  functions := #[caller [1], caller [0, 2], caller [2], caller [0]]

theorem calls_parity {f h : FuncId} (hcall : Calls parity f h) : h < parity.functions.size := by
  have hcallees : ∀ func ∈ parity.functions.toList, ∀ h ∈ (callees func).toList, h < 4 := by decide +kernel
  have hedge := edge_ofProgram.2 hcall
  rw [CallGraph.Edge, CallGraph.calls, CallGraph.ofProgram, Array.getElem?_map] at hedge
  cases hf : parity.functions[f]? with
  | none =>
    rw [hf] at hedge
    cases hedge
  | some func =>
    rw [hf] at hedge
    exact hcallees func (Array.mem_def.1 (Array.mem_of_getElem? hf)) h hedge

/-- The cycle of the first two comes after the third function, which it calls, and before the last one. -/
theorem components_exact_parity :
    (CallGraph.ofProgram parity).components = [[2], [1, 0], [3]] ∧
    Relation.ReflTransGen (Calls parity) 1 0 ∧ ¬Relation.TransGen (Calls parity) 3 3 ∧
    (CallGraph.ofProgram parity).recursive = ⟨[0, 1, 2]⟩ := by
  have hcomponents : (CallGraph.ofProgram parity).components = [[2], [1, 0], [3]] := by decide +kernel
  have hrecursive : (CallGraph.ofProgram parity).recursive = ⟨[0, 1, 2]⟩ := by decide +kernel
  obtain ⟨-, hsame, -, hloops⟩ := components_exact fun f h => calls_parity
  refine ⟨hcomponents, ((hsame [1, 0] ?_ 1 List.mem_cons_self 0).1 (by decide)).1, fun hloop => ?_,
    hrecursive⟩
  · rw [hcomponents]
    decide
  · have hmem := (hloops 3).2 hloop
    rw [hrecursive, SortedSet.mem_def] at hmem
    exact absurd hmem (by decide)

end MxStar.Pass
