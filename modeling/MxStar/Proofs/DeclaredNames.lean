import MxStar.Proofs.Compilations

/-!
The names that a program declares.

Where nothing is declared twice and no name has a dot in it, no two functions or methods have the same key
(`nodup_keys`). Then the functions of the register code are those that are declared, in order
(`lowerProgram_functions`).
-/
namespace MxStar

open MxStar.Tree IR List

variable {tree : Tree.Program} {scope : Scope} {p : IR.Program}

/-! ## Keys -/

def Tree.Decl.callNames : Decl → List String
  | .var _ => []
  | .func f => [f.name]
  | .cls c => c.name :: c.methods.map (·.name)

def namesConsistOf (allowed : Char → Bool) (tree : Tree.Program) : Bool :=
  tree.decls.all fun d => d.callNames.all fun name => name.toList.all allowed

theorem namesConsistOf_iff {allowed : Char → Bool} :
    namesConsistOf allowed tree = true ↔
      ∀ d ∈ tree.decls, ∀ name ∈ d.callNames, ∀ c ∈ name.toList, allowed c = true := by
  simp only [namesConsistOf, all_eq_true]

/-- A text without a dot before the first dot of another is the text before the first dot. -/
theorem append_dot_inj {a b x y : List Char} (ha : '.' ∉ a) (hb : '.' ∉ b)
    (h : a ++ '.' :: x = b ++ '.' :: y) : a = b ∧ x = y := by
  induction a generalizing b with
  | nil =>
    cases b with
    | nil => exact ⟨rfl, (List.cons.inj h).2⟩
    | cons c b => exact absurd ((List.cons.inj h).1 ▸ mem_cons_self) hb
  | cons c a ih =>
    cases b with
    | nil => exact absurd ((List.cons.inj h).1 ▸ mem_cons_self) ha
    | cons c' b =>
      obtain ⟨rfl, hrest⟩ := List.cons.inj h
      obtain ⟨rfl, hxy⟩ := ih (fun hc => ha (mem_cons_of_mem _ hc))
        (fun hc => hb (mem_cons_of_mem _ hc)) hrest
      exact ⟨rfl, hxy⟩

theorem toList_methodKey (cls method : String) :
    (Lowering.methodKey cls method).toList = cls.toList ++ '.' :: method.toList := by
  rw [Lowering.methodKey, String.toList_append, String.toList_append, append_assoc]
  rfl

theorem methodKey_inj {cls cls' method method' : String} (hcls : '.' ∉ cls.toList)
    (hcls' : '.' ∉ cls'.toList)
    (h : Lowering.methodKey cls method = Lowering.methodKey cls' method') :
    cls = cls' ∧ method = method' := by
  have hlist := congrArg String.toList h
  rw [toList_methodKey, toList_methodKey] at hlist
  obtain ⟨hc, hm⟩ := append_dot_inj hcls hcls' hlist
  exact ⟨String.toList_inj.1 hc, String.toList_inj.1 hm⟩

theorem ne_methodKey {name cls method : String} (hname : '.' ∉ name.toList) :
    name ≠ Lowering.methodKey cls method := by
  rintro rfl
  rw [toList_methodKey] at hname
  exact hname (mem_append_right _ mem_cons_self)

def Tree.Decl.keys (d : Decl) : List String := (Lowering.declSignatures d).map Prod.fst

theorem Tree.Decl.keys_cls (c : ClassDecl) :
    Decl.keys (.cls c) = c.methods.map fun m => Lowering.methodKey c.name m.name :=
  map_map

theorem Tree.Decl.nodup_keys {d : Decl} (h : d.Declarable) : d.keys.Nodup := by
  cases d with
  | var | func => simp [Decl.keys, Lowering.declSignatures]
  | cls c =>
    have hnames : (c.methods.map (·.name)).Nodup := h.2
    rw [Decl.keys_cls, ← Function.comp_def (Lowering.methodKey c.name), ← map_map]
    refine hnames.map fun m m' hkey => ?_
    have hlist := congrArg String.toList hkey
    rw [toList_methodKey, toList_methodKey] at hlist
    exact String.toList_inj.1 (List.cons.inj (append_cancel_left hlist)).2

theorem Tree.Decl.disjoint_keys {d d' : Decl} (hapart : d.binding ≠ d'.binding)
    (hd : ∀ name ∈ d.callNames, '.' ∉ name.toList) (hd' : ∀ name ∈ d'.callNames, '.' ∉ name.toList) :
    d.keys.Disjoint d'.keys := by
  intro key hkey hkey'
  cases d with
  | var => cases hkey
  | func f =>
    obtain rfl := mem_singleton.1 hkey
    cases d' with
    | var => cases hkey'
    | func g => exact hapart (congrArg (Prod.mk _) (mem_singleton.1 hkey'))
    | cls c =>
      rw [Decl.keys_cls] at hkey'
      obtain ⟨m, -, hm⟩ := mem_map.1 hkey'
      exact ne_methodKey (hd _ mem_cons_self) hm.symm
  | cls c =>
    rw [Decl.keys_cls] at hkey
    obtain ⟨m, -, rfl⟩ := mem_map.1 hkey
    cases d' with
    | var => cases hkey'
    | func g => exact ne_methodKey (hd' _ mem_cons_self) (mem_singleton.1 hkey').symm
    | cls c' =>
      rw [Decl.keys_cls] at hkey'
      obtain ⟨m', -, hm⟩ := mem_map.1 hkey'
      have hname := (methodKey_inj (hd' _ mem_cons_self) (hd _ mem_cons_self) hm).1
      exact hapart (congrArg (Prod.mk _) hname.symm)

/-- **Functions and methods have different keys** where no name has a dot in it. -/
theorem nodup_keys (hscope : Scope.ofProgram tree = .ok scope)
    (hnames : namesConsistOf (· ≠ '.') tree = true) :
    ((tree.decls.flatMap Lowering.declSignatures).map Prod.fst).Nodup := by
  obtain ⟨hpairwise, hproper, -⟩ := ofProgram_eq_ok_iff.1 hscope
  have hdots : ∀ d ∈ tree.decls, ∀ name ∈ d.callNames, '.' ∉ name.toList := by
    intro d hd name hname hdot
    have hne := namesConsistOf_iff.1 hnames d hd name hname '.' hdot
    exact absurd hne (by decide)
  rw [map_flatMap, nodup_flatMap]
  refine ⟨fun d hd => Decl.nodup_keys (hproper d hd), ?_⟩
  refine hpairwise.imp_of_mem fun hd hd' hapart => ?_
  exact Decl.disjoint_keys hapart (hdots _ hd) (hdots _ hd')

/-! ## Symbols of functions -/

def IR.Program.labels (p : IR.Program) : List String := p.functions.toList.map (·.label)

section Signatures

variable {env : Lowering.Env} {sigs : List (String × String)} {p : IR.Program}

/-- Where all keys differ, the function with a number is the one that is declared there. -/
theorem Lowering.Filled.exists_function {o : Lowering.Outline}
    (h : Lowering.Filled env sigs.length sigs p) (hcovers : o.Covers sigs) (henv : env.funcs = o.funcs)
    (hkeys : (sigs.map Prod.fst).Nodup) (k : Nat) (sig : String × String)
    (hsig : sigs[k]? = some sig) :
    ∃ f, p.functions[k]? = some f ∧ f.Defined p.statics.size env.Callable ∧
      (f.name, f.label) = sig := by
  have hunique : ∀ {i j : Nat} {a b : String × String}, sigs[i]? = some a → sigs[j]? = some b →
      a.1 = b.1 → i = j := by
    intro i j a b ha hb hab
    refine (getElem?_inj ?_ hkeys).1 ?_
    · rw [length_map]
      exact (List.getElem?_eq_some_iff.1 ha).1
    · rw [getElem?_map, getElem?_map, ha, hb, Option.map_some, Option.map_some, hab]
  obtain ⟨id, hid⟩ := Option.isSome_iff_exists.1 (hcovers.named sig (mem_of_getElem? hsig))
  obtain ⟨sig', hsig', hkey⟩ := hcovers.funcs sig.1 id hid
  obtain rfl := hunique hsig' hsig hkey
  obtain ⟨f, hf, hdef, hmem, hfind⟩ := h.built sig (mem_of_getElem? hsig) id (henv ▸ hid)
  refine ⟨f, hf, hdef, ?_⟩
  obtain ⟨j, hj⟩ := getElem?_of_mem hmem
  obtain ⟨sig'', hsig'', hname⟩ := hcovers.funcs f.name id (henv ▸ hfind)
  obtain rfl := hunique hj hsig'' hname.symm
  exact Option.some.inj (hj.symm.trans hsig)

/-- **The functions of the register code are those that are declared**, in order, and then the entry;
and all of them are built. -/
theorem Lowering.lowerProgram_functions (hscope : Scope.ofProgram tree = .ok scope)
    (h : Lowering.lowerProgram scope tree = .ok p) (hnames : namesConsistOf (· ≠ '.') tree = true) :
    p.labels = (tree.decls.flatMap Lowering.declSignatures).map Prod.snd ++ ["main"] ∧
      ∀ f ∈ p.functions, f.allInstrs ≠ [] := by
  obtain ⟨env, p1, func, henv, hfilled, hfunctions, -, hmakes⟩ := Lowering.lowerProgram_spec hscope h
  have hall := hfilled.exists_function (Lowering.covers_ofProgram tree) henv
    (nodup_keys hscope hnames)
  have hsize := hfilled.size
  generalize tree.decls.flatMap Lowering.declSignatures = sigs at hall hsize
  constructor
  · rw [IR.Program.labels, hfunctions, Array.toList_push, map_append, map_singleton,
      hmakes.label]
    refine congrArg (· ++ ["main"]) (ext_getElem? fun k => ?_)
    rw [getElem?_map, getElem?_map, Array.getElem?_toList]
    cases hk : sigs[k]? with
    | some sig =>
      obtain ⟨f, hf, -, rfl⟩ := hall k sig hk
      rw [hf]
      rfl
    | none =>
      rw [Array.getElem?_eq_none (hsize ▸ List.getElem?_eq_none_iff.1 hk)]
      rfl
  · intro f hf
    rw [hfunctions] at hf
    rcases Array.mem_push.1 hf with hf | rfl
    · obtain ⟨k, hk⟩ := Array.getElem?_of_mem hf
      have hlt : k < sigs.length := hsize ▸ (Array.getElem?_eq_some_iff.1 hk).1
      obtain ⟨f', hf', hdef, -⟩ := hall k _ (getElem?_eq_getElem hlt)
      obtain rfl := Option.some.inj (hk.symm.trans hf')
      exact hdef.allInstrs_ne_nil
    · exact hmakes.defined.allInstrs_ne_nil

end Signatures

/-! ## Later stages -/

theorem labels_mapFunctions {g : Func → Func} (h : ∀ f ∈ p.functions, (g f).label = f.label) :
    (p.mapFunctions g).labels = p.labels := by
  rw [IR.Program.labels, IR.Program.mapFunctions, Array.toList_map, map_map]
  exact map_congr_left fun f hf => h f (Array.mem_toList_iff.1 hf)

namespace Pass

theorem label_cacheGlobals (statics : Array Static) (f : Func) :
    (cacheGlobals statics f).label = f.label := by
  rw [cacheGlobals]
  dsimp only
  split
  · rfl
  · rw [expandLayout_eq]
    rfl

theorem Inlines.labels {q : IR.Program} (h : Inlines p q) : q.labels = p.labels := by
  obtain ⟨s, g, fid, h⟩ := h
  refine ext_getElem? fun k => ?_
  rw [IR.Program.labels, IR.Program.labels, getElem?_map, getElem?_map,
    Array.getElem?_toList, Array.getElem?_toList, h.functions k]
  split
  · next hk =>
    rw [hk, h.caller, Option.map_some, Option.map_some, h.spliced.label]
  · rfl

theorem labels_of_inlines {q : IR.Program} (h : Relation.ReflTransGen Inlines p q) :
    q.labels = p.labels := by
  induction h with
  | refl => rfl
  | tail _ hstep ih => exact hstep.labels.trans ih

theorem labels_layoutStatics (p : IR.Program) : (layoutStatics p).labels = p.labels := by
  have hrename : ∀ (p : IR.Program) (g : StaticId → StaticId), (renameStatics p g).labels = p.labels :=
    fun p g => labels_mapFunctions fun _ _ => rfl
  calc (layoutStatics p).labels
      = (renameStatics (coalesce (cacheInLeaves p)) _).labels := rfl
    _ = (coalesce (cacheInLeaves p)).labels := hrename _ _
    _ = (cacheInLeaves p).labels := hrename _ _
    _ = p.labels := labels_mapFunctions fun f _ => by
      split
      · rfl
      · exact label_cacheGlobals p.statics f

end Pass

theorem labels_optimize (options : Options) (p : IR.Program) :
    (optimize options p).labels = p.labels := by
  have htwo : (Pass.twoOperand p).labels = p.labels := labels_mapFunctions fun _ _ => rfl
  rw [optimize, Pass.labels_layoutStatics]
  split
  · exact (Pass.labels_of_inlines (Pass.inlines_inlineCalls {} _)).trans htwo
  · exact htwo

theorem Alloc.label_allocate {palette : List PhysReg} {f g : Func} {stats : Alloc.Stats}
    (hf : f.Shaped) (h : Alloc.allocate palette f = .ok (g, stats)) : g.label = f.label :=
  Alloc.allocateFrom_induct (P := fun g => g.label = f.label) (Q := fun g => g.label = f.label)
    (fun _ hs h => hs.label.trans h) (fun hf _ _ h => (Alloc.label_applyColoring hf _).trans h) hf rfl h

theorem map_eq_map_of_forall₂ {α β γ : Type} {R : α → β → Prop} {f : α → γ} {g : β → γ} {as : List α}
    {bs : List β} (h : List.Forall₂ R as bs) (hfg : ∀ a b, R a b → g b = f a) :
    bs.map g = as.map f := by
  induction h with
  | nil => rfl
  | cons hab _ ih => rw [map_cons, map_cons, hfg _ _ hab, ih]

/-- The symbols of the routines are those that the declared functions have, and that of the entry. -/
theorem Compiles.labels {options : Options} {ir : IR.Program} {l : Asm.Listing}
    (h : Compiles options tree ir p l) (hnames : namesConsistOf (· ≠ '.') tree = true) :
    l.routines.map (·.name) =
      (tree.decls.flatMap Lowering.declSignatures).map Prod.snd ++ ["main"] := by
  obtain ⟨scope, hscope, hir⟩ := h.lowered
  obtain ⟨unit, hunit, hir⟩ := Except.bind_eq_ok.1 hir
  cases hir
  calc l.routines.map (·.name)
      = p.labels := map_eq_map_of_forall₂ h.forall₂_routines fun f x ⟨y, hy, hx⟩ => by
        rw [← hx, Asm.name_cleanRoutine, Asm.name_routine hy]
    _ = (optimize options unit).labels := map_eq_map_of_forall₂ h.forall₂_allocated
        fun f0 f ⟨g, stats, hconv, halloc⟩ =>
          (Alloc.label_allocate hconv.shaped halloc).trans hconv.label
    _ = unit.labels := labels_optimize options unit
    _ = _ := (Lowering.lowerProgram_functions hscope hunit hnames).1

end MxStar
