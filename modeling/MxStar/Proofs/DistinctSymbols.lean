import MxStar.Proofs.DeclaredNames

/-!
The symbols of a listing.

Symbols of different kinds start differently, and none is that of an external function
(`not_mem_externs`). The symbol of a method does not show where the name of the class ends, so the symbols
of a listing are distinct if and only if those of the methods are (`symbols_of_compiles`).
-/
namespace MxStar

open MxStar.Tree IR List

def Asm.Listing.symbols (l : Asm.Listing) : List String :=
  l.routines.map (·.name) ++ l.data.map (·.label)

def Tree.Decl.labels (d : Decl) : List String := (Lowering.declSignatures d).map Prod.snd

def Tree.Decl.methodLabels : Decl → List String
  | .cls c => c.methods.map fun m => Lowering.methodLabel c.name m.name
  | _ => []

/-! ## How symbols start -/

theorem take_functionLabel (name : String) :
    (Lowering.functionLabel name).toList.take 2 = ['f', '_'] := by
  rw [Lowering.functionLabel, String.toList_append]
  rfl

theorem take_methodLabel (cls method : String) :
    (Lowering.methodLabel cls method).toList.take 2 = ['m', '_'] := by
  rw [Lowering.methodLabel, String.toList_append, String.toList_append, String.toList_append,
    append_assoc, append_assoc]
  rfl

theorem take_label {d : Decl} {label : String} (h : label ∈ d.labels) :
    label.toList.take 2 = ['f', '_'] ∨ label.toList.take 2 = ['m', '_'] := by
  cases d with
  | var => cases h
  | func f =>
    obtain rfl := mem_singleton.1 h
    exact .inl (take_functionLabel f.name)
  | cls c =>
    obtain ⟨sig, hsig, rfl⟩ := mem_map.1 h
    obtain ⟨m, -, rfl⟩ := mem_map.1 hsig
    exact .inr (take_methodLabel c.name m.name)

theorem toList_staticLabel (s : Static) (i : StaticId) :
    (Pass.staticLabel s i).toList = "__static_".toList ++ (match s.init with
      | .word => "var_".toList ++ (Nat.toDigits 10 i ++ '_' :: (Text.symbol s.name).toList)
      | .text _ => "str_".toList ++ Nat.toDigits 10 i) := by
  rw [Pass.staticLabel]
  cases s.init with
  | word =>
    show ("__static_var_" ++ i.repr ++ "_" ++ Text.symbol s.name).toList = _
    rw [String.toList_append, String.toList_append, String.toList_append, Asm.toList_repr,
      append_assoc, append_assoc]
    rfl
  | text t =>
    show ("__static_str_" ++ i.repr).toList = _
    rw [String.toList_append, Asm.toList_repr]
    rfl

theorem take_staticLabel (s : Static) (i : StaticId) :
    (Pass.staticLabel s i).toList.take 3 = ['_', '_', 's'] := by
  rw [toList_staticLabel]
  rfl

theorem staticLabel_inj {s t : Static} {i j : StaticId}
    (h : Pass.staticLabel s i = Pass.staticLabel t j) : i = j := by
  have hlist := congrArg String.toList h
  rw [toList_staticLabel, toList_staticLabel, append_cancel_left_eq] at hlist
  cases hs : s.init with
  | word =>
    cases ht : t.init with
    | word =>
      rw [hs, ht] at hlist
      exact Asm.eq_of_toDigits_append (takeWhile_cons_of_neg (by decide))
        (takeWhile_cons_of_neg (by decide)) (append_cancel_left hlist)
    | text =>
      rw [hs, ht] at hlist
      have hfirst : some 'v' = some 's' := congrArg (·[0]?) hlist
      exact absurd hfirst (by decide)
  | text =>
    cases ht : t.init with
    | word =>
      rw [hs, ht] at hlist
      have hfirst : some 's' = some 'v' := congrArg (·[0]?) hlist
      exact absurd hfirst (by decide)
    | text =>
      rw [hs, ht] at hlist
      have hdigits := append_cancel_left hlist
      rw [← append_nil (Nat.toDigits 10 i), ← append_nil (Nat.toDigits 10 j)] at hdigits
      exact Asm.eq_of_toDigits_append rfl rfl hdigits

/-! ## Symbols of functions -/

theorem functionLabel_inj {name name' : String}
    (h : Lowering.functionLabel name = Lowering.functionLabel name') : name = name' :=
  String.append_right_inj _ |>.1 h

theorem labels_cls (c : ClassDecl) : Tree.Decl.labels (.cls c) = Tree.Decl.methodLabels (.cls c) :=
  map_map

/-- The symbols of functions and methods are distinct if and only if those of the methods are. -/
theorem nodup_labels_iff {decls : List Decl} (h : decls.Pairwise (·.binding ≠ ·.binding)) :
    (decls.flatMap Tree.Decl.labels).Nodup ↔ (decls.flatMap Tree.Decl.methodLabels).Nodup := by
  rw [nodup_flatMap, nodup_flatMap]
  have heach : ∀ d : Decl, d.labels.Nodup ↔ d.methodLabels.Nodup := by
    intro d
    cases d with
    | var => exact Iff.rfl
    | func => simp [Tree.Decl.labels, Tree.Decl.methodLabels, Lowering.declSignatures]
    | cls c => rw [labels_cls]
  have hpair : ∀ d d' : Decl, d.binding ≠ d'.binding →
      (d.labels.Disjoint d'.labels ↔ d.methodLabels.Disjoint d'.methodLabels) := by
    intro d d' hapart
    have hkinds : ∀ (f : FuncDecl) (c : ClassDecl),
        (Tree.Decl.labels (.func f)).Disjoint (Tree.Decl.labels (.cls c)) := by
      intro f c label hf hc
      obtain rfl := mem_singleton.1 hf
      rw [labels_cls] at hc
      obtain ⟨m, -, hm⟩ := mem_map.1 hc
      have htake := take_methodLabel c.name m.name
      rw [hm, take_functionLabel] at htake
      exact absurd htake (by decide)
    cases d with
    | var => exact iff_of_true (disjoint_nil_left _) (disjoint_nil_left _)
    | func f =>
      refine iff_of_true ?_ (disjoint_nil_left _)
      cases d' with
      | var => exact disjoint_nil_right _
      | func g =>
        intro label hf hg
        obtain rfl := mem_singleton.1 hf
        exact hapart (congrArg (Prod.mk _) (functionLabel_inj (mem_singleton.1 hg)))
      | cls c => exact hkinds f c
    | cls c =>
      cases d' with
      | var => exact iff_of_true (disjoint_nil_right _) (disjoint_nil_right _)
      | func g => exact iff_of_true (List.disjoint_comm.1 (hkinds g c)) (disjoint_nil_right _)
      | cls c' => rw [labels_cls, labels_cls]
  refine and_congr (forall₂_congr fun d _ => heach d) ⟨fun hd => ?_, fun hd => ?_⟩
  · exact (h.and hd).imp fun hx => (hpair _ _ hx.1).1 hx.2
  · exact (h.and hd).imp fun hx => (hpair _ _ hx.1).2 hx.2

/-! ## Listings -/

section Listings

variable {options : Options} {tree : Tree.Program} {ir p : IR.Program} {l : Asm.Listing}

theorem Compiles.routineNames (h : Compiles options tree ir p l)
    (hnames : namesConsistOf Text.isSymbolChar tree = true) :
    l.routines.map (·.name) = tree.decls.flatMap Tree.Decl.labels ++ ["main"] := by
  have hdots : namesConsistOf (· ≠ '.') tree = true := by
    rw [namesConsistOf_iff] at hnames ⊢
    intro d hd name hname c hc
    refine decide_eq_true ?_
    rintro rfl
    exact absurd (hnames d hd name hname '.' hc) (by decide)
  rw [h.labels hdots, map_flatMap]
  rfl

theorem Compiles.dataLabels (h : Compiles options tree ir p l) :
    ∃ statics : List Static, l.data.map (·.label) = statics.mapIdx fun i s => Pass.staticLabel s i := by
  obtain ⟨scope, -, hir⟩ := h.lowered
  obtain ⟨unit, -, hir⟩ := Except.bind_eq_ok.1 hir
  cases hir
  rw [h.data, h.statics, map_map, optimize, Pass.layoutStatics, Pass.assignLabels,
    Array.toList_mapIdx, mapIdx_eq_zipIdx_map, map_map]
  exact ⟨_, (mapIdx_eq_zipIdx_map (f := fun i s => Pass.staticLabel s i)).symm⟩

theorem nodup_staticLabels (statics : List Static) :
    (statics.mapIdx fun i s => Pass.staticLabel s i).Nodup := by
  refine pairwise_iff_getElem.2 fun i j hi hj hij heq => ?_
  rw [getElem_mapIdx, getElem_mapIdx] at heq
  exact Nat.ne_of_lt hij (staticLabel_inj heq)

/-- A symbol that is defined starts unlike all external ones, or is that of the entry. -/
theorem not_mem_externs {name : String} (b : Builtin) (h : (∃ d : Decl, name ∈ d.labels) ∨
    name = "main" ∨ ∃ s i, name = Pass.staticLabel s i) : b.symbol ≠ name := by
  obtain ⟨d, hd⟩ | rfl | ⟨s, i, rfl⟩ := h
  · rintro rfl
    have hnone : b.symbol.toList.take 2 ≠ ['f', '_'] ∧ b.symbol.toList.take 2 ≠ ['m', '_'] := by
      cases b <;> decide
    exact (take_label hd).elim hnone.1 hnone.2
  · cases b <;> decide
  · intro heq
    have htake := take_staticLabel s i
    rw [← heq] at htake
    revert htake
    cases b <;> decide

/-- **How the symbols of a listing may clash.** They are distinct if and only if those of the methods
are, and none of them is external. -/
theorem symbols_of_compiles (h : Compiles options tree ir p l)
    (hnames : namesConsistOf Text.isSymbolChar tree = true) :
    (l.symbols.Nodup ↔ (tree.decls.flatMap Tree.Decl.methodLabels).Nodup) ∧
      ∀ name ∈ l.externs, name ∉ l.symbols := by
  obtain ⟨scope, hscope, -⟩ := h.lowered
  obtain ⟨statics, hdata⟩ := h.dataLabels
  have hroutines := h.routineNames hnames
  rw [Asm.Listing.symbols, hroutines, hdata]
  constructor
  · -- Symbols of functions, of the entry and of data start differently.
    have hmain : (tree.decls.flatMap Tree.Decl.labels).Disjoint ["main"] := by
      intro name hname hmain
      obtain ⟨d, -, hd⟩ := List.mem_flatMap.1 hname
      obtain rfl := List.mem_singleton.1 hmain
      exact absurd (take_label hd) (by decide)
    have hstatics : (tree.decls.flatMap Tree.Decl.labels ++ ["main"]).Disjoint
        (statics.mapIdx fun i s => Pass.staticLabel s i) := by
      intro name hname hstatic
      obtain ⟨i, hi, rfl⟩ := List.mem_mapIdx.1 hstatic
      have htake := congrArg (List.take 2) (take_staticLabel statics[i] i)
      rw [List.take_take] at htake
      rcases List.mem_append.1 hname with hname | hname
      · obtain ⟨d, -, hd⟩ := List.mem_flatMap.1 hname
        have hlead := take_label hd
        rw [show (2 : Nat) = min 2 3 from rfl, htake] at hlead
        exact absurd hlead (by decide)
      · rw [List.mem_singleton.1 hname] at htake
        exact absurd htake (by decide)
    rw [← nodup_labels_iff (ofProgram_eq_ok_iff.1 hscope).1, List.nodup_append', List.nodup_append']
    exact ⟨fun h => h.1.1, fun h =>
      ⟨⟨h, List.nodup_singleton _, hmain⟩, nodup_staticLabels statics, hstatics⟩⟩
  · intro name hextern hdefined
    rw [h.externs] at hextern
    obtain ⟨b, -, rfl⟩ := List.mem_map.1 hextern
    refine not_mem_externs b ?_ rfl
    rw [List.mem_append, List.mem_append, or_assoc] at hdefined
    obtain hname | hname | hname := hdefined
    · obtain ⟨d, -, hd⟩ := List.mem_flatMap.1 hname
      exact .inl ⟨d, hd⟩
    · exact .inr (.inl (List.mem_singleton.1 hname))
    · obtain ⟨i, hi, heq⟩ := List.mem_mapIdx.1 hname
      exact .inr (.inr ⟨_, i, heq.symm⟩)

end Listings

/-! ## Methods with the same symbol -/

/-- Two classes with one method each, and a `main`. -/
def twoClasses (first second : String) : Tree.Program :=
  let method (name : String) : FuncDecl := { name := name, ret := .void, params := [], body := [] }
  { decls := [
      .cls { name := "a", fields := [], methods := [method first] },
      .cls { name := "a_b", fields := [], methods := [method second] },
      .func { name := "main", ret := .int, params := [], body := [] }] }

theorem symbols_of_twoClasses : ∃ ir p l, Compiles {} (twoClasses "b" "c") ir p l ∧
    namesConsistOf Text.isSymbolChar (twoClasses "b" "c") = true ∧ l.symbols.Nodup ∧
      ∀ name ∈ l.externs, name ∉ l.symbols := by
  have hcompiles : (do
      let ir ← compileToIR (← Scope.ofProgram (twoClasses "b" "c")) {} (twoClasses "b" "c")
      let x ← assemble PhysReg.allocatable ir
      return x.2.routines.length) = .ok 4 := by
    decide +kernel
  obtain ⟨scope, hscope, h⟩ := Except.bind_eq_ok.1 hcompiles
  obtain ⟨ir, hir, h⟩ := Except.bind_eq_ok.1 h
  obtain ⟨⟨p, l⟩, hl, -⟩ := Except.bind_eq_ok.1 h
  have hc : Compiles {} (twoClasses "b" "c") ir p l := ⟨⟨scope, hscope, hir⟩, hl⟩
  have hnames : namesConsistOf Text.isSymbolChar (twoClasses "b" "c") = true := by decide +kernel
  obtain ⟨hnodup, hexterns⟩ := symbols_of_compiles hc hnames
  exact ⟨ir, p, l, hc, hnames, hnodup.2 (by decide +kernel), hexterns⟩

/-- The method `b_c` of a class `a` has the same symbol as the method `c` of a class `a_b`. -/
theorem symbols_clash : ∃ ir p l, Compiles {} (twoClasses "b_c" "c") ir p l ∧
    namesConsistOf Text.isSymbolChar (twoClasses "b_c" "c") = true ∧ ¬l.symbols.Nodup := by
  have hclash : (do
      let ir ← compileToIR (← Scope.ofProgram (twoClasses "b_c" "c")) {} (twoClasses "b_c" "c")
      let x ← assemble PhysReg.allocatable ir
      return decide x.2.symbols.Nodup) = .ok false := by
    decide +kernel
  obtain ⟨scope, hscope, h⟩ := Except.bind_eq_ok.1 hclash
  obtain ⟨ir, hir, h⟩ := Except.bind_eq_ok.1 h
  obtain ⟨⟨p, l⟩, hl, h⟩ := Except.bind_eq_ok.1 h
  exact ⟨ir, p, l, ⟨⟨scope, hscope, hir⟩, hl⟩, by decide +kernel, of_decide_eq_false (Except.ok.inj h)⟩

end MxStar
