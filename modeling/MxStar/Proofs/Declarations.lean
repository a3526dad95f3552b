import Mathlib.Data.List.Pairwise
import Mathlib.Algebra.Group.Nat.Defs
import MxStar.Proofs.Results
import MxStar.Scope

/-!
The declarations of a program, collected in a scope.

A declaration is admitted unless its name is taken or, for a class, a member is declared twice
(`Scope.run_enter_of_admits`); if it is not, it leaves the scope as it was (`Scope.run_enter_of_not_admits`).
Whatever is declared one after another, some of it in vain, a name stands for the first declaration of it
that is sound in itself (`Scope.lookup_attempts`). So a program is accepted if its declarations have
different names and are all sound (`ofProgram_eq_ok_iff`).
-/
namespace MxStar

open MxStar.Tree IR List

theorem Table.find?_insert {α : Type} (t : Table α) (name key : String) (a : α) :
    (t.insert name a).find? key = if key = name then some a else t.find? key := by
  have hfilter : ∀ entries : List (String × α), key ≠ name →
      (entries.filter (·.1 ≠ name)).lookup key = entries.lookup key := by
    intro entries hne
    induction entries with
    | nil => rfl
    | cons entry entries ih =>
      obtain ⟨k, v⟩ := entry
      by_cases hk : k = name
      · subst hk
        rw [filter_cons_of_neg (by simp), lookup_cons, beq_false_of_ne hne]
        exact ih
      · rw [filter_cons_of_pos (by simpa using hk), lookup_cons, lookup_cons, ih]
  by_cases h : key = name
  · subst h
    simp [Table.find?, Table.insert]
  · simp only [Table.find?, Table.insert, lookup_cons, beq_false_of_ne h, if_neg h]
    exact hfilter t.entries h

theorem Table.find?_insertAll {α β : Type} {k : β → String} {v : β → α} {xs : List β}
    (h : (xs.map k).Nodup) {t : Table α} {name : String} {a : α} :
    (xs.foldl (fun t x => t.insert (k x) (v x)) t).find? name = some a ↔
      (∃ x ∈ xs, k x = name ∧ v x = a) ∨ (∀ x ∈ xs, k x ≠ name) ∧ t.find? name = some a := by
  induction xs generalizing t with
  | nil => simp
  | cons x xs ih =>
    rw [map_cons, nodup_cons] at h
    rw [foldl_cons, ih h.2, Table.find?_insert]
    clear ih
    have := h.1
    simp only [mem_map, not_exists, not_and] at this
    grind

/-! ## Classes -/

def Tree.ClassDecl.Distinct (c : ClassDecl) : Prop :=
  (c.fields.map (·.name)).Nodup ∧ (c.methods.map (·.name)).Nodup

instance (c : ClassDecl) : Decidable c.Distinct := inferInstanceAs (Decidable (_ ∧ _))

def Tree.ClassDecl.info (c : ClassDecl) : ClassInfo :=
  ⟨c.name, c.fields.map fun f => ⟨f.name, f.ty⟩,
    c.methods.foldl (fun t m => t.insert m.name (.ofDecl m (.method c.name))) {}⟩

theorem collectFields_eq_ok_iff {cls : String} {ds : List VarDecl} {fields r : List VarInfo} :
    Scope.collectFields cls ds fields = .ok r ↔ (ds.map (·.name)).Nodup ∧
      (∀ d ∈ ds, ∀ f ∈ fields, f.name ≠ d.name) ∧ r = fields ++ ds.map fun d => ⟨d.name, d.ty⟩ := by
  induction ds generalizing fields with
  | nil => simp [Scope.collectFields, eq_comm]
  | cons d ds ih =>
    rw [Scope.collectFields]
    split
    · grind
    · next hfree =>
      simp only [any_eq_true, decide_eq_true_eq, not_exists, not_and] at hfree
      simp only [ih, map_cons, nodup_cons, mem_map, forall_mem_cons, mem_append, mem_singleton, or_imp,
        forall_and, forall_eq, append_assoc, singleton_append]
      clear ih
      grind

theorem collectMethods_eq_ok_iff {cls : String} {ds : List FuncDecl} {t r : Table FuncInfo} :
    Scope.collectMethods cls ds t = .ok r ↔ (ds.map (·.name)).Nodup ∧
      (∀ d ∈ ds, t.find? d.name = none) ∧
      r = ds.foldl (fun t m => t.insert m.name (.ofDecl m (.method cls))) t := by
  induction ds generalizing t with
  | nil => simp [Scope.collectMethods, eq_comm]
  | cons d ds ih =>
    rw [Scope.collectMethods]
    split
    · grind [Table.contains]
    · next hfree =>
      rw [Table.contains, Option.not_isSome_iff_eq_none] at hfree
      simp only [ih, map_cons, nodup_cons, mem_map, forall_mem_cons, Table.find?_insert, foldl_cons]
      clear ih
      grind

theorem Tree.ClassDecl.Distinct.method?_info {c : ClassDecl} (h : c.Distinct) {name : String} {f : FuncInfo} :
    c.info.method? name = some f ↔ ∃ m ∈ c.methods, m.name = name ∧ .ofDecl m (.method c.name) = f := by
  refine (Table.find?_insertAll h.2).trans (or_iff_left ?_)
  rintro ⟨-, hnone⟩
  cases hnone

/-- Each field has a word of an object for itself. -/
structure ClassInfo.LaidOut (c : ClassInfo) : Prop where
  placed : ∀ f ∈ c.fields, (c.fieldOffset? f.name).isSome
  within : ∀ name o, c.fieldOffset? name = some o →
    8 ∣ o.toInt ∧ 0 ≤ o.toInt ∧ o.toInt + 8 ≤ c.size.toInt
  apart : ∀ name name' o, c.fieldOffset? name = some o → c.fieldOffset? name' = some o → name = name'

theorem ClassInfo.laidOut {c : ClassInfo} (hc : c.fields.length < 2 ^ 60) : c.LaidOut := by
  have hword : ∀ n < 2 ^ 60, (8 * Int64.ofNat n : Word).toInt = 8 * n := by
    intro n hn
    change (Int64.ofNat 8 * Int64.ofNat n).toInt = 8 * n
    rw [← Int64.ofNat_mul, Int64.toInt_ofNat_of_lt (by omega), Int.natCast_mul, Int.cast_ofNat_Int]
  -- The offset of a field tells its index, so its name as well.
  have hindex {name o} (h : c.fieldOffset? name = some o) :
      ∃ (i : Nat) (f : VarInfo), c.fields[i]? = some f ∧ f.name = name ∧ o.toInt = 8 * i := by
    obtain ⟨i, hi, rfl⟩ := Option.map_eq_some_iff.1 h
    obtain ⟨hlt, hname, -⟩ := findIdx?_eq_some_iff_getElem.1 hi
    exact ⟨i, _, getElem?_eq_getElem hlt, of_decide_eq_true hname, hword i (by omega)⟩
  have hsize : c.size.toInt = 8 * (max c.fields.length 1 : Nat) := hword _ (by omega)
  refine ⟨fun f hf => ?_, fun name o ho => ?_, fun name name' o ho ho' => ?_⟩
  · rw [fieldOffset?, fieldIndex?, Option.isSome_map, findIdx?_isSome, any_eq_true]
    exact ⟨f, hf, decide_eq_true rfl⟩
  · obtain ⟨i, f, hf, -, hi⟩ := hindex ho
    have := (List.getElem?_eq_some_iff.1 hf).1
    omega
  · obtain ⟨i, f, hf, rfl, hi⟩ := hindex ho
    obtain ⟨i', f', hf', rfl, hi'⟩ := hindex ho'
    obtain rfl : i = i' := by omega
    cases hf.symm.trans hf'
    rfl

/-! ## Declarations one after another -/

/-- What a name can stand for. -/
inductive Entity where
  | global (v : VarInfo)
  | function (f : FuncInfo)
  | cls (c : ClassInfo)

def Entity.binding : Entity → SymbolKind × String
  | .global v => (.var, v.name)
  | .function f => (.func, f.name)
  | .cls c => (.cls, c.name)

/-- Something to declare. -/
inductive Entry where
  | global (v : VarInfo)
  | function (f : FuncInfo)
  | cls (c : ClassDecl)

namespace Entry

def entity : Entry → Entity
  | .global v => .global v
  | .function f => .function f
  | .cls c => .cls c.info

/-- The fields and methods of a class are distinct. -/
def Sound : Entry → Prop
  | .cls c => c.Distinct
  | _ => True

instance : (x : Entry) → Decidable x.Sound
  | .cls c => inferInstanceAs (Decidable c.Distinct)
  | .global _ | .function _ => .isTrue trivial

def give? (k : SymbolKind × String) (x : Entry) : Option Entity :=
  if x.entity.binding = k ∧ x.Sound then some x.entity else none

theorem give?_eq_some_iff {k : SymbolKind × String} {x : Entry} {e : Entity} :
    x.give? k = some e ↔ (x.entity.binding = k ∧ x.Sound) ∧ x.entity = e := by
  rw [give?, Option.ite_none_right_eq_some, Option.some.injEq]

end Entry

namespace Scope

variable {s s' : Scope} {x : Entry}

def lookup (s : Scope) : SymbolKind × String → Option Entity
  | (.var, name) => (s.global? name).map .global
  | (.func, name) => (s.function? name).map .function
  | (.cls, name) => (s.class? name).map .cls
  | _ => none

def enter : Entry → Declaring Unit
  | .global v => declareGlobal v.name v.ty
  | .function f => declareFunction f
  | .cls c => declareClass c

/-- The scope that is left when something is declared, maybe in vain. -/
def attempt (s : Scope) (x : Entry) : Scope := ((enter x).run.run s).2

/-- The name is free, and what it is to stand for is sound. -/
def Admits (s : Scope) (x : Entry) : Prop := s.lookup x.entity.binding = none ∧ x.Sound

def add (s : Scope) : Entry → Scope
  | .global v => { s with globals := s.globals.insert v.name v }
  | .function f => { s with functions := s.functions.insert f.name f }
  | .cls c => { s with classes := s.classes.insert c.name c.info }

theorem lookup_add (s : Scope) (x : Entry) (k : SymbolKind × String) :
    (s.add x).lookup k = if k = x.entity.binding then some x.entity else s.lookup k := by
  obtain ⟨kind, name⟩ := k
  cases x <;> cases kind <;>
    grind [lookup, add, function?, global?, class?, Entry.entity, Entity.binding, ClassDecl.info,
      Table.find?_insert]

/-- A check that fails leaves the scope as it was. -/
theorem run_check {c : Bool} {e : CompileError} {k : Declaring Unit} :
    (do if c then throw e
        k : Declaring Unit).run.run s = if c then (.error e, s) else k.run.run s := by
  cases c <;> rfl

theorem run_collect {α : Type} {x : Except CompileError α} {k : α → Declaring Unit} :
    (do k (← x) : Declaring Unit).run.run s =
      x.casesOn (fun e => (.error e, s)) fun a => (k a).run.run s := by
  cases x <;> rfl

theorem run_then {x k : Declaring Unit} {r : Except CompileError Unit} (h : x.run.run s = (r, s')) :
    (do x; k : Declaring Unit).run.run s = r.casesOn (fun e => (.error e, s')) fun _ => k.run.run s' := by
  rw [ExceptT.run_bind, StateT.run_bind, h]
  cases r <;> rfl

theorem not_isSome_iff_map {α β : Type} {o : Option α} {f : α → β} : ¬ o.isSome = true ↔ o.map f = none := by
  cases o <;> simp

theorem run_enter_of_admits (h : s.Admits x) : (enter x).run.run s = (.ok (), s.add x) := by
  obtain ⟨hfree, hsound⟩ := h
  cases x with
  | global v | function f => exact run_check.trans (if_neg (not_isSome_iff_map.2 hfree))
  | cls c =>
    refine run_check.trans ((if_neg (not_isSome_iff_map.2 hfree)).trans ?_)
    rw [run_collect, collectFields_eq_ok_iff.2 ⟨hsound.1, by simp, rfl⟩]
    refine run_collect.trans ?_
    rw [collectMethods_eq_ok_iff.2 ⟨hsound.2, fun _ _ => rfl, rfl⟩]
    rfl

/-- What is declared in vain leaves the scope as it was. -/
theorem run_enter_of_not_admits (h : ¬ s.Admits x) : ∃ e, (enter x).run.run s = (.error e, s) := by
  cases x with
  | global v | function f =>
    refine ⟨_, run_check.trans (if_pos (Decidable.not_not.1 fun hfree => h ⟨?_, trivial⟩))⟩
    exact not_isSome_iff_map.1 hfree
  | cls c =>
    by_cases hfree : s.classes.contains c.name = true
    · exact ⟨_, run_check.trans (if_pos hfree)⟩
    cases hfields : collectFields c.name c.fields [] with
    | error e =>
      refine ⟨e, run_check.trans ((if_neg hfree).trans ?_)⟩
      rw [run_collect, hfields]
    | ok fields =>
      cases hmethods : collectMethods c.name c.methods {} with
      | error e =>
        refine ⟨e, run_check.trans ((if_neg hfree).trans ?_)⟩
        rw [run_collect, hfields]
        refine run_collect.trans ?_
        rw [hmethods]
      | ok methods =>
        exact absurd ⟨not_isSome_iff_map.1 hfree, (collectFields_eq_ok_iff.1 hfields).1,
          (collectMethods_eq_ok_iff.1 hmethods).1⟩ h

theorem eq_of_error {e : CompileError} (h : (enter x).run.run s = (.error e, s')) : s' = s := by
  by_cases hx : s.Admits x
  · cases h.symm.trans (run_enter_of_admits hx)
  · obtain ⟨e', he⟩ := run_enter_of_not_admits hx
    exact congrArg Prod.snd (h.symm.trans he)

theorem attempt_of_admits (h : s.Admits x) : s.attempt x = s.add x := by
  rw [attempt, run_enter_of_admits h]

theorem attempt_of_not_admits (h : ¬ s.Admits x) : s.attempt x = s := by
  obtain ⟨e, he⟩ := run_enter_of_not_admits h
  rw [attempt, he]

/-- A name stands for what it stood for before, or else for what is declared with it. -/
theorem lookup_attempt (s : Scope) (x : Entry) (k : SymbolKind × String) :
    (s.attempt x).lookup k = (s.lookup k).or (x.give? k) := by
  by_cases h : s.Admits x
  · rw [attempt_of_admits h, lookup_add, Entry.give?]
    grind [Admits]
  · rw [attempt_of_not_admits h, Entry.give?]
    cases hk : s.lookup k <;> grind [Admits]

/-- Whatever is declared one after another, a name stands for the first that was declared with it. -/
theorem lookup_attempts (xs : List Entry) (s : Scope) (k : SymbolKind × String) :
    (xs.foldl attempt s).lookup k = (s.lookup k).or (xs.findSome? (Entry.give? k)) := by
  induction xs generalizing s with
  | nil => simp
  | cons x xs ih =>
    rw [foldl_cons, ih, lookup_attempt, Option.or_assoc, findSome?_cons]
    cases x.give? k <;> rfl

theorem admits_attempt (h : s.Admits x) {y : Entry} :
    (s.attempt x).Admits y ↔ x.entity.binding ≠ y.entity.binding ∧ s.Admits y := by
  rw [attempt_of_admits h, Admits, lookup_add]
  grind [Admits]

theorem run_forM_enter_eq_ok_iff {xs : List Entry} : (xs.forM enter).run.run s = (.ok (), s') ↔
    xs.Pairwise (·.entity.binding ≠ ·.entity.binding) ∧ (∀ x ∈ xs, s.Admits x) ∧
      s' = xs.foldl attempt s := by
  induction xs generalizing s with
  | nil =>
    constructor
    · intro h
      exact ⟨.nil, forall_mem_nil _, (congrArg Prod.snd h).symm⟩
    · rintro ⟨-, -, rfl⟩
      rfl
  | cons x xs ih =>
    rw [pairwise_cons, forall_mem_cons, foldl_cons]
    by_cases hx : s.Admits x
    · have hrun : ((x :: xs).forM enter).run.run s = (xs.forM enter).run.run (s.attempt x) := by
        rw [attempt_of_admits hx]
        exact run_then (run_enter_of_admits hx)
      rw [hrun, ih]
      constructor
      · rintro ⟨hpairwise, hadmits, rfl⟩
        -- After `x`, a scope admits what it did before, under other names.
        have hapart y (hy : y ∈ xs) := (admits_attempt hx).1 (hadmits y hy)
        exact ⟨⟨fun y hy => (hapart y hy).1, hpairwise⟩, ⟨hx, fun y hy => (hapart y hy).2⟩, rfl⟩
      · rintro ⟨⟨hkeys, hpairwise⟩, ⟨-, hxs⟩, rfl⟩
        exact ⟨hpairwise, fun y hy => (admits_attempt hx).2 ⟨hkeys y hy, hxs y hy⟩, rfl⟩
    · obtain ⟨e, he⟩ := run_enter_of_not_admits hx
      have hrun : ((x :: xs).forM enter).run.run s = (.error e, s) := run_then he
      rw [hrun]
      refine iff_of_false (fun h => ?_) fun h => hx h.2.1.1
      cases h

theorem lookup_initial {k : SymbolKind × String} {e : Entity} :
    Scope.initial.lookup k = some e ↔ e.binding = k ∧ ∃ f ∈ Scope.builtins, e = .function f := by
  obtain ⟨kind, name⟩ := k
  constructor
  · intro h
    cases kind with
    | func =>
      obtain ⟨f, hf, rfl⟩ := Option.map_eq_some_iff.1 h
      rcases (Table.find?_insertAll (k := FuncInfo.name) (v := id) (by decide)).1 hf with
        ⟨g, hg, rfl, rfl⟩ | ⟨-, hnone⟩
      · exact ⟨rfl, g, hg, rfl⟩
      · cases hnone
    | _ => cases h
  · rintro ⟨hkey, f, hf, rfl⟩
    cases hkey
    refine Option.map_eq_some_iff.2 ⟨f, ?_, rfl⟩
    exact (Table.find?_insertAll (k := FuncInfo.name) (v := id) (by decide)).2 (.inl ⟨f, hf, rfl, rfl⟩)

end Scope

/-! ## Programs -/

def Tree.Decl.entry : Decl → Entry
  | .var d => .global ⟨d.name, d.ty⟩
  | .func d => .function (.ofDecl d .user)
  | .cls c => .cls c

def Tree.Decl.binding (d : Decl) : SymbolKind × String := d.entry.entity.binding

/-- A function has no name of the runtime, and the fields and methods of a class are distinct. -/
def Tree.Decl.Declarable : Decl → Prop
  | .var _ => True
  | .func f => f.name ∉ Scope.builtins.map (·.name)
  | .cls c => c.Distinct

section Program

variable {tree tree' : Tree.Program} {s : Scope} {k : SymbolKind × String} {e : Entity}

theorem Scope.admits_initial {d : Decl} : Scope.initial.Admits d.entry ↔ d.Declarable := by
  cases d with
  | var v => exact iff_of_true ⟨rfl, trivial⟩ trivial
  | func f =>
    constructor
    · rintro ⟨hfree, -⟩ hf
      obtain ⟨g, hg, hname⟩ := mem_map.1 hf
      have hkey : (Entity.function g).binding = (.func, f.name) := congrArg _ hname
      cases hfree.symm.trans (Scope.lookup_initial.2 ⟨hkey, g, hg, rfl⟩)
    · intro hf
      refine ⟨Option.eq_none_iff_forall_ne_some.2 fun e he => ?_, trivial⟩
      obtain ⟨hkey, g, hg, rfl⟩ := Scope.lookup_initial.1 he
      exact hf (mem_map.2 ⟨g, hg, congrArg Prod.snd hkey⟩)
  | cls c => exact and_iff_right rfl

theorem ofProgram_eq_ok_iff : Scope.ofProgram tree = .ok s ↔
    tree.decls.Pairwise (·.binding ≠ ·.binding) ∧
    (∀ d ∈ tree.decls, d.Declarable) ∧ s = (tree.decls.map Decl.entry).foldl Scope.attempt .initial := by
  have hdeclare : Scope.declare = fun d => Scope.enter d.entry := by
    funext d
    cases d <;> rfl
  have hforM : tree.decls.forM Scope.declare = (tree.decls.map Decl.entry).forM Scope.enter := by
    rw [hdeclare]
    exact forM_map.symm
  trans ((tree.decls.map Decl.entry).forM Scope.enter).run.run .initial = (.ok (), s)
  · rw [Scope.ofProgram, hforM]
    generalize ((tree.decls.map Decl.entry).forM Scope.enter).run.run .initial = y
    obtain ⟨r, s'⟩ : Except CompileError Unit × Scope := y
    cases r with
    | error e => exact iff_of_false nofun nofun
    | ok u => exact ⟨fun h => congrArg (Except.ok (), ·) (Except.ok.inj h), fun h => by cases h; rfl⟩
  · rw [Scope.run_forM_enter_eq_ok_iff, pairwise_map, forall_mem_map]
    simp only [Scope.admits_initial]
    rfl

/-- Among declarations with different names, the one with a name is found wherever it is. -/
theorem findSome?_give? {xs : List Entry} (h : xs.Pairwise (·.entity.binding ≠ ·.entity.binding)) :
    xs.findSome? (Entry.give? k) = some e ↔ ∃ x ∈ xs, x.give? k = some e := by
  induction xs with
  | nil => simp
  | cons x xs ih =>
    obtain ⟨hx, h⟩ := pairwise_cons.1 h
    rw [findSome?_cons, exists_mem_cons_iff]
    cases hgive : x.give? k with
    | none => simp [ih h]
    | some e' =>
      refine ⟨.inl, fun he => he.resolve_right ?_⟩
      rintro ⟨y, hy, he⟩
      have hkey := (Entry.give?_eq_some_iff.1 hgive).1.1
      exact hx y hy (hkey.trans (Entry.give?_eq_some_iff.1 he).1.1.symm)

/-- Each name stands for its declaration, wherever that is. -/
theorem lookup_ofProgram (h : Scope.ofProgram tree = .ok s) : s.lookup k = some e ↔
    e.binding = k ∧ ((∃ f ∈ Scope.builtins, e = .function f) ∨ ∃ d ∈ tree.decls, e = d.entry.entity) := by
  obtain ⟨hkeys, hproper, rfl⟩ := ofProgram_eq_ok_iff.1 h
  have hadmits {d : Decl} (hd : d ∈ tree.decls) := Scope.admits_initial.2 (hproper d hd)
  rw [Scope.lookup_attempts, Option.or_eq_some_iff, Scope.lookup_initial,
    findSome?_give? (pairwise_map.2 hkeys)]
  constructor
  · rintro (⟨hkey, hf⟩ | ⟨-, x, hx, hgive⟩)
    · exact ⟨hkey, .inl hf⟩
    · obtain ⟨⟨hkey, -⟩, rfl⟩ := Entry.give?_eq_some_iff.1 hgive
      obtain ⟨d, hd, rfl⟩ := mem_map.1 hx
      exact ⟨hkey, .inr ⟨d, hd, rfl⟩⟩
  · rintro ⟨rfl, hf | ⟨d, hd, rfl⟩⟩
    · exact .inl ⟨rfl, hf⟩
    · exact .inr ⟨(hadmits hd).1, d.entry, mem_map_of_mem hd,
        Entry.give?_eq_some_iff.2 ⟨⟨rfl, (hadmits hd).2⟩, rfl⟩⟩

theorem ofProgram_of_perm (h : Scope.ofProgram tree = .ok s) (hperm : tree'.decls.Perm tree.decls) :
    ∃ s', Scope.ofProgram tree' = .ok s' ∧ s'.lookup = s.lookup := by
  obtain ⟨hkeys, hproper, -⟩ := ofProgram_eq_ok_iff.1 h
  have h' := ofProgram_eq_ok_iff.2
    ⟨(hperm.pairwise_iff Ne.symm).2 hkeys, fun d hd => hproper d (hperm.mem_iff.1 hd), rfl⟩
  refine ⟨_, h', funext fun k => Option.ext fun e => ?_⟩
  simp only [lookup_ofProgram h', lookup_ofProgram h, hperm.mem_iff]

end Program

end MxStar
