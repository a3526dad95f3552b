import MxStar.Lowering.Program
import MxStar.Proofs.Declarations
import MxStar.Proofs.LoweredStatements

/-!
Every function that a program calls is defined.

A function starts with its parameters alone (`Opening`), and `finish` ends the block that is still open. The
outline gives every function a number (`Outline.Covers`). Names may clash, as a function `A.b` does with a
method `b` of `A`: then the number that the name stands for is the last one, and nothing calls the others.
-/
namespace MxStar.Lowering

open MxStar.Tree IR List

variable {sigs : List (String × String)} {env : Env} {p p' : IR.Program} {k n : Nat} {d : Draft}
  {o : Outline} {scope : Scope}

/-! ## From the first block to the last -/

theorem Status.not_isTerminated {f : Func} {b : BlockId} (h : Status true (f.code b)) :
    (f.block b).isTerminated = false := by
  rw [Block.isTerminated, Block.terminator?]
  cases hlast : (f.block b).instrs.getLast? with
  | none => rfl
  | some i =>
    have hi : i.isTerminator = false := h i (mem_of_getLast? hlast)
    simp [hi]

theorem finish_sound {P : Pending} {s s' : Sketch} (returnsValue : Bool)
    (h : Built env k P true s s') :
    Post (finish returnsValue) s' fun _ s'' => Built env k P false s s'' := by
  refine .get ?_
  rw [h.sound.here.not_isTerminated]
  refine .emitLast (h.close (i := .ret (if returnsValue then some (.imm 0) else none)) ?_ rfl)
  intro o ho
  cases returnsValue with
  | true =>
    obtain rfl := Option.some.inj ho
    trivial
  | false => cases ho

/-- The draft has parameters and no code. -/
structure Opening (d : Draft) : Prop where
  blocks : d.func.blocks = #[{ name := "entry" }]
  layout : d.func.layout = [0]
  entry : d.func.entry = 0
  current : d.current = 0
  loops : d.loops = []
  params : d.func.params = List.range d.func.vregCount
  locals : ∀ scope ∈ d.locals, ∀ v ∈ scope.values, v < d.func.vregCount

theorem vregCount_addParam (f : Func) (hint : String) :
    (f.addParam hint).vregCount = f.vregCount + 1 :=
  Array.size_push _

theorem params_addParam {f : Func} (h : f.params = List.range f.vregCount) (hint : String) :
    (f.addParam hint).params = List.range (f.addParam hint).vregCount := by
  rw [vregCount_addParam, range_succ, ← h]
  rfl

theorem Opening.addParam (h : Opening d) (name : String) :
    Opening (Draft.declareLocal { d with func := d.func.addParam name } name d.func.vregCount) := by
  have hlt : ∀ v, v ≤ d.func.vregCount → v < (d.func.addParam name).vregCount := fun v hv =>
    Nat.lt_of_le_of_lt hv (vregCount_addParam d.func name ▸ Nat.lt_succ_self _)
  cases hl : d.locals with
  | nil =>
    simp only [Draft.declareLocal]
    refine { h with params := params_addParam h.params name, locals := fun scope hscope => ?_ }
    simp at hscope
  | cons top rest =>
    have hlocals := h.locals
    rw [hl] at hlocals
    simp only [Draft.declareLocal]
    refine { h with params := params_addParam h.params name, locals := fun scope hscope v hv => ?_ }
    rcases mem_cons.1 hscope with rfl | hscope
    · rcases mem_values_insert hv with rfl | hv
      · exact hlt _ (Nat.le_refl _)
      · exact hlt v (Nat.le_of_lt (hlocals top mem_cons_self v hv))
    · exact hlt v (Nat.le_of_lt (hlocals scope (mem_cons_of_mem _ hscope) v hv))

theorem declareLocal_func (d : Draft) (name : String) (v : VReg) :
    (d.declareLocal name v).func = d.func ∧ (d.declareLocal name v).statics = d.statics := by
  unfold Draft.declareLocal
  split <;> exact ⟨rfl, rfl⟩

theorem bindParams_spec (params : List Param) {d' : Draft} (h : Opening d)
    (hrun : (bindParams params).run d = .ok ((), d')) :
    Opening d' ∧ d.func.vregCount ≤ d'.func.vregCount ∧ d'.statics = d.statics ∧
      d'.func.name = d.func.name ∧ d'.func.label = d.func.label := by
  induction params generalizing d with
  | nil =>
    cases hrun
    exact ⟨h, Nat.le_refl _, rfl, rfl, rfl⟩
  | cons p params ih =>
    obtain ⟨hopen, hle, hstatics, hname, hlabel⟩ := ih (h.addParam p.name) hrun
    obtain ⟨hfunc, hst⟩ := declareLocal_func { d with func := d.func.addParam p.name } p.name
      d.func.vregCount
    rw [hfunc] at hle hname hlabel
    refine ⟨hopen, Nat.le_trans ?_ hle, hstatics.trans hst, hname, hlabel⟩
    exact Nat.le_of_lt (vregCount_addParam d.func p.name ▸ Nat.lt_succ_self _)

/-- The names of the environment stand for registers and statics that a draft has. -/
structure Env.Fits (env : Env) (d : Draft) : Prop where
  self : ∀ cls obj, env.self? = some (cls, obj) → obj < d.func.vregCount
  globals : ∀ name s, env.globals.find? name = some s → s < d.statics.size

def Draft.sketch (d : Draft) : Sketch := { d with starts := fun _ => { v | v ∈ d.func.params } }

theorem Opening.code (h : Opening d) (b : BlockId) : d.func.code b = [] := by
  rw [Func.code, Func.block, h.blocks]
  cases b with
  | zero => rfl
  | succ b => rfl

theorem Opening.sound (h : Opening d) (henv : env.Fits d) : Sound env [] true d.sketch := by
  have hwritten : ∀ v, v < d.func.vregCount → (d.sketch.known env).Has v := by
    intro v hv
    refine ⟨hv, subset_writtenBy _ _ ?_⟩
    change v ∈ d.func.params
    rw [h.params]
    exact mem_range.2 hv
  have hsize : d.func.blocks.size = 1 := by
    rw [h.blocks]
    rfl
  exact {
    names := {
      self := fun cls obj hobj => hwritten obj (henv.self cls obj hobj)
      globals := henv.globals
      locals := fun scope hscope v hv => hwritten v (h.locals scope hscope v hv)
      loops := fun l hl => by
        change l ∈ d.loops at hl
        rw [h.loops] at hl
        cases hl }
    params := fun v hv => by
      change v ∈ d.func.params at hv
      rw [h.params] at hv
      exact mem_range.1 hv
    entry := by
      change d.func.entry < d.func.blocks.size
      rw [h.entry, hsize]
      exact Nat.zero_lt_one
    layout := by
      change d.func.layout = List.range d.func.blocks.size
      rw [h.layout, hsize]
      rfl
    grounded := fun b => by
      change Grounded _ _ (d.func.code b)
      rw [h.code b]
      trivial
    current := by
      change d.current < d.func.blocks.size
      rw [h.current, hsize]
      exact Nat.zero_lt_one
    here := by
      change Status true (d.func.code d.current)
      rw [h.code]
      exact fun i hi => absurd hi not_mem_nil
    nodup := nodup_nil
    pending := fun x hx => absurd hx not_mem_nil
    ended := fun b hb hne => by
      change b < d.func.blocks.size at hb
      change b ≠ d.current at hne
      rw [h.current] at hne
      omega }

theorem Built.defined {s : Sketch} (hd : Sound env [] true d.sketch)
    (h : Built env k [] false d.sketch s) : s.func.Defined s.statics.size env.Callable where
  nodup := h.sound.layout ▸ nodup_range
  layout := fun b => h.sound.layout ▸ mem_range
  entry := h.sound.entry
  params := h.sound.params
  ends := by
    intro b hb
    by_cases hcur : b = s.current
    · subst hcur
      exact h.sound.here
    · exact h.sound.ended b hb hcur not_mem_nil
  grounded := by
    refine ⟨s.starts, ?_, fun b _ => ?_⟩
    · rw [h.entry, h.starts _ hd.entry, h.params]
      exact subset_rfl
    · have hb : Grounded ((s.func.known _ env.Callable s.starts).having s.written) _ _ :=
        h.sound.grounded b
      exact grounded_having.1 hb

/-- A function that is built from another, with the statics before and after it. -/
structure Makes (callable : FuncId → Prop) (start func : Func) (statics statics' : Array Static) :
    Prop where
  defined : func.Defined statics'.size callable
  statics : statics.size ≤ statics'.size
  name : func.name = start.name
  label : func.label = start.label

theorem makes_of_run {d' : Draft} {body : Build Unit} (hd : Opening d) (henv : env.Fits d)
    (hbody : Post body d.sketch fun _ s => Built env k [] false d.sketch s)
    (hrun : body.run d = .ok ((), d')) :
    Makes env.Callable d.func d'.func d.statics d'.statics := by
  obtain ⟨s, rfl, hs⟩ := hbody () d' hrun
  exact ⟨hs.defined (hd.sound henv), hs.statics.length_le, hs.name, hs.label⟩

/-! ## Functions -/

def signature (cls : Option ClassInfo) (decl : FuncDecl) : String × String :=
  match cls with
  | some c => (methodKey c.name decl.name, methodLabel c.name decl.name)
  | none => (decl.name, functionLabel decl.name)

def Draft.start (func : Func) (statics : Array Static) : Draft :=
  { func := func, current := func.entry, statics := statics }

/-- The draft of a function with no parameters but perhaps the object. -/
theorem opening_start {func : Func} (statics : Array Static) {name label : String}
    (h : func = .create name label ∨ func = (Func.create name label).addParam "this") :
    Opening (.start func statics) := by
  rcases h with rfl | rfl
  all_goals
    refine ⟨rfl, rfl, rfl, rfl, rfl, rfl, fun scope hscope v hv => ?_⟩
    obtain rfl := mem_singleton.1 hscope
    cases hv

theorem body_sound (stmts : List Stmt) (returnsValue : Bool) (hd : Sound env [] true d.sketch) :
    Post (do lowerStmts env stmts; finish returnsValue) d.sketch
      fun _ s => Built env 1 [] false d.sketch s :=
  (lowerStmts_builds env stmts).after (.refl hd) fun _ h => finish_sound returnsValue h

theorem buildFunc_spec {start func : Func} {statics statics' : Array Static} {params : List Param}
    {stmts : List Stmt} {returnsValue : Bool} (h : buildFunc start statics (do
      bindParams params
      lowerStmts env stmts
      finish returnsValue) = .ok (func, statics')) (hstart : Opening (.start start statics))
    (henv : env.Fits (.start start statics)) : Makes env.Callable start func statics statics' := by
  obtain ⟨⟨⟨⟩, d'⟩, hrun, hd'⟩ := Except.bind_eq_ok.1 h
  obtain ⟨rfl, rfl⟩ := Prod.mk.inj (Except.ok.inj hd')
  obtain ⟨⟨⟨⟩, d⟩, hparams, hbody⟩ := Except.bind_eq_ok.1 hrun
  obtain ⟨hopen, hle, hstatics, hname, hlabel⟩ := bindParams_spec params hstart hparams
  have hfits : env.Fits d :=
    ⟨fun cls obj hobj => Nat.lt_of_lt_of_le (henv.self cls obj hobj) hle,
      fun name s hs => hstatics ▸ henv.globals name s hs⟩
  have hmakes := makes_of_run hopen hfits (body_sound stmts returnsValue (hopen.sound hfits)) hbody
  rw [hstatics] at hmakes
  exact ⟨hmakes.defined, hmakes.statics, hmakes.name.trans hname, hmakes.label.trans hlabel⟩

theorem lowerFunction_spec {cls : Option ClassInfo} {decl : FuncDecl}
    (hglobals : ∀ name s, env.globals.find? name = some s → s < p.statics.size)
    (h : lowerFunction env cls p decl = .ok p') :
    ∃ id start func, env.funcs.find? (signature cls decl).1 = some id ∧
      (start.name, start.label) = signature cls decl ∧
      p'.functions = p.functions.setIfInBounds id func ∧
      Makes env.Callable start func p.statics p'.statics := by
  unfold lowerFunction at h
  cases cls with
  | none =>
    dsimp only at h
    split at h
    · next id hid =>
      obtain ⟨⟨func, statics⟩, hbuild, hp'⟩ := Except.bind_eq_ok.1 h
      obtain rfl := Except.ok.inj hp'
      have hspec := buildFunc_spec hbuild (opening_start _ (.inl rfl))
        ⟨fun _ _ hobj => absurd hobj (by simp), hglobals⟩
      exact ⟨id, .create decl.name (functionLabel decl.name), func, hid, rfl, rfl, hspec⟩
    · cases h
  | some c =>
    dsimp only at h
    split at h
    · next id hid =>
      obtain ⟨⟨func, statics⟩, hbuild, hp'⟩ := Except.bind_eq_ok.1 h
      obtain rfl := Except.ok.inj hp'
      -- The object is the first parameter.
      have hself : ∀ cls obj, some (c, (0 : VReg)) = some (cls, obj) → obj < 1 := by
        intro cls obj hobj
        obtain ⟨rfl, rfl⟩ := Prod.mk.inj (Option.some.inj hobj)
        exact Nat.zero_lt_one
      have hspec := buildFunc_spec hbuild (opening_start _ (.inr rfl)) ⟨hself, hglobals⟩
      exact ⟨id, (Func.create (methodKey c.name decl.name) (methodLabel c.name decl.name)).addParam
        "this", func, hid, rfl, rfl, hspec⟩
    · cases h

/-! ## Declarations -/

def declSignatures : Decl → List (String × String)
  | .var _ => []
  | .func f => [(f.name, functionLabel f.name)]
  | .cls c => c.methods.map fun m => (methodKey c.name m.name, methodLabel c.name m.name)

/-- What is known when the functions with some names and symbols are built, out of `n` functions:
they are defined, and there is room for all others. -/
structure Filled (env : Env) (n : Nat) (sigs : List (String × String)) (p : IR.Program) : Prop where
  size : p.functions.size = n
  room : ∀ id, env.Callable id → id < n
  globals : ∀ name s, env.globals.find? name = some s → s < p.statics.size
  built : ∀ sig ∈ sigs, ∀ id, env.funcs.find? sig.1 = some id →
    ∃ f, p.functions[id]? = some f ∧ f.Defined p.statics.size env.Callable ∧
      (f.name, f.label) ∈ sigs ∧ env.funcs.find? f.name = some id
  others : ∀ f ∈ p.functions,
    f.Defined p.statics.size env.Callable ∨ ∃ name label, f = .create name label

theorem Filled.addFunction {cls : Option ClassInfo} {decl : FuncDecl} (h : Filled env n sigs p)
    (hp' : lowerFunction env cls p decl = .ok p') :
    Filled env n (signature cls decl :: sigs) p' := by
  obtain ⟨id, start, func, hid, hstart, hfunctions, hmakes⟩ := lowerFunction_spec h.globals hp'
  have hsig : (func.name, func.label) = signature cls decl := by
    rw [hmakes.name, hmakes.label, hstart]
  have hname : (signature cls decl).1 = func.name := (congrArg Prod.fst hsig).symm
  refine ⟨?_, h.room, fun name s hs => Nat.lt_of_lt_of_le (h.globals name s hs) hmakes.statics, ?_,
    ?_⟩
  · rw [hfunctions, Array.size_setIfInBounds]
    exact h.size
  · intro sig hmem id' hid'
    rw [hfunctions]
    by_cases heq : id = id'
    · -- The function just built may be one that was built before under another name.
      subst heq
      exact ⟨func, Array.getElem?_setIfInBounds_self_of_lt (h.size ▸ h.room id ⟨_, hid⟩),
        hmakes.defined, hsig ▸ mem_cons_self, hname ▸ hid⟩
    · rw [Array.getElem?_setIfInBounds_ne heq]
      rcases mem_cons.1 hmem with rfl | hmem
      · exact absurd (Option.some.inj (hid.symm.trans hid')) heq
      · obtain ⟨f, hf, hfdef, hfsig, hfid⟩ := h.built sig hmem id' hid'
        exact ⟨f, hf, hfdef.mono hmakes.statics fun _ h => h, mem_cons_of_mem _ hfsig, hfid⟩
  · intro f hf
    rw [hfunctions] at hf
    rcases Array.mem_or_eq_of_mem_setIfInBounds hf with hf | rfl
    · exact (h.others f hf).imp_left fun hfdef => hfdef.mono hmakes.statics fun _ h => h
    · exact .inl hmakes.defined

theorem Filled.congr {sigs' : List (String × String)} (h : Filled env n sigs p)
    (hsame : ∀ sig, sig ∈ sigs' ↔ sig ∈ sigs) : Filled env n sigs' p :=
  { h with
    built := fun sig hsig id hid => by
      obtain ⟨f, hf, hdef, hmem, hfid⟩ := h.built sig ((hsame sig).1 hsig) id hid
      exact ⟨f, hf, hdef, (hsame _).2 hmem, hfid⟩ }

theorem Filled.addMethods {info : ClassInfo} {methods : List FuncDecl} (h : Filled env n sigs p)
    (hp' : methods.foldlM (lowerFunction env (some info)) p = .ok p') :
    Filled env n (methods.map (signature (some info)) ++ sigs) p' := by
  induction methods generalizing sigs p with
  | nil =>
    cases hp'
    exact h
  | cons m methods ih =>
    obtain ⟨p1, hp1, hrest⟩ := Except.bind_eq_ok.1 hp'
    refine (ih (h.addFunction hp1) hrest).congr fun sig => ?_
    simp only [map_cons, cons_append, mem_cons, mem_append]
    tauto

def Scope.Named (scope : Scope) : Prop := ∀ name info, scope.class? name = some info → info.name = name

theorem Filled.addDecls (hscope : Scope.Named env.scope) {decls : List Decl}
    (h : Filled env n sigs p) (hp' : decls.foldlM (lowerDecl env) p = .ok p') :
    Filled env n (decls.flatMap declSignatures ++ sigs) p' := by
  induction decls generalizing sigs p with
  | nil =>
    cases hp'
    exact h
  | cons d decls ih =>
    obtain ⟨p1, hp1, hrest⟩ := Except.bind_eq_ok.1 hp'
    have h1 : Filled env n (declSignatures d ++ sigs) p1 := by
      cases d with
      | var v =>
        obtain rfl := Except.ok.inj hp1
        exact h
      | func f =>
        have hf : lowerFunction env none p f = .ok p1 := hp1
        exact h.addFunction hf
      | cls c =>
        simp only [lowerDecl] at hp1
        split at hp1
        · next info hinfo =>
          have hname := hscope c.name info hinfo
          have hsigs : c.methods.map (signature (some info)) = declSignatures (.cls c) := by
            rw [declSignatures, ← hname]
            rfl
          exact hsigs ▸ h.addMethods hp1
        · cases hp1
    refine (ih h1 hrest).congr fun sig => ?_
    simp only [flatMap_cons, mem_append]
    tauto

/-! ## Names -/

/-- The outline gives numbers to names that are declared, and to all of them. -/
structure Outline.Covers (o : Outline) (sigs : List (String × String)) : Prop where
  functions : o.program.functions.toList = sigs.map fun sig => .create sig.1 sig.2
  funcs : ∀ key id, o.funcs.find? key = some id → ∃ sig, sigs[id]? = some sig ∧ sig.1 = key
  named : ∀ sig ∈ sigs, (o.funcs.find? sig.1).isSome
  globals : ∀ name s, o.globals.find? name = some s → s < o.program.statics.size

theorem Outline.Covers.size (h : o.Covers sigs) : o.program.functions.size = sigs.length := by
  rw [← Array.length_toList, h.functions, length_map]

theorem Outline.Covers.addFunction (h : o.Covers sigs) (key label : String) :
    (o.addFunction key label).Covers (sigs ++ [(key, label)]) where
  functions := by
    change (o.program.functions.push _).toList = _
    rw [Array.toList_push, h.functions, map_append]
    rfl
  funcs := by
    intro key' id hid
    have hid : (o.funcs.insert key o.program.functions.size).find? key' = some id := hid
    rw [Table.find?_insert] at hid
    split at hid
    · next heq =>
      obtain rfl := Option.some.inj hid
      refine ⟨(key, label), ?_, heq.symm⟩
      rw [h.size]
      exact getElem?_concat_length
    · obtain ⟨sig, hsig, hkey⟩ := h.funcs key' id hid
      exact ⟨sig, by rw [getElem?_append_left (List.getElem?_eq_some_iff.1 hsig).1, hsig], hkey⟩
  named := by
    intro sig hsig
    change ((o.funcs.insert key o.program.functions.size).find? sig.1).isSome
    rw [Table.find?_insert]
    split
    · rfl
    · next hne =>
      refine (mem_append.1 hsig).elim (h.named sig) fun hnew => ?_
      exact absurd (congrArg Prod.fst (mem_singleton.1 hnew)) hne
  globals := h.globals

theorem Outline.Covers.addGlobal (h : o.Covers sigs) (name : String) :
    (o.addGlobal name).Covers sigs where
  functions := h.functions
  funcs := h.funcs
  named := h.named
  globals := by
    intro name' s hs
    have hs : (o.globals.insert name o.program.statics.size).find? name' = some s := hs
    change s < (o.program.statics.push _).size
    rw [Table.find?_insert] at hs
    rw [Array.size_push]
    split at hs
    · obtain rfl := Option.some.inj hs
      exact Nat.lt_succ_self _
    · exact Nat.lt_succ_of_lt (h.globals name' s hs)

theorem Outline.Covers.addDecl (h : o.Covers sigs) (d : Decl) :
    (o.addDecl d).Covers (sigs ++ declSignatures d) := by
  cases d with
  | var v =>
    rw [declSignatures, append_nil]
    exact h.addGlobal v.name
  | func f => exact h.addFunction f.name (functionLabel f.name)
  | cls c =>
    rw [declSignatures, Outline.addDecl]
    induction c.methods generalizing o sigs with
    | nil => simpa using h
    | cons m methods ih =>
      have hrest := ih (h.addFunction (methodKey c.name m.name) (methodLabel c.name m.name))
      rwa [append_assoc] at hrest

theorem covers_ofProgram (p : Tree.Program) :
    (Outline.ofProgram p).Covers (p.decls.flatMap declSignatures) := by
  have hfold : ∀ (decls : List Decl) (o : Outline) (sigs : List (String × String)), o.Covers sigs →
      (decls.foldl Outline.addDecl o).Covers (sigs ++ decls.flatMap declSignatures) := by
    intro decls
    induction decls with
    | nil => exact fun o sigs h => by simpa using h
    | cons d decls ih =>
      intro o sigs h
      have hrest := ih (o.addDecl d) _ (h.addDecl d)
      rwa [append_assoc] at hrest
  refine hfold p.decls {} [] ⟨rfl, fun key id hid => ?_, fun sig hsig => ?_, fun name s hs => ?_⟩
  · cases hid
  · cases hsig
  · cases hs

theorem named_ofProgram {p : Tree.Program} (h : Scope.ofProgram p = .ok scope) :
    Scope.Named scope := by
  intro name info hinfo
  have hlookup : scope.lookup (.cls, name) = some (.cls info) := congrArg (Option.map Entity.cls) hinfo
  exact congrArg Prod.snd ((lookup_ofProgram h).1 hlookup).1

/-! ## The entry -/

theorem lowerGlobal_builds (d : Decl) : Builds env 0 (lowerGlobal env d) := by
  cases d with
  | var v =>
    intro P s hs
    unfold lowerGlobal
    dsimp only
    split
    · next e x _ hx =>
      refine (lower_sound env e).value.first hs fun v s1 h1 hv => .emitLast ?_
      exact h1.toBuilt.emit (i := .store (.static x) v) ⟨h1.sound.names.globals _ x hx, hv⟩ rfl
    · exact .pure (.refl hs)
  | func f => exact .pure
  | cls c => exact .pure

theorem callMain_sound {P : Pending} {s s' : Sketch} {main : FuncId} (returnsValue : Bool)
    (hmain : env.Callable main) (h : Built env k P true s s') :
    Post (callMain main returnsValue) s' fun _ s'' => Built env k P false s s'' := by
  unfold callMain
  split
  · obtain ⟨h1, hreg⟩ := h.define "exit"
      (callInto_within (.func main) [] hmain fun v hv => absurd hv not_mem_nil) rfl rfl
    refine .fresh (.emit (.emitLast (h1.close (i := .ret (some (.vreg s'.regs))) ?_ rfl)))
    intro o ho
    obtain rfl := Option.some.inj ho
    exact hreg
  · have h1 := h.emit (i := .call none (.func main) [] 0)
      ⟨fun o ho => absurd ho (Option.not_mem_none o), hmain, fun v hv => absurd hv not_mem_nil⟩
      rfl
    refine .emit (.emitLast (h1.close (i := .ret (some (.imm 0))) ?_ rfl))
    intro o ho
    obtain rfl := Option.some.inj ho
    trivial

theorem lowerEntry_spec {decls : List Decl} (hself : env.self? = none)
    (hglobals : ∀ name s, env.globals.find? name = some s → s < p.statics.size)
    (h : lowerEntry env decls p = .ok p') :
    ∃ func, p'.functions = p.functions.push func ∧ p'.entry = some p.functions.size ∧
      Makes env.Callable (.create "__init" "main") func p.statics p'.statics := by
  unfold lowerEntry at h
  split at h
  · next main hmain =>
    dsimp only at h
    obtain ⟨⟨func, statics⟩, hbuild, hp'⟩ := Except.bind_eq_ok.1 h
    obtain rfl := Except.ok.inj hp'
    obtain ⟨⟨⟨⟩, d⟩, hrun, hd⟩ := Except.bind_eq_ok.1 hbuild
    obtain ⟨rfl, rfl⟩ := Prod.mk.inj (Except.ok.inj hd)
    have hopen : Opening (.start (.create "__init" "main") p.statics) :=
      opening_start p.statics (.inl rfl)
    have hfits : env.Fits (.start (.create "__init" "main") p.statics) :=
      ⟨fun cls obj hobj => absurd (hself.symm.trans hobj) (by simp), hglobals⟩
    refine ⟨d.func, rfl, rfl, makes_of_run (k := 0) hopen hfits ?_ hrun⟩
    refine (Builds.forM lowerGlobal_builds decls).after (.refl (hopen.sound hfits)) fun s h1 => ?_
    exact callMain_sound _ ⟨"main", hmain⟩ h1
  · cases h

/-- The declarations of a program are built, and then the entry. -/
theorem lowerProgram_spec {tree : Tree.Program} (hscope : Scope.ofProgram tree = .ok scope)
    (h : lowerProgram scope tree = .ok p) :
    ∃ (env : Env) (p1 : IR.Program) (func : Func), env.funcs = (Outline.ofProgram tree).funcs ∧
      Filled env (tree.decls.flatMap declSignatures).length (tree.decls.flatMap declSignatures) p1 ∧
      p.functions = p1.functions.push func ∧ p.entry = some p1.functions.size ∧
      Makes env.Callable (.create "__init" "main") func p1.statics p.statics := by
  obtain ⟨p1, hdecls, hentry⟩ := Except.bind_eq_ok.1 h
  have hcovers := covers_ofProgram tree
  let env : Env :=
    { scope := scope, funcs := (Outline.ofProgram tree).funcs, globals := (Outline.ofProgram tree).globals }
  have hstart : Filled env (tree.decls.flatMap declSignatures).length []
      (Outline.ofProgram tree).program := by
    refine ⟨hcovers.size, fun id ⟨key, hid⟩ => ?_, hcovers.globals,
      fun sig hsig => absurd hsig not_mem_nil, fun f hf => .inr ?_⟩
    · obtain ⟨sig, hsig, -⟩ := hcovers.funcs key id hid
      exact (List.getElem?_eq_some_iff.1 hsig).1
    · rw [← Array.mem_toList_iff, hcovers.functions] at hf
      obtain ⟨sig, -, rfl⟩ := mem_map.1 hf
      exact ⟨_, _, rfl⟩
  have hfilled := hstart.addDecls (named_ofProgram hscope) hdecls
  rw [append_nil] at hfilled
  obtain ⟨func, hfunctions, hid, hmakes⟩ := lowerEntry_spec rfl hfilled.globals hentry
  exact ⟨env, p1, func, rfl, hfilled, hfunctions, hid, hmakes⟩

theorem defined_lowerProgram {tree : Tree.Program} (hscope : Scope.ofProgram tree = .ok scope)
    (h : lowerProgram scope tree = .ok p) : p.Defined := by
  obtain ⟨env, p1, func, henv, hfilled, hfunctions, hid, hmakes⟩ := lowerProgram_spec hscope h
  have hentryDef := hmakes.defined.mono (Nat.le_refl _) fun id (hid : env.Callable id) =>
    (.inl hid : env.Callable id ∨ id = p1.functions.size)
  refine ⟨fun id => env.Callable id ∨ id = p1.functions.size, fun id hcall => ?_, fun f hf => ?_, _,
    hid, .inr rfl⟩
  · rw [hfunctions]
    rcases hcall with ⟨key, hkey⟩ | rfl
    · obtain ⟨sig, hsig, rfl⟩ := (covers_ofProgram tree).funcs key id (henv ▸ hkey)
      obtain ⟨f, hf, hfdef, -⟩ := hfilled.built sig (mem_of_getElem? hsig) id hkey
      refine ⟨f, ?_, hfdef.mono hmakes.statics fun _ => .inl⟩
      have hlt : id < p1.functions.size := hfilled.size ▸ hfilled.room id ⟨_, hkey⟩
      rw [Array.getElem?_push, if_neg (Nat.ne_of_lt hlt)]
      exact hf
    · exact ⟨func, Array.getElem?_push_size, hentryDef⟩
  · rw [hfunctions] at hf
    rcases Array.mem_push.1 hf with hf | rfl
    · rcases hfilled.others f hf with hfdef | ⟨name, label, rfl⟩
      · exact .inl (hfdef.mono hmakes.statics fun _ => .inl)
      · exact .inr rfl
    · exact .inl hentryDef

end MxStar.Lowering
