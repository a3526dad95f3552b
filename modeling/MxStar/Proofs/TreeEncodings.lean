import Mathlib.Data.List.Forall2
import MxStar.Tree.Parser
import MxStar.Tree.Printer

/-!
The JSON values that stand for a program tree.

A record is an object in which each field occurs once, at any place and among any members of other names; a
field that holds its default may be missing (`Record`). A variant is an object with its name as the only
member, or its name alone. `Encodes` says this for each kind of tree, without regard to how a value is read.
Every encoding is read as its tree: for each kind there is one lemma, `of_encodes`.
-/
namespace MxStar

open List

variable {j : Json} {o : Option Json} {e : Expr} {n : Nat} {name : String}

/-! ## Records -/

namespace Json

/-- A field of a record: its name, the values it may have, and whether it may be left out. -/
structure Field where
  name : String
  holds : Json → Prop
  omissible : Prop

namespace Field

def needed (name : String) (holds : Json → Prop) : Field := ⟨name, holds, False⟩

/-- A field for an optional part: one that is absent is `null` or left out. -/
def part (name : String) (x : Option (Json → Prop)) : Field := ⟨name, x.getD (· = .null), x = none⟩

/-- The field occurs once and with a value it may have, or it is left out. -/
def In (f : Field) (members : List (String × Json)) : Prop :=
  (∃ j, members.filter (·.1 = f.name) = [(f.name, j)] ∧ f.holds j) ∨
    (f.omissible ∧ f.name ∉ members.map Prod.fst)

/-- What the search for a field may give in a value less deep than `n`. -/
def Found (f : Field) (n : Nat) : Option Json → Prop
  | none => f.omissible
  | some j => f.holds j ∧ j.depth < n

end Field

/-- An object with the given fields, and any members of other names. -/
def Record (fs : List Field) : Json → Prop
  | .obj members => ∀ f ∈ fs, f.In members
  | _ => False

def Tagged (name : String) (content : Json → Prop) (j : Json) : Prop :=
  ∃ c, j = .obj [(name, c)] ∧ content c

def Listed (content : List Json → Prop) (j : Json) : Prop := ∃ js, j = .arr js ∧ content js

/-- What the search for several fields may give. -/
def FoundAll (n : Nat) : List Field → List (Option Json) → Prop
  | [], found => found = []
  | f :: fs, found => ∃ o rest, f.Found n o ∧ FoundAll n fs rest ∧ found = o :: rest

theorem depth_le_membersDepth {m : String × Json} {ms : List (String × Json)} (h : m ∈ ms) :
    m.2.depth ≤ membersDepth ms := by
  induction ms with
  | nil => cases h
  | cons m' ms ih =>
    rw [membersDepth]
    rcases mem_cons.1 h with rfl | h
    · exact Nat.le_max_left _ _
    · exact Nat.le_trans (ih h) (Nat.le_max_right _ _)

theorem Field.In.member? {f : Field} {members : List (String × Json)} (h : f.In members) :
    ∃ o, Json.member? f.name members = some o ∧ f.Found (membersDepth members + 1) o := by
  obtain ⟨j, hfilter, hj⟩ | ⟨homit, habsent⟩ := h
  · have hmem : (f.name, j) ∈ members :=
      mem_of_mem_filter (hfilter ▸ mem_singleton_self _)
    refine ⟨some j, by simp [Json.member?, hfilter], hj, ?_⟩
    exact Nat.lt_succ_of_le (depth_le_membersDepth hmem)
  · have hfilter : members.filter (·.1 = f.name) = [] := by
      simp only [filter_eq_nil_iff, decide_eq_true_eq]
      intro m hm hname
      exact habsent (hname ▸ mem_map_of_mem (f := Prod.fst) hm)
    exact ⟨none, by simp [Json.member?, hfilter], homit⟩

theorem Record.fields? {fs : List Field} (h : Record fs j) :
    ∃ found, j.fields? (fs.map Field.name) = some found ∧ FoundAll j.depth fs found := by
  cases j with
  | obj members =>
    rw [depth]
    change ∀ f ∈ fs, f.In members at h
    change ∃ found, (fs.map Field.name).mapM (fun name => member? name members) = some found ∧ _
    induction fs with
    | nil => exact ⟨[], rfl, rfl⟩
    | cons f fs ih =>
      obtain ⟨o, ho, hfound⟩ := (h f mem_cons_self).member?
      obtain ⟨rest, hrest, hall⟩ := ih fun f hf => h f (mem_cons_of_mem _ hf)
      exact ⟨o :: rest, by simp [mapM_cons, ho, hrest], o, rest, hfound, hall, rfl⟩
  | null | bool | int | real | str | unreadable | arr => exact h.elim

theorem Field.Found.mono {f : Field} {m : Nat} (h : f.Found m o) (hle : m ≤ n) : f.Found n o := by
  cases o with
  | none => exact h
  | some j => exact ⟨h.1, Nat.lt_of_lt_of_le h.2 hle⟩

theorem FoundAll.mono {m : Nat} (hle : m ≤ n) :
    ∀ {fs : List Field} {found : List (Option Json)}, FoundAll m fs found → FoundAll n fs found
  | [], _, h => h
  | _ :: _, _, ⟨o, rest, ho, hrest, heq⟩ => ⟨o, rest, ho.mono hle, hrest.mono hle, heq⟩

theorem Tagged.fields? {fs : List Field} (h : Tagged name (Record fs) j) (hn : j.depth < n + 1) :
    ∃ c found, j = .obj [(name, c)] ∧ c.fields? (fs.map Field.name) = some found ∧
      FoundAll n fs found := by
  obtain ⟨c, rfl, hc⟩ := h
  obtain ⟨found, hfields, hfound⟩ := hc.fields?
  have hle : c.depth ≤ n := by
    simp only [depth, membersDepth] at hn
    omega
  exact ⟨c, found, rfl, hfields, hfound.mono hle⟩

theorem Record.ne_null {fs : List Field} (h : Record fs j) : j ≠ .null := by
  rintro rfl
  exact h

end Json

namespace Tree

open Json

section Fields

variable {α : Type} {n : Nat} {o : Option Json} {name : String} {read : Json → Option α} {a : α}

theorem required_of_found {holds : Json → Prop} (h : (Field.needed name holds).Found n o)
    (hread : ∀ j, holds j → j.depth < n → read j = some a) : required read o = some a := by
  cases o with
  | none => exact h.elim
  | some j => exact hread j h.1 h.2

theorem required_str {s : String} (h : (Field.needed name (· = .str s)).Found n o) :
    required Json.str? o = some s :=
  required_of_found h fun _ hj _ => hj ▸ rfl

theorem defaulted_of_found {default : α} {holds : Json → Prop}
    (h : (⟨name, holds, a = default⟩ : Field).Found n o)
    (hread : ∀ j, holds j → j.depth < n → read j = some a) : defaulted default read o = some a := by
  cases o with
  | none => exact congrArg some h.symm
  | some j => exact hread j h.1 h.2

theorem optional_of_found {encodes : α → Json → Prop} {x : Option α}
    (h : (Field.part name (x.map encodes)).Found n o)
    (hread : ∀ a ∈ x, ∀ j, encodes a j → j.depth < n → j ≠ .null ∧ read j = some a) :
    optional read o = some x := by
  cases x with
  | none =>
    cases o with
    | none => rfl
    | some j => cases h.1; rfl
  | some a =>
    cases o with
    | none => exact nomatch h
    | some j =>
      obtain ⟨hne, hj⟩ := hread a rfl j h.1 h.2
      have hoptional : Json.optional? read j = (read j).map some := by
        cases j with
        | null => exact absurd rfl hne
        | bool | int | real | str | unreadable | arr | obj => rfl
      simp [optional, defaulted, hoptional, hj]

theorem mapM_of_forall₂ {as : List α} {js : List Json}
    (h : List.Forall₂ (fun a j => read j = some a) as js) : js.mapM read = some as := by
  induction h with
  | nil => rfl
  | cons hj _ ih => simp [mapM_cons, hj, ih]

theorem list_of_listed {encodes : α → Json → Prop} {as : List α}
    (h : Listed (List.Forall₂ encodes as) j)
    (hread : ∀ a ∈ as, ∀ j, encodes a j → read j = some a) : list read j = some as := by
  obtain ⟨js, rfl, hjs⟩ := h
  refine mapM_of_forall₂ ?_
  induction hjs with
  | nil => exact .nil
  | cons hj _ ih =>
    exact .cons (hread _ mem_cons_self _ hj)
      (ih fun a ha => hread a (mem_cons_of_mem _ ha))

theorem required_listed {encodes : α → Json → Prop} {as : List α}
    (h : (Field.needed name (Listed (List.Forall₂ encodes as))).Found n o)
    (hread : ∀ {a : α} {j : Json}, encodes a j → read j = some a) : required (list read) o = some as :=
  required_of_found h fun _ hj _ => list_of_listed hj fun _ _ _ => hread

end Fields

/-! ## Types, places and operators -/

theorem Ty.read_toJson (t : Ty) : ∀ fuel, t.toJson.depth < fuel → Ty.read fuel t.toJson = some t := by
  induction t with
  | array elem ih =>
    intro fuel hfuel
    cases fuel with
    | zero => exact absurd hfuel (Nat.not_lt_zero _)
    | succ fuel =>
      have helem : elem.toJson.depth < fuel := by
        simp only [toJson, depth, membersDepth] at hfuel
        omega
      rw [toJson, read, ih fuel helem]
      rfl
  | int | bool | string | void | null | object =>
    intro fuel hfuel
    cases fuel with
    | zero => exact absurd hfuel (Nat.not_lt_zero _)
    | succ fuel => rfl

theorem Ty.ofJson?_toJson (t : Ty) : Ty.ofJson? t.toJson = some t :=
  t.read_toJson _ (Nat.lt_succ_self _)

theorem required_ty {t : Ty} (h : (Field.needed name (· = t.toJson)).Found n o) :
    required Ty.ofJson? o = some t :=
  required_of_found h fun _ hj _ => hj ▸ t.ofJson?_toJson

def Location.Encodes (l : Location) : Json → Prop :=
  Record [.needed "line" (· = .int l.line.toNat), .needed "column" (· = .int l.column.toNat)]

/-- The field for a place, which may be left out if it is the first of the source. -/
def Location.field (l : Location) : Field := ⟨"loc", l.Encodes, l = {}⟩

theorem count?_toNat (n : UInt64) : Json.count? (.int n.toNat) = some n.toNat := by
  have hn : (n.toNat : Int) < 18446744073709551616 := by
    have := n.toNat_lt
    omega
  simp [Json.count?, hn]

theorem Location.of_encodes {l : Location} (h : l.Encodes j) : Location.ofJson? j = some l := by
  obtain ⟨_, hfields, line, _, hline, ⟨column, _, hcolumn, rfl, rfl⟩, rfl⟩ := h.fields?
  have hline : required Json.count? line = some l.line.toNat :=
    required_of_found hline fun j hj _ => hj ▸ count?_toNat l.line
  have hcolumn : required Json.count? column = some l.column.toNat :=
    required_of_found hcolumn fun j hj _ => hj ▸ count?_toNat l.column
  rw [Location.ofJson?, show j.fields? ["line", "column"] = _ from hfields]
  simp [hline, hcolumn]

theorem Location.read_field {l : Location} (h : l.field.Found n o) :
    defaulted {} Location.ofJson? o = some l :=
  defaulted_of_found h fun _ hj _ => Location.of_encodes hj

theorem UnaryOp.ofJson?_name (op : UnaryOp) : UnaryOp.ofJson? (.str op.name) = some op := by
  cases op <;> rfl

theorem BinaryOp.ofJson?_name (op : BinaryOp) : BinaryOp.ofJson? (.str op.name) = some op := by
  cases op <;> rfl

theorem word?_toInt (v : Int64) : Json.word? (.int v.toInt) = some v := by
  have hrange : Int64.minValue.toInt ≤ v.toInt ∧ v.toInt ≤ Int64.maxValue.toInt :=
    ⟨v.le_toInt, Int.le_of_lt_add_one v.toInt_lt⟩
  rw [Json.word?, if_pos, Int64.ofInt_toInt]
  simpa using hrange

/-! ## Expressions -/

/-- The encodings of an expression whose form has the given ones. -/
def Info.Encodes (i : Info) (form : Json → Prop) : Json → Prop :=
  Record [.needed "kind" form, .needed "ty" (· = i.ty.toJson), i.loc.field]

mutual

/-- The encodings of an expression. -/
def Expr.Encodes : Expr → Json → Prop
  | .intLit i v => i.Encodes (Tagged "IntLit" (· = .int v.toInt))
  | .boolLit i v => i.Encodes (Tagged "BoolLit" (· = .bool v))
  | .strLit i v => i.Encodes (Tagged "StrLit" (· = .str v))
  | .nullLit i => i.Encodes (· = .str "Null")
  | .self i => i.Encodes (· = .str "This")
  | .ident i name => i.Encodes (Tagged "Ident" (· = .str name))
  | .unary i op operand =>
    i.Encodes (Tagged "Unary" (Record [.needed "op" (· = .str op.name),
      .needed "operand" operand.Encodes]))
  | .binary i op lhs rhs =>
    i.Encodes (Tagged "Binary" (Record [.needed "op" (· = .str op.name), .needed "lhs" lhs.Encodes,
      .needed "rhs" rhs.Encodes]))
  | .assign i target value =>
    i.Encodes (Tagged "Assign" (Record [.needed "target" target.Encodes,
      .needed "value" value.Encodes]))
  | .call i name args =>
    i.Encodes (Tagged "Call" (Record [.needed "name" (· = .str name),
      .needed "args" (Listed (Expr.EncodeAll args))]))
  | .methodCall i receiver method args =>
    i.Encodes (Tagged "MethodCall" (Record [.needed "receiver" receiver.Encodes,
      .needed "method" (· = .str method), .needed "args" (Listed (Expr.EncodeAll args))]))
  | .member i object field =>
    i.Encodes (Tagged "Member" (Record [.needed "object" object.Encodes,
      .needed "field" (· = .str field)]))
  | .index i array position =>
    i.Encodes (Tagged "Index" (Record [.needed "array" array.Encodes,
      .needed "index" position.Encodes]))
  | .create i dims =>
    i.Encodes (Tagged "New" (Record [⟨"dims", Listed (Expr.EncodeAll dims), dims = []⟩]))

def Expr.EncodeAll : List Expr → List Json → Prop
  | [], js => js = []
  | e :: es, js => ∃ j rest, e.Encodes j ∧ Expr.EncodeAll es rest ∧ js = j :: rest

end

theorem Info.read_of_encodes {i : Info} {form : Json → Prop} {fuel : Nat} (h : i.Encodes form j)
    (hfuel : j.depth < fuel + 1) (hform : ∀ kind, form kind → kind.depth < fuel →
      Expr.readForm (Expr.read fuel) i kind = some e) : Expr.read (fuel + 1) j = some e := by
  obtain ⟨_, hfields, kind, _, hkind, ⟨ty, _, hty, ⟨loc, _, hloc, rfl, rfl⟩, rfl⟩, rfl⟩ := h.fields?
  cases kind with
  | none => exact hkind.elim
  | some kind =>
    have hkind := hform kind hkind.1 (Nat.lt_of_lt_of_le hkind.2 (Nat.le_of_lt_succ hfuel))
    rw [Expr.read, show j.fields? ["kind", "ty", "loc"] = _ from hfields]
    simp [required_ty hty, Location.read_field hloc, hkind]

theorem Info.read_of_record {i : Info} {fs : List Field} {fuel : Nat}
    (h : i.Encodes (Tagged name (Record fs)) j) (hfuel : j.depth < fuel + 1)
    (hform : ∀ c found, c.fields? (fs.map Field.name) = some found → FoundAll fuel fs found →
      Expr.readForm (Expr.read fuel) i (.obj [(name, c)]) = some e) :
    Expr.read (fuel + 1) j = some e := by
  refine Info.read_of_encodes h hfuel fun kind hkind hdepth => ?_
  obtain ⟨c, found, rfl, hfields, hfound⟩ := hkind.fields? (Nat.lt_succ_of_lt hdepth)
  exact hform c found hfields hfound

mutual

theorem Expr.read_of_encodes : ∀ (e : Expr) (fuel : Nat) (j : Json), e.Encodes j → j.depth < fuel →
    Expr.read fuel j = some e
  | _, 0, _, _, hfuel => absurd hfuel (Nat.not_lt_zero _)
  | .intLit i v, fuel + 1, j, h, hfuel => by
    refine Info.read_of_encodes h hfuel ?_
    rintro _ ⟨_, rfl, rfl⟩ _
    rw [Expr.readForm, word?_toInt]
    rfl
  | .boolLit i v, fuel + 1, j, h, hfuel | .strLit i v, fuel + 1, j, h, hfuel
  | .ident i v, fuel + 1, j, h, hfuel => by
    refine Info.read_of_encodes h hfuel ?_
    rintro _ ⟨_, rfl, rfl⟩ _
    rfl
  | .nullLit i, fuel + 1, j, h, hfuel | .self i, fuel + 1, j, h, hfuel => by
    refine Info.read_of_encodes h hfuel ?_
    rintro _ rfl _
    rfl
  | .unary i op operand, fuel + 1, j, h, hfuel => by
    refine Info.read_of_record h hfuel ?_
    rintro c _ hfields ⟨o, _, ho, ⟨e, _, he, rfl, rfl⟩, rfl⟩
    have ho : required UnaryOp.ofJson? o = some op :=
      required_of_found ho fun j hj _ => hj ▸ op.ofJson?_name
    rw [Expr.readForm, show c.fields? ["op", "operand"] = _ from hfields]
    simp [ho, required_of_found he (operand.read_of_encodes fuel)]
  | .binary i op lhs rhs, fuel + 1, j, h, hfuel => by
    refine Info.read_of_record h hfuel ?_
    rintro c _ hfields ⟨o, _, ho, ⟨l, _, hl, ⟨r, _, hr, rfl, rfl⟩, rfl⟩, rfl⟩
    have ho : required BinaryOp.ofJson? o = some op :=
      required_of_found ho fun j hj _ => hj ▸ op.ofJson?_name
    rw [Expr.readForm, show c.fields? ["op", "lhs", "rhs"] = _ from hfields]
    simp [ho, required_of_found hl (lhs.read_of_encodes fuel),
      required_of_found hr (rhs.read_of_encodes fuel)]
  | .assign i target value, fuel + 1, j, h, hfuel => by
    refine Info.read_of_record h hfuel ?_
    rintro c _ hfields ⟨t, _, ht, ⟨v, _, hv, rfl, rfl⟩, rfl⟩
    rw [Expr.readForm, show c.fields? ["target", "value"] = _ from hfields]
    simp [required_of_found ht (target.read_of_encodes fuel),
      required_of_found hv (value.read_of_encodes fuel)]
  | .call i name args, fuel + 1, j, h, hfuel => by
    refine Info.read_of_record h hfuel ?_
    rintro c _ hfields ⟨n, _, hn, ⟨as, _, has, rfl, rfl⟩, rfl⟩
    rw [Expr.readForm, show c.fields? ["name", "args"] = _ from hfields]
    simp [required_str hn, required_of_found has (Expr.readAll_of_encodes args fuel)]
  | .methodCall i receiver method args, fuel + 1, j, h, hfuel => by
    refine Info.read_of_record h hfuel ?_
    rintro c _ hfields ⟨r, _, hr, ⟨m, _, hm, ⟨as, _, has, rfl, rfl⟩, rfl⟩, rfl⟩
    rw [Expr.readForm, show c.fields? ["receiver", "method", "args"] = _ from hfields]
    simp [required_of_found hr (receiver.read_of_encodes fuel), required_str hm,
      required_of_found has (Expr.readAll_of_encodes args fuel)]
  | .member i object field, fuel + 1, j, h, hfuel => by
    refine Info.read_of_record h hfuel ?_
    rintro c _ hfields ⟨o, _, ho, ⟨f, _, hf, rfl, rfl⟩, rfl⟩
    rw [Expr.readForm, show c.fields? ["object", "field"] = _ from hfields]
    simp [required_of_found ho (object.read_of_encodes fuel), required_str hf]
  | .index i array position, fuel + 1, j, h, hfuel => by
    refine Info.read_of_record h hfuel ?_
    rintro c _ hfields ⟨a, _, ha, ⟨p, _, hp, rfl, rfl⟩, rfl⟩
    rw [Expr.readForm, show c.fields? ["array", "index"] = _ from hfields]
    simp [required_of_found ha (array.read_of_encodes fuel),
      required_of_found hp (position.read_of_encodes fuel)]
  | .create i dims, fuel + 1, j, h, hfuel => by
    refine Info.read_of_record h hfuel ?_
    rintro c _ hfields ⟨ds, _, hds, rfl, rfl⟩
    rw [Expr.readForm, show c.fields? ["dims"] = _ from hfields]
    simp [defaulted_of_found hds (Expr.readAll_of_encodes dims fuel)]

theorem Expr.readAll_of_encodes : ∀ (es : List Expr) (fuel : Nat) (j : Json),
    Listed (Expr.EncodeAll es) j → j.depth < fuel → list (Expr.read fuel) j = some es
  | [], _, _, ⟨_, rfl, h⟩, _ => by cases h; rfl
  | e :: es, fuel, _, ⟨_, rfl, h⟩, hfuel => by
    obtain ⟨j, rest, hj, hrest, rfl⟩ := h
    rw [depth, itemsDepth] at hfuel
    have hj := e.read_of_encodes fuel j hj (by omega)
    have hrest := Expr.readAll_of_encodes es fuel (.arr rest) ⟨rest, rfl, hrest⟩ (by
      rw [depth]
      omega)
    change rest.mapM (Expr.read fuel) = some es at hrest
    simp [list, Json.items?, mapM_cons, hj, hrest]

end

theorem Expr.of_encodes (h : e.Encodes j) : Expr.ofJson? j = some e :=
  e.read_of_encodes _ j h (Nat.lt_succ_self _)

theorem Expr.Encodes.ne_null (h : e.Encodes j) : j ≠ .null := by
  cases e <;> exact Record.ne_null h

theorem Expr.read_part {x : Option Expr} (h : (Field.part name (x.map Expr.Encodes)).Found n o) :
    optional Expr.ofJson? o = some x :=
  optional_of_found h fun _ _ _ hj _ => ⟨hj.ne_null, Expr.of_encodes hj⟩

/-! ## Statements -/

def VarDecl.Encodes (d : VarDecl) : Json → Prop :=
  Record [.needed "name" (· = .str d.name), .needed "ty" (· = d.ty.toJson),
    .part "init" (d.init.map Expr.Encodes), d.loc.field]

theorem VarDecl.of_encodes {d : VarDecl} (h : d.Encodes j) : VarDecl.ofJson? j = some d := by
  obtain ⟨_, hfields, name, _, hname, ⟨ty, _, hty, ⟨init, _, hinit, ⟨loc, _, hloc, rfl, rfl⟩, rfl⟩,
    rfl⟩, rfl⟩ := h.fields?
  rw [VarDecl.ofJson?, show j.fields? ["name", "ty", "init", "loc"] = _ from hfields]
  simp [required_str hname, required_ty hty, Expr.read_part hinit, Location.read_field hloc]

def ForInit.Encodes : ForInit → Json → Prop
  | .decls ds => Tagged "Decls" (Listed (List.Forall₂ VarDecl.Encodes ds))
  | .expr e => Tagged "Expr" e.Encodes

theorem ForInit.of_encodes {init : ForInit} (h : init.Encodes j) :
    ForInit.ofJson? j = some init := by
  cases init with
  | decls ds =>
    obtain ⟨c, rfl, hc⟩ := h
    rw [ForInit.ofJson?, list_of_listed hc fun d _ j hj => VarDecl.of_encodes hj]
    rfl
  | expr e =>
    obtain ⟨c, rfl, hc⟩ := h
    rw [ForInit.ofJson?, Expr.of_encodes hc]
    rfl

theorem ForInit.Encodes.ne_null {init : ForInit} (h : init.Encodes j) : j ≠ .null := by
  rintro rfl
  cases init with
  | decls | expr =>
    obtain ⟨c, hc, -⟩ := h
    cases hc

mutual

def Stmt.Encodes : Stmt → Json → Prop
  | .block body => Tagged "Block" (Listed (Stmt.EncodeAll body))
  | .varDecl d => Tagged "VarDecl" d.Encodes
  | .expr e => Tagged "Expr" e.Encodes
  | .branch cond thenBranch elseBranch =>
    Tagged "If" (Record [.needed "cond" cond.Encodes, .needed "then_branch" thenBranch.Encodes,
      .part "else_branch" (Stmt.EncodeOption elseBranch)])
  | .whileLoop cond body =>
    Tagged "While" (Record [.needed "cond" cond.Encodes, .needed "body" body.Encodes])
  | .forLoop init cond step body =>
    Tagged "For" (Record [.part "init" (init.map ForInit.Encodes),
      .part "cond" (cond.map Expr.Encodes), .part "step" (step.map Expr.Encodes),
      .needed "body" body.Encodes])
  | .breakLoop loc => Tagged "Break" loc.Encodes
  | .continueLoop loc => Tagged "Continue" loc.Encodes
  | .giveBack value loc =>
    Tagged "Return" (Record [.part "value" (value.map Expr.Encodes), loc.field])
  | .empty => (· = .str "Empty")

def Stmt.EncodeAll : List Stmt → List Json → Prop
  | [], js => js = []
  | s :: ss, js => ∃ j rest, s.Encodes j ∧ Stmt.EncodeAll ss rest ∧ js = j :: rest

def Stmt.EncodeOption : Option Stmt → Option (Json → Prop)
  | none => none
  | some s => some s.Encodes

end

theorem Stmt.Encodes.ne_null {s : Stmt} (h : s.Encodes j) : j ≠ .null := by
  rintro rfl
  cases s with
  | empty => cases h
  | block | varDecl | expr | branch | whileLoop | forLoop | breakLoop | continueLoop | giveBack =>
    obtain ⟨c, hc, -⟩ := h
    cases hc

mutual

theorem Stmt.read_of_encodes : ∀ (s : Stmt) (fuel : Nat) (j : Json), s.Encodes j → j.depth < fuel →
    Stmt.read fuel j = some s
  | _, 0, _, _, hfuel => absurd hfuel (Nat.not_lt_zero _)
  | .block body, fuel + 1, j, h, hfuel => by
    obtain ⟨c, rfl, hc⟩ := h
    have hbody := Stmt.readAll_of_encodes body fuel c hc (by
      simp only [depth, membersDepth] at hfuel
      omega)
    rw [Stmt.read, Stmt.readForm, hbody]
    rfl
  | .varDecl d, fuel + 1, j, h, _ => by
    obtain ⟨c, rfl, hc⟩ := h
    rw [Stmt.read, Stmt.readForm, VarDecl.of_encodes hc]
    rfl
  | .expr e, fuel + 1, j, h, _ => by
    obtain ⟨c, rfl, hc⟩ := h
    rw [Stmt.read, Stmt.readForm, Expr.of_encodes hc]
    rfl
  | .branch cond thenBranch elseBranch, fuel + 1, j, h, hfuel => by
    obtain ⟨c, _, rfl, hfields, e, _, he, ⟨t, _, ht, ⟨f, _, hf, rfl, rfl⟩, rfl⟩, rfl⟩ :=
      Tagged.fields? h hfuel
    have he : required Expr.ofJson? e = some cond :=
      required_of_found he fun j hj _ => Expr.of_encodes hj
    have hf := Stmt.readOption_of_encodes elseBranch fuel f hf
    rw [Stmt.read, Stmt.readForm,
      show c.fields? ["cond", "then_branch", "else_branch"] = _ from hfields]
    simp [he, required_of_found ht (thenBranch.read_of_encodes fuel), hf]
  | .whileLoop cond body, fuel + 1, j, h, hfuel => by
    obtain ⟨c, _, rfl, hfields, e, _, he, ⟨b, _, hb, rfl, rfl⟩, rfl⟩ := Tagged.fields? h hfuel
    have he : required Expr.ofJson? e = some cond :=
      required_of_found he fun j hj _ => Expr.of_encodes hj
    rw [Stmt.read, Stmt.readForm, show c.fields? ["cond", "body"] = _ from hfields]
    simp [he, required_of_found hb (body.read_of_encodes fuel)]
  | .forLoop init cond step body, fuel + 1, j, h, hfuel => by
    obtain ⟨c, _, rfl, hfields, i, _, hi, ⟨e, _, he, ⟨p, _, hp, ⟨b, _, hb, rfl, rfl⟩, rfl⟩, rfl⟩,
      rfl⟩ := Tagged.fields? h hfuel
    have hi : optional ForInit.ofJson? i = some init :=
      optional_of_found hi fun _ _ _ hj _ => ⟨hj.ne_null, ForInit.of_encodes hj⟩
    rw [Stmt.read, Stmt.readForm, show c.fields? ["init", "cond", "step", "body"] = _ from hfields]
    simp [hi, Expr.read_part he, Expr.read_part hp, required_of_found hb (body.read_of_encodes fuel)]
  | .breakLoop loc, fuel + 1, j, h, _ | .continueLoop loc, fuel + 1, j, h, _ => by
    obtain ⟨c, rfl, hc⟩ := h
    rw [Stmt.read, Stmt.readForm, Location.of_encodes hc]
    rfl
  | .giveBack value loc, fuel + 1, j, h, hfuel => by
    obtain ⟨c, _, rfl, hfields, v, _, hv, ⟨l, _, hl, rfl, rfl⟩, rfl⟩ := Tagged.fields? h hfuel
    rw [Stmt.read, Stmt.readForm, show c.fields? ["value", "loc"] = _ from hfields]
    simp [Expr.read_part hv, Location.read_field hl]
  | .empty, fuel + 1, j, h, _ => by
    cases h
    rfl

theorem Stmt.readAll_of_encodes : ∀ (ss : List Stmt) (fuel : Nat) (j : Json),
    Listed (Stmt.EncodeAll ss) j → j.depth < fuel → list (Stmt.read fuel) j = some ss
  | [], _, _, ⟨_, rfl, h⟩, _ => by cases h; rfl
  | s :: ss, fuel, _, ⟨_, rfl, h⟩, hfuel => by
    obtain ⟨j, rest, hj, hrest, rfl⟩ := h
    rw [depth, itemsDepth] at hfuel
    have hj := s.read_of_encodes fuel j hj (by omega)
    have hrest := Stmt.readAll_of_encodes ss fuel (.arr rest) ⟨rest, rfl, hrest⟩ (by
      rw [depth]
      omega)
    change rest.mapM (Stmt.read fuel) = some ss at hrest
    simp [list, Json.items?, mapM_cons, hj, hrest]

theorem Stmt.readOption_of_encodes : ∀ (x : Option Stmt) (fuel : Nat) (o : Option Json),
    (Field.part "else_branch" (Stmt.EncodeOption x)).Found fuel o →
    optional (Stmt.read fuel) o = some x
  | none, _, none, _ => rfl
  | none, _, some _, h => by cases h.1; rfl
  | some s, fuel, _, h =>
    optional_of_found (x := some s) h fun _ hs j hj hd => by
      cases hs
      exact ⟨Stmt.Encodes.ne_null hj, s.read_of_encodes fuel j hj hd⟩

end

theorem Stmt.of_encodes {s : Stmt} (h : s.Encodes j) : Stmt.ofJson? j = some s :=
  s.read_of_encodes _ j h (Nat.lt_succ_self _)

/-! ## Declarations -/

def Param.Encodes (p : Param) : Json → Prop :=
  Record [.needed "name" (· = .str p.name), .needed "ty" (· = p.ty.toJson)]

theorem Param.of_encodes {p : Param} (h : p.Encodes j) : Param.ofJson? j = some p := by
  obtain ⟨_, hfields, name, _, hname, ⟨ty, _, hty, rfl, rfl⟩, rfl⟩ := h.fields?
  rw [Param.ofJson?, show j.fields? ["name", "ty"] = _ from hfields]
  simp [required_str hname, required_ty hty]

def FuncDecl.Encodes (d : FuncDecl) : Json → Prop :=
  Record [.needed "name" (· = .str d.name), .needed "ret" (· = d.ret.toJson),
    .needed "params" (Listed (List.Forall₂ Param.Encodes d.params)),
    .needed "body" (Listed (List.Forall₂ Stmt.Encodes d.body)), d.loc.field]

theorem FuncDecl.of_encodes {d : FuncDecl} (h : d.Encodes j) : FuncDecl.ofJson? j = some d := by
  obtain ⟨_, hfields, name, _, hname, ⟨ret, _, hret, ⟨params, _, hparams, ⟨body, _, hbody,
    ⟨loc, _, hloc, rfl, rfl⟩, rfl⟩, rfl⟩, rfl⟩, rfl⟩ := h.fields?
  rw [FuncDecl.ofJson?, show j.fields? ["name", "ret", "params", "body", "loc"] = _ from hfields]
  simp [required_str hname, required_ty hret, required_listed hparams Param.of_encodes,
    required_listed hbody Stmt.of_encodes, Location.read_field hloc]

def ClassDecl.Encodes (d : ClassDecl) : Json → Prop :=
  Record [.needed "name" (· = .str d.name),
    .needed "fields" (Listed (List.Forall₂ VarDecl.Encodes d.fields)),
    .needed "methods" (Listed (List.Forall₂ FuncDecl.Encodes d.methods)), d.loc.field]

theorem ClassDecl.of_encodes {d : ClassDecl} (h : d.Encodes j) : ClassDecl.ofJson? j = some d := by
  obtain ⟨_, hfields, name, _, hname, ⟨fields, _, hfs, ⟨methods, _, hmethods, ⟨loc, _, hloc, rfl,
    rfl⟩, rfl⟩, rfl⟩, rfl⟩ := h.fields?
  rw [ClassDecl.ofJson?, show j.fields? ["name", "fields", "methods", "loc"] = _ from hfields]
  simp [required_str hname, required_listed hfs VarDecl.of_encodes,
    required_listed hmethods FuncDecl.of_encodes, Location.read_field hloc]

def Decl.Encodes : Decl → Json → Prop
  | .var d => Tagged "Var" d.Encodes
  | .func d => Tagged "Func" d.Encodes
  | .cls d => Tagged "Class" d.Encodes

theorem Decl.of_encodes {d : Decl} (h : d.Encodes j) : Decl.ofJson? j = some d := by
  cases d with
  | var d =>
    obtain ⟨c, rfl, hc⟩ := h
    rw [Decl.ofJson?, VarDecl.of_encodes hc]
    rfl
  | func d =>
    obtain ⟨c, rfl, hc⟩ := h
    rw [Decl.ofJson?, FuncDecl.of_encodes hc]
    rfl
  | cls d =>
    obtain ⟨c, rfl, hc⟩ := h
    rw [Decl.ofJson?, ClassDecl.of_encodes hc]
    rfl

def Program.Encodes (p : Program) : Json → Prop :=
  Record [.needed "decls" (Listed (List.Forall₂ Decl.Encodes p.decls))]

theorem Program.of_encodes {p : Program} (h : p.Encodes j) : Program.ofJson? j = some p := by
  obtain ⟨_, hfields, decls, _, hdecls, rfl, rfl⟩ := h.fields?
  rw [Program.ofJson?, show j.fields? ["decls"] = _ from hfields]
  simp [required_listed hdecls Decl.of_encodes]

end Tree

end MxStar
