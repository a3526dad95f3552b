import MxStar.Proofs.JsonText
import MxStar.Proofs.TreeEncodings

/-!
Program trees survive being written and read back.

What is written for a tree is one of its encodings, with every field present (`encodes_toJson`), and it is
JSON that can be read (`proper_toJson`).
-/
namespace MxStar

open List

variable {α : Type}

namespace Json

/-- An object whose names are distinct is a record if it has all the fields. -/
theorem record_obj {fs : List Field} {members : List (String × Json)}
    (hnames : (members.map Prod.fst).Nodup)
    (hfields : ∀ f ∈ fs, ∃ j, (f.name, j) ∈ members ∧ f.holds j) : Record fs (.obj members) := by
  intro f hf
  obtain ⟨j, hmem, hj⟩ := hfields f hf
  refine .inl ⟨j, ?_, hj⟩
  clear hfields
  induction members with
  | nil => cases hmem
  | cons m ms ih =>
    rw [map_cons, nodup_cons] at hnames
    rcases mem_cons.1 hmem with rfl | hmem
    · -- The others have other names.
      have hothers : ms.filter (·.1 = f.name) = [] := by
        simp only [filter_eq_nil_iff, decide_eq_true_eq]
        intro m hm hname
        have hsame := mem_map_of_mem (f := Prod.fst) hm
        exact hnames.1 (hname ▸ hsame)
      simp [hothers]
    · have hm : m.1 ≠ f.name := fun hname =>
        hnames.1 (hname ▸ mem_map_of_mem (f := Prod.fst) hmem)
      simp [hm, ih hnames.2 hmem]

end Json

namespace Tree

open Json

/-! ## What is written is an encoding -/

theorem Location.encodes_toJson (l : Location) : l.Encodes l.toJson :=
  record_obj (by simp) (by simp [Field.needed])

theorem Info.encodes_toJson (i : Info) {form : Json → Prop} {kind : Json} (h : form kind) :
    i.Encodes form (i.toJson kind) :=
  record_obj (by simp) (by simp [Field.needed, Location.field, h, i.loc.encodes_toJson])

mutual

theorem Expr.encodes_toJson : ∀ e : Expr, e.Encodes e.toJson
  | .intLit i v => i.encodes_toJson ⟨_, rfl, rfl⟩
  | .boolLit i v => i.encodes_toJson ⟨_, rfl, rfl⟩
  | .strLit i v => i.encodes_toJson ⟨_, rfl, rfl⟩
  | .nullLit i => i.encodes_toJson rfl
  | .self i => i.encodes_toJson rfl
  | .ident i name => i.encodes_toJson ⟨_, rfl, rfl⟩
  | .unary i op operand =>
    i.encodes_toJson ⟨_, rfl, record_obj (by simp)
      (by simp [Field.needed, operand.encodes_toJson])⟩
  | .binary i op lhs rhs =>
    i.encodes_toJson ⟨_, rfl, record_obj (by simp)
      (by simp [Field.needed, lhs.encodes_toJson, rhs.encodes_toJson])⟩
  | .assign i target value =>
    i.encodes_toJson ⟨_, rfl, record_obj (by simp)
      (by simp [Field.needed, target.encodes_toJson, value.encodes_toJson])⟩
  | .call i name args =>
    i.encodes_toJson ⟨_, rfl, record_obj (by simp)
      (by simp [Field.needed, Listed, Expr.encodeAll_listToJson args])⟩
  | .methodCall i receiver method args =>
    i.encodes_toJson ⟨_, rfl, record_obj (by simp)
      (by simp [Field.needed, Listed, receiver.encodes_toJson, Expr.encodeAll_listToJson args])⟩
  | .member i object field =>
    i.encodes_toJson ⟨_, rfl, record_obj (by simp)
      (by simp [Field.needed, object.encodes_toJson])⟩
  | .index i array position =>
    i.encodes_toJson ⟨_, rfl, record_obj (by simp)
      (by simp [Field.needed, array.encodes_toJson, position.encodes_toJson])⟩
  | .create i dims =>
    i.encodes_toJson ⟨_, rfl, record_obj (by simp)
      (by simp [Listed, Expr.encodeAll_listToJson dims])⟩

theorem Expr.encodeAll_listToJson : ∀ es : List Expr, Expr.EncodeAll es (Expr.listToJson es)
  | [] => rfl
  | e :: es => ⟨_, _, e.encodes_toJson, Expr.encodeAll_listToJson es, rfl⟩

end

theorem getD_ofOption {encodes : α → Json → Prop} {write : α → Json} (x : Option α)
    (h : ∀ a, encodes a (write a)) : (x.map encodes).getD (· = .null) (ofOption write x) := by
  cases x with
  | none => rfl
  | some a => exact h a

theorem forall₂_map {encodes : α → Json → Prop} {write : α → Json} (h : ∀ a, encodes a (write a))
    (as : List α) : List.Forall₂ encodes as (as.map write) := by
  induction as with
  | nil => exact .nil
  | cons a as ih => exact .cons (h a) ih

theorem VarDecl.encodes_toJson (d : VarDecl) : d.Encodes d.toJson :=
  record_obj (by simp) (by
    have hinit := getD_ofOption d.init Expr.encodes_toJson
    simpa [Field.needed, Field.part, Location.field, d.loc.encodes_toJson] using hinit)

theorem ForInit.encodes_toJson : ∀ init : ForInit, init.Encodes init.toJson
  | .decls ds => ⟨_, rfl, _, rfl, forall₂_map VarDecl.encodes_toJson ds⟩
  | .expr e => ⟨_, rfl, e.encodes_toJson⟩

mutual

theorem Stmt.encodes_toJson : ∀ s : Stmt, s.Encodes s.toJson
  | .block body => ⟨_, rfl, _, rfl, Stmt.encodeAll_listToJson body⟩
  | .varDecl d => ⟨_, rfl, d.encodes_toJson⟩
  | .expr e => ⟨_, rfl, e.encodes_toJson⟩
  | .branch cond thenBranch elseBranch =>
    ⟨_, rfl, record_obj (by simp) (by
      simpa [Field.needed, Field.part, cond.encodes_toJson, thenBranch.encodes_toJson] using
        Stmt.encodeOption_optionToJson elseBranch)⟩
  | .whileLoop cond body =>
    ⟨_, rfl, record_obj (by simp)
      (by simp [Field.needed, cond.encodes_toJson, body.encodes_toJson])⟩
  | .forLoop init cond step body =>
    ⟨_, rfl, record_obj (by simp) (by
      have hinit := getD_ofOption init ForInit.encodes_toJson
      have hcond := getD_ofOption cond Expr.encodes_toJson
      have hstep := getD_ofOption step Expr.encodes_toJson
      simp [Field.needed, Field.part, hinit, hcond, hstep, body.encodes_toJson])⟩
  | .breakLoop loc => ⟨_, rfl, loc.encodes_toJson⟩
  | .continueLoop loc => ⟨_, rfl, loc.encodes_toJson⟩
  | .giveBack value loc =>
    ⟨_, rfl, record_obj (by simp) (by
      have hvalue := getD_ofOption value Expr.encodes_toJson
      simpa [Field.part, Location.field, loc.encodes_toJson] using hvalue)⟩
  | .empty => rfl

theorem Stmt.encodeAll_listToJson : ∀ ss : List Stmt, Stmt.EncodeAll ss (Stmt.listToJson ss)
  | [] => rfl
  | s :: ss => ⟨_, _, s.encodes_toJson, Stmt.encodeAll_listToJson ss, rfl⟩

theorem Stmt.encodeOption_optionToJson : ∀ x : Option Stmt,
    (Stmt.EncodeOption x).getD (· = .null) (Stmt.optionToJson x)
  | none => rfl
  | some s => s.encodes_toJson

end

theorem Param.encodes_toJson (p : Param) : p.Encodes p.toJson :=
  record_obj (by simp) (by simp [Field.needed])

theorem Stmt.listToJson_eq_map (ss : List Stmt) : Stmt.listToJson ss = ss.map Stmt.toJson := by
  induction ss with
  | nil => rfl
  | cons s ss ih => rw [Stmt.listToJson, ih, map_cons]

theorem FuncDecl.encodes_toJson (d : FuncDecl) : d.Encodes d.toJson :=
  record_obj (by simp) (by
    have hparams := forall₂_map Param.encodes_toJson d.params
    have hbody := forall₂_map Stmt.encodes_toJson d.body
    rw [← Stmt.listToJson_eq_map] at hbody
    simp [Field.needed, Listed, Location.field, d.loc.encodes_toJson, hparams, hbody])

theorem ClassDecl.encodes_toJson (d : ClassDecl) : d.Encodes d.toJson :=
  record_obj (by simp) (by
    have hfields := forall₂_map VarDecl.encodes_toJson d.fields
    have hmethods := forall₂_map FuncDecl.encodes_toJson d.methods
    simp [Field.needed, Listed, Location.field, d.loc.encodes_toJson, hfields, hmethods])

theorem Decl.encodes_toJson : ∀ d : Decl, d.Encodes d.toJson
  | .var d => ⟨_, rfl, d.encodes_toJson⟩
  | .func d => ⟨_, rfl, d.encodes_toJson⟩
  | .cls d => ⟨_, rfl, d.encodes_toJson⟩

theorem Program.encodes_toJson (p : Program) : p.Encodes p.toJson :=
  record_obj (by simp) (by
    have hdecls := forall₂_map Decl.encodes_toJson p.decls
    simp [Field.needed, Listed, hdecls])

/-! ## What is written can be read -/

theorem Location.proper_toJson (l : Location) : l.toJson.Proper := by
  simp [Location.toJson, Proper, MembersProper]

theorem Ty.proper_toJson (t : Ty) : t.toJson.Proper := by
  induction t with
  | array elem ih => simpa [Ty.toJson, Proper, MembersProper] using ih
  | int | bool | string | void | null | object => simp [Ty.toJson, Proper, MembersProper]

theorem Info.proper_toJson (i : Info) {kind : Json} (h : kind.Proper) : (i.toJson kind).Proper := by
  simp [Info.toJson, Proper, MembersProper, h, i.loc.proper_toJson, i.ty.proper_toJson]

theorem properItems_map {write : α → Json} (h : ∀ a, (write a).Proper) (as : List α) :
    ItemsProper (as.map write) := by
  induction as with
  | nil => trivial
  | cons a as ih => exact ⟨h a, ih⟩

theorem proper_ofOption {write : α → Json} (h : ∀ a, (write a).Proper) (x : Option α) :
    (ofOption write x).Proper := by
  cases x with
  | none => trivial
  | some a => exact h a

mutual

theorem Expr.proper_toJson : ∀ e : Expr, e.toJson.Proper
  | .intLit i _ | .boolLit i _ | .strLit i _ | .nullLit i | .self i | .ident i _ => by
    refine i.proper_toJson ?_
    simp [Proper, MembersProper]
  | .unary i _ e => by
    refine i.proper_toJson ?_
    simp [Proper, MembersProper, e.proper_toJson]
  | .member i e _ => by
    refine i.proper_toJson ?_
    simp [Proper, MembersProper, e.proper_toJson]
  | .binary i _ l r => by
    refine i.proper_toJson ?_
    simp [Proper, MembersProper, l.proper_toJson, r.proper_toJson]
  | .assign i l r | .index i l r => by
    refine i.proper_toJson ?_
    simp [Proper, MembersProper, l.proper_toJson, r.proper_toJson]
  | .call i _ es => by
    refine i.proper_toJson ?_
    simp [Proper, MembersProper, Expr.proper_listToJson es]
  | .create i es => by
    refine i.proper_toJson ?_
    simp [Proper, MembersProper, Expr.proper_listToJson es]
  | .methodCall i e _ es => by
    refine i.proper_toJson ?_
    simp [Proper, MembersProper, e.proper_toJson, Expr.proper_listToJson es]

theorem Expr.proper_listToJson : ∀ es : List Expr, ItemsProper (Expr.listToJson es)
  | [] => trivial
  | e :: es => ⟨e.proper_toJson, Expr.proper_listToJson es⟩

end

theorem VarDecl.proper_toJson (d : VarDecl) : d.toJson.Proper := by
  simp [VarDecl.toJson, Proper, MembersProper, d.loc.proper_toJson, d.ty.proper_toJson,
    proper_ofOption Expr.proper_toJson]

theorem ForInit.proper_toJson : ∀ init : ForInit, init.toJson.Proper
  | .decls ds => by
    simp [ForInit.toJson, Proper, MembersProper, properItems_map VarDecl.proper_toJson]
  | .expr e => by simp [ForInit.toJson, Proper, MembersProper, e.proper_toJson]

mutual

theorem Stmt.proper_toJson : ∀ s : Stmt, s.toJson.Proper
  | .block body => by simp [Stmt.toJson, Proper, MembersProper, Stmt.proper_listToJson body]
  | .varDecl d => by simp [Stmt.toJson, Proper, MembersProper, d.proper_toJson]
  | .expr e => by simp [Stmt.toJson, Proper, MembersProper, e.proper_toJson]
  | .branch cond t e => by
    simp [Stmt.toJson, Proper, MembersProper, cond.proper_toJson, t.proper_toJson,
      Stmt.proper_optionToJson e]
  | .whileLoop cond body => by
    simp [Stmt.toJson, Proper, MembersProper, cond.proper_toJson, body.proper_toJson]
  | .forLoop init cond step body => by
    simp [Stmt.toJson, Proper, MembersProper, proper_ofOption ForInit.proper_toJson,
      proper_ofOption Expr.proper_toJson, body.proper_toJson]
  | .breakLoop loc | .continueLoop loc => by
    simp [Stmt.toJson, Proper, MembersProper, loc.proper_toJson]
  | .giveBack value loc => by
    simp [Stmt.toJson, Proper, MembersProper, loc.proper_toJson, proper_ofOption Expr.proper_toJson]
  | .empty => by simp [Stmt.toJson, Proper]

theorem Stmt.proper_listToJson : ∀ ss : List Stmt, ItemsProper (Stmt.listToJson ss)
  | [] => trivial
  | s :: ss => ⟨s.proper_toJson, Stmt.proper_listToJson ss⟩

theorem Stmt.proper_optionToJson : ∀ x : Option Stmt, (Stmt.optionToJson x).Proper
  | none => trivial
  | some s => s.proper_toJson

end

theorem Param.proper_toJson (p : Param) : p.toJson.Proper := by
  simp [Param.toJson, Proper, MembersProper, p.ty.proper_toJson]

theorem FuncDecl.proper_toJson (d : FuncDecl) : d.toJson.Proper := by
  simp [FuncDecl.toJson, Proper, MembersProper, d.loc.proper_toJson, d.ret.proper_toJson,
    properItems_map Param.proper_toJson, Stmt.proper_listToJson]

theorem ClassDecl.proper_toJson (d : ClassDecl) : d.toJson.Proper := by
  simp [ClassDecl.toJson, Proper, MembersProper, d.loc.proper_toJson,
    properItems_map VarDecl.proper_toJson, properItems_map FuncDecl.proper_toJson]

theorem Decl.proper_toJson (d : Decl) : d.toJson.Proper := by
  cases d <;> simp [Decl.toJson, Proper, MembersProper, VarDecl.proper_toJson,
    FuncDecl.proper_toJson, ClassDecl.proper_toJson]

theorem Program.proper_toJson (p : Program) : p.toJson.Proper := by
  simp [Program.toJson, Proper, MembersProper, properItems_map Decl.proper_toJson]

/-! ## Programs -/

theorem Program.parse?_of_encodes {p : Program} {j : Json} (h : p.Encodes j) (hj : j.Proper) :
    Program.parse? j.render = some p := by
  rw [Program.parse?, Json.parse?_render hj, Option.bind_some, Program.of_encodes h]

/-- A program is read from the text that is written for it, in which every field is present, and from the
text of each of its encodings: fields that hold their defaults may be missing from any record in it, and
any record may have members of other names. -/
theorem encoding_reads_back (p : Program) :
    p.Encodes p.toJson ∧ Program.parse? p.render = some p ∧
      ∀ j, p.Encodes j → j.Proper → Program.parse? j.render = some p :=
  ⟨p.encodes_toJson, Program.parse?_of_encodes p.encodes_toJson p.proper_toJson,
    fun _ => Program.parse?_of_encodes⟩

/-- A program that prints a text with a quote, a backslash and a line break. -/
def shout : Program where
  decls := [.func {
    name := "main", ret := .int, params := []
    body := [
      .expr (.call ⟨.void, ⟨1, 2⟩⟩ "println" [.strLit ⟨.string, {}⟩ "\"\\\n\x00é😀"]),
      .giveBack (some (.intLit ⟨.int, {}⟩ (-9223372036854775808))) {}] }]

/-- An encoding of `shout` with what may be left out left out, and with members that mean nothing. -/
def shoutBrief : Json :=
  .obj [("version", .real "0.5"), ("decls", .arr [.obj [("Func", .obj [
    ("body", .arr [
      .obj [("Expr", .obj [
        ("kind", .obj [("Call", .obj [("name", .str "println"), ("args", .arr [.obj [
          ("kind", .obj [("StrLit", .str "\"\\\n\x00é😀")]), ("ty", .str "String"),
          ("width", .int 5)]])])]),
        ("loc", .obj [("line", .int 1), ("end", .null), ("column", .int 2)]),
        ("ty", .str "Void")])],
      .obj [("Return", .obj [("value", .obj [("ty", .str "Int"),
        ("kind", .obj [("IntLit", .int (-9223372036854775808))])])])]]),
    ("params", .arr []), ("doc", .unreadable), ("ret", .str "Int"), ("name", .str "main")])]])]

theorem encoding_reads_back_shout : shout.Encodes shoutBrief ∧ shoutBrief.Proper ∧
    Program.parse? shout.render = some shout ∧ Program.parse? shoutBrief.render = some shout := by
  have hencodes : shout.Encodes shoutBrief := by
    simp [shout, shoutBrief, Program.Encodes, Decl.Encodes, FuncDecl.Encodes, Stmt.Encodes,
      Expr.Encodes, Expr.EncodeAll, Info.Encodes, Location.Encodes, Location.field, Record, Field.In,
      Field.needed, Field.part, Listed, Tagged, Ty.toJson]
  have hproper : shoutBrief.Proper := by
    have hhalf : RealText ['0', '.', '5'] :=
      ⟨false, ['0'], ['.', '5'], [],
        ⟨⟨List.cons_ne_nil _ _, List.forall_mem_singleton.2 rfl⟩, fun _ => rfl⟩,
        .inr ⟨['5'], ⟨List.cons_ne_nil _ _, List.forall_mem_singleton.2 rfl⟩, rfl⟩, .inl rfl,
        fun h => absurd h (List.cons_ne_nil _ _), rfl⟩
    simp [shoutBrief, Proper, ItemsProper, MembersProper, hhalf]
  obtain ⟨-, hwritten, hread⟩ := encoding_reads_back shout
  exact ⟨hencodes, hproper, hwritten, hread shoutBrief hencodes hproper⟩

end Tree

end MxStar
