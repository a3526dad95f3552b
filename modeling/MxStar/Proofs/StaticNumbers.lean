import MxStar.Proofs.DistinctSymbols

/-!
New numbers for statics.

String literals with the same text are made one (`canonical_eq_iff`), and what is left is numbered without
gaps (`getElem?_kept`). Both are renamings, and two renamings in a row are one (`mapStatics_mapStatics`).
-/
namespace MxStar.IR

def Program.RefersTo (p : Program) (s : StaticId) : Prop :=
  ∃ f ∈ p.functions, ∃ i ∈ f.allInstrs, s ∈ i.statics

/-- The program `q` is `p` with new numbers for the statics. Statics that become one are string literals
with the same text, and those that nothing refers to are gone. -/
structure Renumbers (p q : Program) (number : StaticId → StaticId) : Prop where
  functions : q.functions = p.functions.map (·.mapInstrs (·.mapStatics number))
  entry : q.entry = p.entry
  inits : ∀ s, p.RefersTo s → ∃ old new, p.statics[s]? = some old ∧ q.statics[number s]? = some new ∧
    new.init = old.init
  merged : ∀ s t, p.RefersTo s → p.RefersTo t → (number s = number t ↔ s = t ∨
    ∃ text, (p.statics[s]?).map Static.init = some (.text text) ∧
      (p.statics[t]?).map Static.init = some (.text text))
  referenced : ∀ k, k < q.statics.size → q.RefersTo k

/-! ## References -/

def Operand.static? : Operand → Option StaticId
  | .static s => some s
  | _ => none

theorem Instr.statics_eq (i : Instr) :
    i.statics = i.staticAccess?.toList ++ i.operands.filterMap Operand.static? := by
  refine congrArg (i.staticAccess?.toList ++ ·) (List.filterMap_congr fun o _ => ?_)
  cases o <;> rfl

/-- Renaming changes the static that is accessed and those among the operands, and nothing is missed. -/
theorem Instr.mapStatics_parts (g : StaticId → StaticId) (i : Instr) :
    (i.mapStatics g).staticAccess? = i.staticAccess?.map g ∧
      (i.mapStatics g).operands = i.operands.map (Instr.renameOperand g) := by
  cases i with
  | load dst a | store a src => cases a <;> exact ⟨rfl, rfl⟩
  | call dst callee args n => cases dst <;> exact ⟨rfl, rfl⟩
  | ret v => cases v <;> exact ⟨rfl, rfl⟩
  | _ => exact ⟨rfl, rfl⟩

/-- A renamed instruction refers to the new numbers of what it referred to, in the same order. -/
theorem Instr.statics_mapStatics (g : StaticId → StaticId) (i : Instr) :
    (i.mapStatics g).statics = i.statics.map g := by
  have hop : ∀ o : Operand, (renameOperand g o).static? = o.static?.map g := by
    intro o
    cases o <;> rfl
  obtain ⟨haccess, hoperands⟩ := i.mapStatics_parts g
  rw [statics_eq, statics_eq, haccess, hoperands, List.map_append, List.filterMap_map,
    List.map_filterMap]
  refine congrArg₂ (· ++ ·) ?_ (List.filterMap_congr fun o _ => hop o)
  cases i.staticAccess? <;> rfl

theorem Instr.mapStatics_mapStatics (g h : StaticId → StaticId) (i : Instr) :
    (i.mapStatics g).mapStatics h = i.mapStatics (h ∘ g) := by
  have hop : ∀ o : Operand, renameOperand h (renameOperand g o) = renameOperand (h ∘ g) o := by
    intro o
    cases o <;> rfl
  cases i with
  | load dst a | store a src => cases a <;> simp [mapStatics, mapOperands, Address.mapOperands, hop]
  | _ => simp [mapStatics, mapOperands, hop, Function.comp_def]

end MxStar.IR

namespace MxStar.Pass

open IR List

variable {d : Static}

theorem refersTo_renameStatics {p : Program} {g : StaticId → StaticId} {t : StaticId} :
    (renameStatics p g).RefersTo t ↔ ∃ s, p.RefersTo s ∧ g s = t := by
  have hcode : ∀ f : Func, (f.mapInstrs (·.mapStatics g)).allInstrs =
      f.allInstrs.map (·.mapStatics g) := by
    intro f
    simp [Func.allInstrs, Func.mapInstrs, map_flatMap, flatMap_map]
  constructor
  · rintro ⟨f', hf', i', hi', ht⟩
    obtain ⟨f, hf, rfl⟩ := Array.mem_map.1 hf'
    rw [hcode] at hi'
    obtain ⟨i, hi, rfl⟩ := mem_map.1 hi'
    rw [Instr.statics_mapStatics] at ht
    obtain ⟨s, hs, rfl⟩ := mem_map.1 ht
    exact ⟨s, ⟨f, hf, i, hi, hs⟩, rfl⟩
  · rintro ⟨s, ⟨f, hf, i, hi, hs⟩, rfl⟩
    refine ⟨_, Array.mem_map_of_mem hf, i.mapStatics g, ?_, ?_⟩
    · rw [hcode]
      exact mem_map_of_mem hi
    · rw [Instr.statics_mapStatics]
      exact mem_map_of_mem hs

theorem functions_renameStatics_twice (p : Program) (g h : StaticId → StaticId) :
    (renameStatics (renameStatics p g) h).functions =
      p.functions.map (·.mapInstrs (·.mapStatics (h ∘ g))) := by
  simp [renameStatics, Program.mapFunctions, Func.mapInstrs, Function.comp_def,
    Instr.mapStatics_mapStatics]

/-! ## Literals with the same text -/

section Canonical

variable {statics : Array Static} {s t : StaticId}

theorem canonical_of_text {text : String} (hs : statics[s]? = some d)
    (htext : d.init = .text text) :
    (statics.findIdx? fun d => d.init = .text text) = some (canonical statics s) := by
  obtain ⟨name, init, label⟩ := d
  cases htext
  obtain ⟨hlt, hget⟩ := Array.getElem?_eq_some_iff.1 hs
  have hfound : (statics.findIdx? fun d => d.init = .text text).isSome := by
    rw [Array.findIdx?_isSome, Array.any_eq_true]
    exact ⟨s, hlt, by simp [hget]⟩
  obtain ⟨k, hk⟩ := Option.isSome_iff_exists.1 hfound
  have hcanonical : canonical statics s = k := by simp [canonical, hs, hk]
  rw [hcanonical, hk]

theorem canonical_of_word (hs : statics[s]? = some d) (hword : d.init = .word) :
    canonical statics s = s := by
  obtain ⟨name, init, label⟩ := d
  cases hword
  simp [canonical, hs]

/-- What stands for a static holds the same. -/
theorem canonical_init (hs : statics[s]? = some d) :
    ∃ d', statics[canonical statics s]? = some d' ∧ d'.init = d.init := by
  cases hinit : d.init with
  | word =>
    rw [canonical_of_word hs hinit]
    exact ⟨d, hs, hinit⟩
  | text text =>
    obtain ⟨hlt, hget, -⟩ :=
      Array.findIdx?_eq_some_iff_getElem.1 (canonical_of_text hs hinit)
    exact ⟨_, Array.getElem?_eq_getElem hlt, of_decide_eq_true hget⟩

/-- Statics have the same one standing for them only if they are literals with the same text. -/
theorem canonical_eq_iff {e : Static} (hs : statics[s]? = some d) (ht : statics[t]? = some e) :
    canonical statics s = canonical statics t ↔
      s = t ∨ ∃ text, d.init = .text text ∧ e.init = .text text := by
  constructor
  · intro heq
    obtain ⟨d', hd', hinit⟩ := canonical_init hs
    obtain ⟨e', he', hinit'⟩ := canonical_init ht
    rw [heq, he'] at hd'
    cases hd'
    cases hd : d.init with
    | word =>
      refine .inl ?_
      rw [← canonical_of_word hs hd, ← canonical_of_word ht (hinit'.symm.trans (hinit.trans hd)), heq]
    | text text => exact .inr ⟨text, rfl, hinit'.symm.trans (hinit.trans hd)⟩
  · rintro (rfl | ⟨text, hd, he⟩)
    · rfl
    · exact Option.some.inj ((canonical_of_text hs hd).symm.trans (canonical_of_text ht he))

end Canonical

/-! ## Statics that are kept -/

/-- The table of what is kept has under a new number what the old table has under the old one. -/
theorem getElem?_kept {statics : Array Static} {kept : List StaticId}
    (hkept : ∀ s ∈ kept, s < statics.size) (k : Nat) :
    (kept.filterMap (statics[·]?))[k]? = kept[k]?.bind (statics[·]?) := by
  induction kept generalizing k with
  | nil => rfl
  | cons s rest ih =>
    rw [filterMap_cons_some (Array.getElem?_eq_getElem (hkept s mem_cons_self))]
    cases k with
    | zero => exact (Array.getElem?_eq_getElem (hkept s mem_cons_self)).symm
    | succ k => exact ih (fun t ht => hkept t (mem_cons_of_mem _ ht)) k

/-- The number of a static that is kept is its place among those that are. -/
theorem getElem?_number {kept : List StaticId} {s : StaticId} (hs : s ∈ kept) :
    kept[(kept.idxOf? s).getD s]? = some s := by
  obtain ⟨k, hk⟩ := Option.isSome_iff_exists.1 (isSome_idxOf?.2 hs)
  obtain ⟨hlt, hget, -⟩ := idxOf?_eq_some_iff.1 hk
  rw [hk, Option.getD_some, getElem?_eq_getElem hlt]
  exact congrArg some hget

/-! ## Symbols -/

theorem isSymbolChar_symbol {name : String} {c : Char} (hc : c ∈ (Text.symbol name).toList) :
    Text.isSymbolChar c = true := by
  rw [Text.symbol, String.toList_ofList] at hc
  obtain ⟨c', -, rfl⟩ := mem_map.1 hc
  split
  · assumption
  · rfl

/-- Whatever the name of a static is, its symbol is made of letters, digits and underscores. -/
theorem isSymbolChar_staticLabel (s : Static) (k : StaticId) :
    ∀ c ∈ (staticLabel s k).toList, Text.isSymbolChar c = true := by
  have hdigits : ∀ c ∈ Nat.toDigits 10 k, Text.isSymbolChar c = true := by
    intro c hc
    have hdigit : c.isDigit = true := Nat.isDigit_of_mem_toDigits (by decide) (by decide) hc
    simp [Text.isSymbolChar, Char.isAlphanum, hdigit]
  rw [toList_staticLabel]
  cases s.init with
  | word =>
    refine forall_mem_append.2 ⟨all_eq_true.1 (by decide), ?_⟩
    refine forall_mem_append.2 ⟨all_eq_true.1 (by decide), ?_⟩
    exact forall_mem_append.2
      ⟨hdigits, forall_mem_cons.2 ⟨by decide, fun c => isSymbolChar_symbol⟩⟩
  | text =>
    refine forall_mem_append.2 ⟨all_eq_true.1 (by decide), ?_⟩
    exact forall_mem_append.2 ⟨all_eq_true.1 (by decide), hdigits⟩

/-! ## The layout of statics -/

theorem renumbers_layout {p : Program} (hp : ∀ s, p.RefersTo s → s < p.statics.size) :
    ∃ number, Renumbers p (assignLabels (dropUnreferenced (coalesce p))) number := by
  let kept := (referenced (coalesce p)).toList
  have hkept : ∀ t, t ∈ kept ↔ ∃ s, p.RefersTo s ∧ canonical p.statics s = t := by
    intro t
    exact mem_referenced.trans refersTo_renameStatics
  have hlt : ∀ t ∈ kept, t < p.statics.size := by
    intro t ht
    obtain ⟨s, hs, rfl⟩ := (hkept t).1 ht
    exact canonical_lt (hp s hs)
  let number (s : StaticId) : StaticId := (kept.idxOf? s).getD s
  have hnumber : ∀ s, p.RefersTo s →
      kept[number (canonical p.statics s)]? = some (canonical p.statics s) := by
    intro s hs
    exact getElem?_number ((hkept _).2 ⟨s, hs, rfl⟩)
  have hold : ∀ s, p.RefersTo s → ∃ d, p.statics[s]? = some d := by
    intro s hs
    exact ⟨_, Array.getElem?_eq_getElem (hp s hs)⟩
  have hstatics : ∀ k : Nat, (assignLabels (dropUnreferenced (coalesce p))).statics[k]? =
      (kept[k]?.bind (p.statics[·]?)).map fun d => { d with label := staticLabel d k } := by
    intro k
    rw [← getElem?_kept hlt k]
    simp [assignLabels, dropUnreferenced, renameStatics, Program.mapFunctions, coalesce, kept]
  refine ⟨number ∘ canonical p.statics, {
    functions := functions_renameStatics_twice p (canonical p.statics) number
    entry := rfl
    inits := ?_
    merged := ?_
    referenced := ?_ }⟩
  · intro s hs
    obtain ⟨d, hd⟩ := hold s hs
    obtain ⟨d', hd', hinit⟩ := canonical_init hd
    refine ⟨d, { d' with label := staticLabel d' (number (canonical p.statics s)) }, hd, ?_, hinit⟩
    rw [hstatics, Function.comp_apply, hnumber s hs, Option.bind_some, hd', Option.map_some]
  · intro s t hs ht
    obtain ⟨d, hd⟩ := hold s hs
    obtain ⟨e, he⟩ := hold t ht
    have hinj : number (canonical p.statics s) = number (canonical p.statics t) ↔
        canonical p.statics s = canonical p.statics t := by
      refine ⟨fun h => ?_, congrArg number⟩
      exact Option.some.inj ((hnumber s hs).symm.trans (h ▸ hnumber t ht))
    rw [Function.comp_apply, Function.comp_apply, hinj, canonical_eq_iff hd he, hd, he]
    simp
  · intro k hk
    -- A place in the new table is that of a static that is kept, to which something refers.
    have hget := (hstatics k).symm.trans (Array.getElem?_eq_getElem hk)
    obtain ⟨d, hd, -⟩ := Option.map_eq_some_iff.1 hget
    obtain ⟨t, ht, -⟩ := Option.bind_eq_some_iff.1 hd
    obtain ⟨s, hs, rfl⟩ := (hkept t).1 (mem_of_getElem? ht)
    have hk : k = number (canonical p.statics s) :=
      (getElem?_inj (List.getElem?_eq_some_iff.1 ht).1 (SortedSet.ascending_ofList _).nodup).1
        (ht.trans (hnumber s hs).symm)
    exact refersTo_renameStatics.2 ⟨_, refersTo_renameStatics.2 ⟨s, hs, rfl⟩, hk.symm⟩

/-- **New numbers for statics.** Where every static that a program refers to exists, the layout of
statics replaces each reference by a new number and changes no instruction otherwise. The static with
the new number holds what the old one held, two references become equal only if they were or are to
string literals with the same text, and everything in the new table is referred to. The symbols of the
statics are distinct and made of ASCII letters, digits and underscores. -/
theorem statics_renumbered {p : Program} (hp : ∀ s, p.RefersTo s → s < p.statics.size) :
    let q := assignLabels (dropUnreferenced (coalesce p))
    (∃ number, Renumbers p q number) ∧ (q.statics.toList.map Static.label).Nodup ∧
      ∀ s ∈ q.statics, ∀ c ∈ s.label.toList, c.isAlphanum = true ∨ c = '_' := by
  intro q
  have hlabels : q.statics.toList.map Static.label =
      (dropUnreferenced (coalesce p)).statics.toList.mapIdx fun k s => staticLabel s k := by
    change ((dropUnreferenced (coalesce p)).statics.mapIdx _).toList.map _ = _
    rw [Array.toList_mapIdx, List.mapIdx_eq_zipIdx_map, List.mapIdx_eq_zipIdx_map, List.map_map]
    rfl
  refine ⟨renumbers_layout hp, ?_, ?_⟩
  · rw [hlabels]
    exact nodup_staticLabels _
  · intro s hs c hc
    obtain ⟨k, d, -, rfl⟩ := Array.mem_mapIdx.1 hs
    simpa [Text.isSymbolChar] using isSymbolChar_staticLabel _ _ c hc

/-- A function that counts its calls and gives one of two equal literals. A variable is not used. -/
def greeting : Program where
  functions := #[{
    name := "greet"
    label := "greet"
    blocks := #[
      { name := "entry", instrs := [.load (.vreg 0) (.static 1), .branch .eq (.vreg 0) (.imm 0) 1 2] },
      { name := "first", instrs := [.store (.static 1) (.imm 1), .ret (some (.static 2))] },
      { name := "again", instrs := [.ret (some (.static 3))] }]
    layout := [0, 1, 2]
    hints := #["n"] }]
  statics := #[⟨"unused", .word, ""⟩, ⟨"calls so far", .word, ""⟩, ⟨"str", .text "hello", ""⟩,
    ⟨"str", .text "hello", ""⟩]

theorem statics_renumbered_greeting :
    (∃ q, q = assignLabels (dropUnreferenced (coalesce greeting)) ∧
      q.statics.map Static.label = #["__static_var_0_calls_so_far", "__static_str_1"] ∧
      ∃ number, Renumbers greeting q number ∧ number 1 ≠ number 2 ∧ number 2 = number 3) := by
  have hin : ∀ s, greeting.RefersTo s → s < greeting.statics.size := by
    rintro s ⟨f, hf, i, hi, hs⟩
    have hall : ∀ f ∈ greeting.functions, ∀ i ∈ f.allInstrs, ∀ s ∈ i.statics, s < 4 := by decide
    exact hall f hf i hi s hs
  obtain ⟨⟨number, hnumber⟩, -, -⟩ := statics_renumbered hin
  have hrefers : ∀ s ∈ [1, 2, 3], greeting.RefersTo s := by
    intro s hs
    refine ⟨_, Array.mem_of_getElem? (i := 0) rfl, ?_⟩
    revert s
    decide
  refine ⟨_, rfl, by decide +kernel, number, hnumber, ?_, ?_⟩
  · rw [ne_eq, hnumber.merged 1 2 (hrefers 1 (by decide)) (hrefers 2 (by decide))]
    simp [greeting]
  · rw [hnumber.merged 2 3 (hrefers 2 (by decide)) (hrefers 3 (by decide))]
    exact .inr ⟨"hello", rfl, rfl⟩

end MxStar.Pass
