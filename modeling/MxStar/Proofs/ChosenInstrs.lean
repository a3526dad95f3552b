import MxStar.Proofs.SelectedLines

/-!
The machine instructions that selection chooses.

`Chosen syms f i j` lists, with all their operands, the machine instructions `j` that may be selected for
an instruction `i` of an allocated function. What holds of all that is chosen holds of the whole body
(`selectBlocks_spec`), and later modules look at this list alone.
-/
namespace MxStar.Asm

open List

open IR (Func BlockId Operand PhysReg)

variable {dst lhs rhs : Operand} {next : Option BlockId} {lines : List Line} {op : IR.BinOp}

/-- The machine instructions that may be selected for an instruction. A register that is written is
the destination of the instruction. -/
inductive Chosen (syms : Symbols) (f : Func) : IR.Instr → Instr → Prop
  | copy {i : IR.Instr} {d : PhysReg} {o : Operand} {a : Arg} (hd : i.dst? = some (.phys d))
      (ho : o ∈ i.sources) (ha : selectArg o = .ok a) : Chosen syms f i (.mov (.reg d) a)
  | address {d : PhysReg} {s : IR.StaticId} {label : String} (hs : syms.static s = .ok label) :
      Chosen syms f (.move (.phys d) (.static s)) (.lea d (.label label))
  | alu {d : PhysReg} {op : IR.BinOp} {alu : AluOp} {lhs rhs o : Operand} {a : Arg}
      (hop : op ≠ .div ∧ op ≠ .mod ∧ op ≠ .shl ∧ op ≠ .shr) (ho : o = lhs ∨ o = rhs)
      (ha : selectArg o = .ok a) : Chosen syms f (.binary (.phys d) op lhs rhs) (.alu alu d a)
  | neg {i : IR.Instr} {d : PhysReg} (hd : i.dst? = some (.phys d)) : Chosen syms f i (.neg d)
  | not {d : PhysReg} {op : IR.UnOp} {src : Operand} :
      Chosen syms f (.unary (.phys d) op src) (.not d)
  | cqo {dst lhs rhs : Operand} {op : IR.BinOp} (hop : op = .div ∨ op = .mod) :
      Chosen syms f (.binary dst op lhs rhs) .cqo
  | idiv {dst lhs : Operand} {op : IR.BinOp} {r : PhysReg} (hop : op = .div ∨ op = .mod) :
      Chosen syms f (.binary dst op lhs (.phys r)) (.idiv r)
  | shift {d : PhysReg} {op : IR.BinOp} {sop : ShiftOp} {lhs rhs : Operand} {count : Option Nat}
      (hcount : ShiftCount rhs count) :
      Chosen syms f (.binary (.phys d) op lhs rhs) (.shift sop d count)
  | compare {dst rhs : Operand} {cond : IR.CmpOp} {l : PhysReg} {a : Arg}
      (ha : selectArg rhs = .ok a) : Chosen syms f (.compare dst cond (.phys l) rhs) (.cmp l a)
  | set {d : PhysReg} {lhs rhs : Operand} {cond : IR.CmpOp} :
      Chosen syms f (.compare (.phys d) cond lhs rhs) (.set cond d)
  | movzx {d : PhysReg} {lhs rhs : Operand} {cond : IR.CmpOp} :
      Chosen syms f (.compare (.phys d) cond lhs rhs) (.movzx d d)
  | load {d : PhysReg} {addr : IR.Address} {m : Mem} (hm : selectMem syms addr = .ok m) :
      Chosen syms f (.load (.phys d) addr) (.mov (.reg d) (.mem m))
  | store {addr : IR.Address} {src : Operand} {m : Mem} {a : Arg} (hm : selectMem syms addr = .ok m)
      (ha : selectArg src = .ok a) : Chosen syms f (.store addr src) (.mov (.mem m) a)
  | call {dst : Option Operand} {callee : IR.Callee} {args : List Operand} {n : Nat} {target : String}
      (htarget : syms.callee callee = .ok target) :
      Chosen syms f (.call dst callee args n) (.call target)
  | release {dst : Option Operand} {callee : IR.Callee} {args : List Operand} {n : Nat} (hn : n ≠ 0) :
      Chosen syms f (.call dst callee args n) (.alu .add .rsp (.imm (Int64.ofNat n * 8)))
  | push {src : Operand} {a : Arg} (ha : selectArg src = .ok a) : Chosen syms f (.push src) (.push a)
  | jump {t : BlockId} : Chosen syms f (.jump t) (.jmp (blockLabel f t))
  | test {rhs : Operand} {cond : IR.CmpOp} {t e : BlockId} {l : PhysReg} {a : Arg}
      (ha : selectArg rhs = .ok a) : Chosen syms f (.branch cond (.phys l) rhs t e) (.cmp l a)
  | taken {lhs rhs : Operand} {cond c : IR.CmpOp} {t e b : BlockId} (hb : b = t ∨ b = e) :
      Chosen syms f (.branch cond lhs rhs t e) (.jcc c (blockLabel f b))
  | other {lhs rhs : Operand} {cond : IR.CmpOp} {t e b : BlockId} (hb : b = t ∨ b = e) :
      Chosen syms f (.branch cond lhs rhs t e) (.jmp (blockLabel f b))
  | leave {v : Option Operand} : Chosen syms f (.ret v) (.jmp epilogueLabel)

section Lines

variable {syms : Symbols} {f : Func} {i : IR.Instr} {lines : List Line}

def ChosenLines (syms : Symbols) (f : Func) (i : IR.Instr) (lines : List Line) : Prop :=
  ∀ a ∈ lines, ∃ j comment, a = .instr j comment ∧ Chosen syms f i j

theorem chosenLines_nil : ChosenLines syms f i [] := fun _ ha => nomatch ha

theorem chosenLines_cons {j : Instr} {comment : Option String} (hj : Chosen syms f i j)
    (h : ChosenLines syms f i lines) : ChosenLines syms f i (.instr j comment :: lines) := by
  intro a ha
  rcases mem_cons.1 ha with rfl | ha
  · exact ⟨j, comment, rfl, hj⟩
  · exact h a ha

theorem chosenLines_one {j : Instr} {comment : Option String} (hj : Chosen syms f i j) :
    ChosenLines syms f i [.instr j comment] := chosenLines_cons hj chosenLines_nil

theorem Copies.chosen {d : PhysReg} {src : Operand} {copy : List Line} (h : Copies d dst src copy)
    (hd : i.dst? = some (.phys d)) (hsrc : src ∈ i.sources) {rest : List Line}
    (hrest : ChosenLines syms f i rest) : ChosenLines syms f i (copy ++ rest) := by
  obtain ⟨-, rfl⟩ | ⟨-, a, ha, rfl⟩ := h
  · exact hrest
  · exact chosenLines_cons (.copy hd hsrc ha) hrest

theorem chosen_move {src : Operand} (h : selectMove syms dst src = .ok lines) :
    ChosenLines syms f (.move dst src) lines := by
  obtain ⟨d, hd, hsrc⟩ := Except.bind_eq_ok.1 h
  obtain rfl := selectReg_eq_ok hd
  split at hsrc
  · obtain ⟨label, hlabel, h⟩ := Except.bind_eq_ok.1 hsrc
    cases h
    exact chosenLines_one (.address hlabel)
  · obtain ⟨a, ha, h⟩ := Except.bind_eq_ok.1 hsrc
    cases h
    exact chosenLines_one (.copy rfl mem_cons_self ha)

theorem chosen_shift {sop : ShiftOp} (h : selectShift sop dst lhs rhs = .ok lines) :
    ChosenLines syms f (.binary dst op lhs rhs) lines := by
  obtain ⟨d, copy, count, hd, hcopy, hcount, rfl⟩ := selectShift_eq_ok h
  obtain rfl := selectReg_eq_ok hd
  exact hcopy.chosen rfl mem_cons_self (chosenLines_one (.shift hcount))

theorem chosen_alu {alu : AluOp} (hop : op ≠ .div ∧ op ≠ .mod ∧ op ≠ .shl ∧ op ≠ .shr)
    (h : selectAlu op alu dst lhs rhs = .ok lines) :
    ChosenLines syms f (.binary dst op lhs rhs) lines := by
  obtain ⟨d, hd, hform⟩ := Except.bind_eq_ok.1 h
  obtain rfl := selectReg_eq_ok hd
  split at hform
  · obtain ⟨r, hr, h⟩ := Except.bind_eq_ok.1 hform
    cases h
    exact chosenLines_one (.alu hop (.inr rfl) hr)
  split at hform
  · obtain ⟨l, hl, h⟩ := Except.bind_eq_ok.1 hform
    cases h
    exact chosenLines_one (.alu hop (.inl rfl) hl)
  split at hform
  · obtain ⟨l, hl, h⟩ := Except.bind_eq_ok.1 hform
    cases h
    exact chosenLines_cons (.neg rfl) (chosenLines_one (.alu hop (.inl rfl) hl))
  · obtain ⟨l, hl, hright⟩ := Except.bind_eq_ok.1 hform
    obtain ⟨r, hr, h⟩ := Except.bind_eq_ok.1 hright
    cases h
    exact chosenLines_cons (.copy rfl mem_cons_self hl)
      (chosenLines_one (.alu hop (.inr rfl) hr))

theorem chosen_binary (h : selectBinary dst op lhs rhs = .ok lines) :
    ChosenLines syms f (.binary dst op lhs rhs) lines := by
  have hdivide : op = .div ∨ op = .mod →
      (do return [plain .cqo, plain (.idiv (← selectReg rhs))] : Except CompileError (List Line)) =
        .ok lines → ChosenLines syms f (.binary dst op lhs rhs) lines := by
    intro hop h
    obtain ⟨r, hr, h⟩ := Except.bind_eq_ok.1 h
    obtain rfl := selectReg_eq_ok hr
    cases h
    exact chosenLines_cons (.cqo hop) (chosenLines_one (.idiv hop))
  cases op with
  | div => exact hdivide (.inl rfl) h
  | mod => exact hdivide (.inr rfl) h
  | shl | shr => exact chosen_shift h
  | _ => exact chosen_alu (by decide) h

theorem chosen_branch {cond : IR.CmpOp} {t e : BlockId}
    (h : selectBranch f next cond lhs rhs t e = .ok lines) :
    ChosenLines syms f (.branch cond lhs rhs t e) lines := by
  obtain ⟨l, hl, hright⟩ := Except.bind_eq_ok.1 h
  obtain ⟨r, hr, hlines⟩ := Except.bind_eq_ok.1 hright
  obtain rfl := selectReg_eq_ok hl
  by_cases hnext : next = some t
  · rw [if_pos hnext] at hlines
    rw [← Except.ok.inj hlines]
    exact chosenLines_cons (.test hr)
      (chosenLines_cons (.taken (.inr rfl)) (chosenLines_one (.other (.inl rfl))))
  · rw [if_neg hnext] at hlines
    rw [← Except.ok.inj hlines]
    exact chosenLines_cons (.test hr)
      (chosenLines_cons (.taken (.inl rfl)) (chosenLines_one (.other (.inr rfl))))

/-- **Selection gives what is listed.** -/
theorem chosen_selectInstr (h : selectInstr syms f next i = .ok lines) :
    ChosenLines syms f i lines := by
  cases i with
  | move => exact chosen_move h
  | binary => exact chosen_binary h
  | branch => exact chosen_branch h
  | unary dst op src =>
    obtain ⟨d, copy, hd, hcopy, rfl⟩ := selectUnary_eq_ok h
    obtain rfl := selectReg_eq_ok hd
    refine hcopy.chosen rfl mem_cons_self (chosenLines_one ?_)
    cases op with
    | neg => exact .neg rfl
    | not => exact .not
  | compare dst cond lhs rhs =>
    obtain ⟨d, hd, hleft⟩ := Except.bind_eq_ok.1 h
    obtain ⟨l, hl, hright⟩ := Except.bind_eq_ok.1 hleft
    obtain ⟨r, hr, hlines⟩ := Except.bind_eq_ok.1 hright
    obtain rfl := selectReg_eq_ok hd
    obtain rfl := selectReg_eq_ok hl
    cases hlines
    exact chosenLines_cons (.compare hr) (chosenLines_cons .set (chosenLines_one .movzx))
  | load dst addr =>
    obtain ⟨d, hd, hsrc⟩ := Except.bind_eq_ok.1 h
    obtain ⟨m, hm, hlines⟩ := Except.bind_eq_ok.1 hsrc
    obtain rfl := selectReg_eq_ok hd
    cases hlines
    exact chosenLines_one (.load hm)
  | store addr src =>
    obtain ⟨m, hm, h⟩ := Except.bind_eq_ok.1 h
    obtain ⟨a, ha, h⟩ := Except.bind_eq_ok.1 h
    cases h
    exact chosenLines_one (.store hm ha)
  | call dst callee args n =>
    obtain ⟨target, htarget, h⟩ := Except.bind_eq_ok.1 h
    cases h
    refine chosenLines_cons (.call htarget) ?_
    split
    · exact chosenLines_nil
    · next hn => exact chosenLines_one (.release hn)
  | push src =>
    obtain ⟨a, ha, h⟩ := Except.bind_eq_ok.1 h
    cases h
    exact chosenLines_one (.push ha)
  | jump t =>
    cases h
    exact chosenLines_one .jump
  | ret v =>
    cases h
    exact chosenLines_one .leave

end Lines

/-! ## Bodies -/

section Bodies

variable {syms : Symbols} {f : Func}

theorem selectCode_spec {code : List IR.Instr} (h : selectCode syms f next code = .ok lines) :
    (∀ a ∈ lines, ∃ j comment, a = .instr j comment ∧ ∃ i ∈ code, Chosen syms f i j) ∧
    ∀ i ∈ code, ∃ first, selectInstr syms f next i = .ok first ∧ ∀ a ∈ first, a ∈ lines := by
  induction code generalizing lines with
  | nil =>
    cases h
    exact ⟨by simp, by simp⟩
  | cons i code ih =>
    obtain ⟨first, hfirst, h⟩ := Except.bind_eq_ok.1 h
    obtain ⟨rest, hrest, h⟩ := Except.bind_eq_ok.1 h
    cases h
    obtain ⟨hlines, hparts⟩ := ih hrest
    refine ⟨forall_mem_append.2 ⟨fun a ha => ?_, fun a ha => ?_⟩,
      forall_mem_cons.2 ⟨⟨first, hfirst, fun a ha => mem_append_left _ ha⟩, fun k hk => ?_⟩⟩
    · obtain ⟨j, comment, heq, hj⟩ := chosen_selectInstr hfirst a ha
      exact ⟨j, comment, heq, i, mem_cons_self, hj⟩
    · obtain ⟨j, comment, heq, k, hk, hj⟩ := hlines a ha
      exact ⟨j, comment, heq, k, mem_cons_of_mem _ hk, hj⟩
    · obtain ⟨part, hpart, hall⟩ := hparts k hk
      exact ⟨part, hpart, fun a ha => mem_append_right _ (hall a ha)⟩

/-- The labels of a body are those of some of its blocks, in order, and its instructions are chosen for
those of the blocks, each of which gives some. -/
theorem selectBlocks_spec {layout : List BlockId} (h : selectBlocks syms f layout = .ok lines) :
    (lines.filterMap Line.label?).Sublist (layout.map (blockLabel f)) ∧
    (∀ j ∈ instrsOf lines, ∃ b ∈ layout, ∃ i ∈ f.code b, Chosen syms f i j) ∧
    ∀ b ∈ layout, ∀ i ∈ f.code b,
      ∃ next first, selectInstr syms f next i = .ok first ∧ ∀ a ∈ first, a ∈ lines := by
  induction layout generalizing lines with
  | nil =>
    cases h
    exact ⟨List.Sublist.refl _, by simp [instrsOf], by simp⟩
  | cons b layout ih =>
    obtain ⟨code, hcode, h⟩ := Except.bind_eq_ok.1 h
    obtain ⟨rest, hrest, h⟩ := Except.bind_eq_ok.1 h
    cases h
    obtain ⟨hlabels, hinstrs, hparts⟩ := ih hrest
    obtain ⟨hlines, hfirst⟩ := selectCode_spec hcode
    refine ⟨?_, fun j hj => ?_, forall_mem_cons.2 ⟨fun i hi => ?_, fun c hc i hi => ?_⟩⟩
    · have hnone : code.filterMap Line.label? = [] := by
        rw [filterMap_eq_nil_iff]
        intro a ha
        obtain ⟨j, comment, rfl, -⟩ := hlines a ha
        rfl
      rw [filterMap_append, filterMap_append, hnone, append_nil, map_cons, labelLine]
      split
      · exact hlabels.cons _
      · exact hlabels.cons_cons _
    · rw [instrsOf_append, instrsOf_append, mem_append, mem_append] at hj
      rcases hj with (hj | hj) | hj
      · rw [labelLine] at hj
        split at hj <;> cases hj
      · obtain ⟨comment, hj⟩ := mem_instrsOf.1 hj
        obtain ⟨j, _, ⟨⟩, i, hi, hchosen⟩ := hlines _ hj
        exact ⟨b, mem_cons_self, i, hi, hchosen⟩
      · obtain ⟨c, hc, found⟩ := hinstrs j hj
        exact ⟨c, mem_cons_of_mem _ hc, found⟩
    · obtain ⟨first, hfirst, hall⟩ := hfirst i hi
      exact ⟨_, first, hfirst, fun a ha => mem_append_left _ (mem_append_right _ (hall a ha))⟩
    · obtain ⟨next, first, hfirst, hall⟩ := hparts c hc i hi
      exact ⟨next, first, hfirst, fun a ha => mem_append_right _ (hall a ha)⟩

variable {layout : List BlockId} (h : selectBlocks syms f layout = .ok lines)

include h

theorem exists_chosen {j : Instr} (hj : j ∈ instrsOf lines) :
    ∃ b ∈ layout, ∃ i ∈ f.code b, Chosen syms f i j :=
  (selectBlocks_spec h).2.1 j hj

variable {b : BlockId} (hb : b ∈ layout) {i : IR.Instr} (hi : i ∈ f.code b)

include hb hi

theorem mem_body_of_selectInstr :
    ∃ next first, selectInstr syms f next i = .ok first ∧ ∀ a ∈ first, a ∈ lines :=
  (selectBlocks_spec h).2.2 b hb i hi

theorem exists_call_of_isCall (hcall : i.isCall = true) : ∃ target, .call target ∈ instrsOf lines := by
  obtain ⟨next, first, hfirst, hall⟩ := mem_body_of_selectInstr h hb hi
  cases i with
  | call =>
    obtain ⟨target, _, hfirst⟩ := Except.bind_eq_ok.1 hfirst
    cases hfirst
    exact ⟨target, mem_instrsOf.2 ⟨none, hall _ mem_cons_self⟩⟩
  | _ => cases hcall

end Bodies

end MxStar.Asm
