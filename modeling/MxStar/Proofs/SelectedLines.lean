import MxStar.Asm.Frame
import MxStar.Proofs.FlowGraph
import MxStar.Proofs.LineRewrites
import MxStar.Proofs.Results

/-!
The lines that selection gives.

Blocks have different labels (`blockLabel_injective`), and none of them is the label of the epilogue. Operands
are copied to the destination first where the machine needs them there (`Copies`).
-/
namespace MxStar.Asm

open List

open IR (Func BlockId Word Operand)

variable {dst lhs rhs src : Operand} {lines : List Line} {next : Option BlockId} {op : ShiftOp}

/-! ## Labels -/

theorem toList_repr (n : Nat) : n.repr.toList = Nat.toDigits 10 n := by
  rw [Nat.repr, String.toList_ofList]

theorem toList_blockLabel (f : Func) (b : BlockId) :
    (blockLabel f b).toList = ['.', 'b', 'b'] ++ (Nat.toDigits 10 b ++
      '_' :: (Text.symbol (f.block b).name).toList) := by
  rw [blockLabel, String.toList_append, String.toList_append, String.toList_append, toList_repr,
    append_assoc, append_assoc]
  rfl

/-- Numbers with the same digits before the first character that is none are the same. -/
theorem eq_of_toDigits_append {m n : Nat} {x y : List Char} (hx : x.takeWhile Char.isDigit = [])
    (hy : y.takeWhile Char.isDigit = [])
    (h : Nat.toDigits 10 m ++ x = Nat.toDigits 10 n ++ y) : m = n := by
  have hdigits : ∀ (n : Nat) {rest : List Char}, rest.takeWhile Char.isDigit = [] →
      (Nat.toDigits 10 n ++ rest).takeWhile Char.isDigit = Nat.toDigits 10 n := by
    intro n rest hrest
    have hall : ∀ c ∈ Nat.toDigits 10 n, c.isDigit = true := fun c hc =>
      Nat.isDigit_of_mem_toDigits (by decide) (by decide) hc
    rw [takeWhile_append_of_pos hall, hrest, append_nil]
  have hsame := congrArg (List.takeWhile Char.isDigit) h
  rw [hdigits m hx, hdigits n hy] at hsame
  calc m = Nat.ofDigitChars 10 (Nat.toDigits 10 m) 0 := Nat.ofDigitChars_ten_toDigits.symm
    _ = Nat.ofDigitChars 10 (Nat.toDigits 10 n) 0 := by rw [hsame]
    _ = n := Nat.ofDigitChars_ten_toDigits

theorem blockLabel_injective {f : Func} {b c : BlockId} (h : blockLabel f b = blockLabel f c) :
    b = c := by
  have hlist := congrArg String.toList h
  rw [toList_blockLabel, toList_blockLabel, append_cancel_left_eq] at hlist
  exact eq_of_toDigits_append (takeWhile_cons_of_neg (by decide))
    (takeWhile_cons_of_neg (by decide)) hlist

theorem blockLabel_ne_epilogueLabel (f : Func) (b : BlockId) : blockLabel f b ≠ epilogueLabel := by
  intro h
  have hlist := congrArg String.toList h
  rw [toList_blockLabel] at hlist
  have hsecond : some 'b' = some 'e' := congrArg (·[1]?) hlist
  exact absurd hsecond (by decide)

/-! ## Lines of an instruction -/

theorem selectReg_eq_ok {o : Operand} {r : IR.PhysReg} (h : selectReg o = .ok r) : o = .phys r := by
  cases o with
  | phys p => exact congrArg Operand.phys (Except.ok.inj h)
  | _ => cases h

/-- The lines that bring an operand to a destination, unless it is there. -/
def Copies (d : IR.PhysReg) (dst src : Operand) (copy : List Line) : Prop :=
  (src = dst ∧ copy = []) ∨
    (src ≠ dst ∧ ∃ a, selectArg src = .ok a ∧ copy = [plain (.mov (.reg d) a)])

/-- The count of a shift as the machine takes it. -/
def ShiftCount : Operand → Option Nat → Prop
  | .imm k, count => count = some (k &&& 63).toNatClampNeg
  | .phys r, count => r = .rcx ∧ count = none
  | _, _ => False

/-- The lines of a shift by an operand, after those that copy the left operand. -/
def shiftBy (op : ShiftOp) (d : IR.PhysReg) (copy : List Line) :
    Operand → Except CompileError (List Line)
  | .imm k => pure (copy ++ [plain (.shift op d (some (k &&& 63).toNatClampNeg))])
  | .phys .rcx => pure (copy ++ [plain (.shift op d none)])
  | v => .error (.fault (.unallocated v))

theorem shiftBy_eq_ok {d : IR.PhysReg} {copy : List Line} (h : shiftBy op d copy rhs = .ok lines) :
    ∃ count, ShiftCount rhs count ∧ lines = copy ++ [plain (.shift op d count)] := by
  cases rhs with
  | imm k => exact ⟨_, rfl, (Except.ok.inj h).symm⟩
  | phys r =>
    cases r with
    | rcx => exact ⟨_, ⟨rfl, rfl⟩, (Except.ok.inj h).symm⟩
    | _ => cases h
  | vreg v => cases h
  | static s => cases h

theorem selectShift_eq_ok (h : selectShift op dst lhs rhs = .ok lines) :
    ∃ d copy count, selectReg dst = .ok d ∧
      Copies d dst lhs copy ∧ ShiftCount rhs count ∧ lines = copy ++ [plain (.shift op d count)] := by
  obtain ⟨d, hd, h⟩ := Except.bind_eq_ok.1 h
  dsimp only at h
  split at h
  · next heq =>
    have h : shiftBy op d [] rhs = .ok lines := h
    obtain ⟨count, hshift, hlines⟩ := shiftBy_eq_ok h
    exact ⟨d, [], count, hd, .inl ⟨heq, rfl⟩, hshift, hlines⟩
  · next hne =>
    obtain ⟨a, ha, h⟩ := Except.bind_eq_ok.1 h
    have h : shiftBy op d [plain (.mov (.reg d) a)] rhs = .ok lines := h
    obtain ⟨count, hshift, hlines⟩ := shiftBy_eq_ok h
    exact ⟨d, _, count, hd, .inr ⟨hne, a, ha, rfl⟩, hshift, hlines⟩

/-- The machine's operation for one with one operand. -/
def unaryInstr (op : IR.UnOp) (d : IR.PhysReg) : Instr :=
  match op with
  | .neg => .neg d
  | .not => .not d

theorem selectUnary_eq_ok {op : IR.UnOp} (h : selectUnary dst op src = .ok lines) :
    ∃ d copy, selectReg dst = .ok d ∧
      Copies d dst src copy ∧ lines = copy ++ [plain (unaryInstr op d)] := by
  obtain ⟨d, hd, h⟩ := Except.bind_eq_ok.1 h
  dsimp only at h
  split at h
  · next heq =>
    cases h
    exact ⟨d, [], hd, .inl ⟨heq, rfl⟩, rfl⟩
  · next hne =>
    obtain ⟨a, ha, h⟩ := Except.bind_eq_ok.1 h
    cases h
    exact ⟨d, _, hd, .inr ⟨hne, a, ha, rfl⟩, rfl⟩

/-! ## Lines of blocks -/

theorem instrsOf_append (lines rest : List Line) :
    instrsOf (lines ++ rest) = instrsOf lines ++ instrsOf rest := filterMap_append

theorem mem_instrsOf {i : Instr} : i ∈ instrsOf lines ↔ ∃ comment, .instr i comment ∈ lines := by
  constructor
  · intro h
    obtain ⟨a, ha, hi⟩ := mem_filterMap.1 h
    cases a with
    | label => cases hi
    | instr j comment =>
      cases hi
      exact ⟨comment, ha⟩
  · exact fun ⟨comment, h⟩ => mem_filterMap.2 ⟨_, h, rfl⟩

end MxStar.Asm
