import MxStar.Proofs.Processor

/-!
The arithmetic of the machine and that of words: the flags of a difference (`holds_ofDifference`), the
division of a word whose sign is extended (`divide_signExtended`), shift counts modulo the word size, and
conditions in the low byte of a register (`withLowByte_and`).
-/
namespace MxStar.Asm

open IR (Word CmpOp BinOp)
open Interp (position position_inj position_ofNat position_lt)

/-! ## Conditions -/

/-- A difference is exact, or off by the number of words. -/
theorem toInt_sub_cases (l r : Word) :
    (l - r).toInt = l.toInt - r.toInt ∨ (l - r).toInt = l.toInt - r.toInt + 2 ^ 64 ∨
      (l - r).toInt = l.toInt - r.toInt - 2 ^ 64 := by
  have hl := l.toInt_lt
  have hl' := l.le_toInt
  have hr := r.toInt_lt
  have hr' := r.le_toInt
  rw [Int64.toInt_sub, Int.bmod_def]
  split <;> omega

theorem sub_eq_zero_iff (l r : Word) : l - r = 0 ↔ l = r := by
  constructor
  · intro h
    rwa [Int64.sub_eq_iff_eq_add, Int64.zero_add] at h
  · intro h
    rw [h, Int64.sub_self]

/-- The sign of a difference is wrong exactly where it overflows. -/
theorem sign_ne_overflow (l r : Word) :
    (decide (l - r < 0) != decide ((l - r).toInt ≠ l.toInt - r.toInt)) = decide (l < r) := by
  have hl := l.toInt_lt
  have hl' := l.le_toInt
  have hr := r.toInt_lt
  have hr' := r.le_toInt
  have hd := (l - r).toInt_lt
  have hd' := (l - r).le_toInt
  have hzero : (0 : Word).toInt = 0 := rfl
  have hcases := toInt_sub_cases l r
  rw [Bool.eq_iff_iff, bne_iff_ne, ne_eq, Bool.eq_iff_iff, decide_eq_true_iff, decide_eq_true_iff,
    decide_eq_true_iff, Int64.lt_iff_toInt_lt, Int64.lt_iff_toInt_lt, hzero]
  omega

theorem holds_ofDifference (l r : Word) (c : CmpOp) :
    (Flags.ofDifference l r).holds c = some (c.eval l r) := by
  have hzero : decide (l - r = 0) = (l == r) := by
    rw [Bool.eq_iff_iff, decide_eq_true_iff, beq_iff_eq]
    exact sub_eq_zero_iff l r
  have hless := sign_ne_overflow l r
  have hge : (decide (l - r < 0) == decide ((l - r).toInt ≠ l.toInt - r.toInt)) =
      decide (r ≤ l) := by
    have hnot : (decide (l - r < 0) == decide ((l - r).toInt ≠ l.toInt - r.toInt)) =
        !(decide (l - r < 0) != decide ((l - r).toInt ≠ l.toInt - r.toInt)) := (Bool.not_not _).symm
    rw [hnot, hless, ← decide_not]
    exact decide_eq_decide.2 Int64.not_lt
  have hle : ((l == r) || decide (l < r)) = decide (l ≤ r) := by
    rw [Bool.eq_iff_iff, Bool.or_eq_true, beq_iff_eq, decide_eq_true_iff, decide_eq_true_iff,
      Int64.lt_iff_toInt_lt, Int64.le_iff_toInt_le, ← Int64.toInt_inj]
    omega
  have hgt : (!(l == r) && decide (r ≤ l)) = decide (r < l) := by
    rw [Bool.eq_iff_iff, Bool.and_eq_true, Bool.not_eq_true', beq_eq_false_iff_ne, ne_eq,
      decide_eq_true_iff, decide_eq_true_iff, Int64.lt_iff_toInt_lt, Int64.le_iff_toInt_le,
      ← Int64.toInt_inj]
    omega
  have hflags : Flags.ofDifference l r = ⟨some (decide (l - r = 0)), some (decide (l - r < 0)),
    some (decide ((l - r).toInt ≠ l.toInt - r.toInt))⟩ := rfl
  rw [hflags, hzero]
  cases c with
  | eq => rfl
  | ne => rfl
  | lt => exact congrArg some hless
  | ge => exact congrArg some hge
  | le =>
    show some ((l == r) || (_ != _)) = some (decide (l ≤ r))
    rw [hless, hle]
  | gt =>
    show some (!(l == r) && (_ == _)) = some (decide (r < l))
    rw [hge, hgt]

theorem eval_negate (c : CmpOp) (l r : Word) : c.negate.eval l r = !c.eval l r := by
  cases c with
  | eq => rfl
  | ne => exact (Bool.not_not _).symm
  | lt =>
    show decide (r ≤ l) = !decide (l < r)
    rw [← decide_not]
    exact decide_eq_decide.2 Int64.not_lt.symm
  | le =>
    show decide (r < l) = !decide (l ≤ r)
    rw [← decide_not]
    exact decide_eq_decide.2 Int64.not_le.symm
  | gt =>
    show decide (l ≤ r) = !decide (r < l)
    rw [← decide_not]
    exact decide_eq_decide.2 Int64.not_lt.symm
  | ge =>
    show decide (l < r) = !decide (r ≤ l)
    rw [← decide_not]
    exact decide_eq_decide.2 Int64.not_le.symm

/-! ## Division -/

theorem signExtended_toInt (l : Word) :
    (if l < 0 then (-1 : Word) else 0).toInt * 2 ^ 64 + l.toUInt64.toNat = l.toInt := by
  have hcond : l.toInt = _ := BitVec.toInt_eq_toNat_cond l.toBitVec
  have hnat : l.toUInt64.toNat = l.toBitVec.toNat := rfl
  have hlt := l.toBitVec.isLt
  have hone : (-1 : Word).toInt = -1 := rfl
  have hzero : (0 : Word).toInt = 0 := rfl
  rw [hnat]
  split
  · next hneg =>
    rw [Int64.lt_iff_toInt_lt, hzero] at hneg
    rw [hone]
    split at hcond <;> omega
  · next hneg =>
    rw [Int64.lt_iff_toInt_lt, hzero] at hneg
    rw [hzero]
    split at hcond <;> omega

theorem divide_signExtended {l r : Word} (hr : r ≠ 0) (h : ¬(l = Int64.minValue ∧ r = -1)) :
    divide (if l < 0 then -1 else 0) l r = some (l / r, l % r) := by
  have hquot : l.toInt.tdiv r.toInt = (l / r).toInt := by
    by_cases hl : l = Int64.minValue
    · exact (Int64.toInt_div_of_ne_right l r fun he => h ⟨hl, he⟩).symm
    · exact (Int64.toInt_div_of_ne_left l r hl).symm
  rw [divide, signExtended_toInt, hquot, ← Int64.toInt_mod, Int64.ofInt_toInt, Int64.ofInt_toInt, if_neg]
  simp [hr]

/-! ## Shifts -/

theorem position_and_63 (r : Word) : position (r &&& 63) = position r % 64 := by
  rw [position, Int64.toUInt64_and, UInt64.toNat_and]
  exact Nat.and_two_pow_sub_one_eq_mod _ 6

theorem ofNat_mod_shift (r : Word) : Int64.ofNat (r.toUInt64.toNat % 64) = r &&& 63 := by
  apply position_inj
  have hpos : position r = r.toUInt64.toNat := rfl
  rw [position_ofNat, position_and_63, hpos]
  omega

theorem toNatClampNeg_and_63 (k : Word) : (k &&& 63).toNatClampNeg = position k % 64 := by
  have hcond : (k &&& 63).toInt = _ := BitVec.toInt_eq_toNat_cond (k &&& 63).toBitVec
  have hnat : (k &&& 63).toBitVec.toNat = position k % 64 := position_and_63 k
  rw [hnat] at hcond
  have hnonneg : (k &&& 63).toInt = (position k % 64 : Nat) := by
    split at hcond <;> omega
  rw [← Int64.toNat_toInt, hnonneg, Int.toNat_natCast]

theorem ofNat_mod_constant (k : Word) :
    Int64.ofNat ((k &&& 63).toNatClampNeg % 64) = k &&& 63 := by
  rw [toNatClampNeg_and_63, Nat.mod_mod]
  exact ofNat_mod_shift k

/-! ## Conditions as values -/

theorem withLowByte_and (w : Word) (b : Bool) :
    withLowByte w b &&& 255 = if b then 1 else 0 := by
  have hhigh : w &&& ~~~255 &&& 255 = 0 := by
    rw [Int64.and_assoc, Int64.not_and_self, Int64.and_zero]
  have hor : ∀ x y : Word, (x ||| y) &&& 255 = (x &&& 255) ||| (y &&& 255) := fun x y =>
    Int64.toBitVec_inj.1 BitVec.and_or_distrib_right
  rw [withLowByte, hor, hhigh, Int64.zero_or]
  cases b <;> rfl

end MxStar.Asm
