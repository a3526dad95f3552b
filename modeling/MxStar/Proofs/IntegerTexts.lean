import MxStar.Proofs.HeapBlocks
import MxStar.Proofs.JsonText

/-!
Integers as texts.

Digits are read with a value that wraps around at the size of a word, so that what `leading` gives is the
value of all the digits, modulo that size, however many there are (`leading_eq`). The text of a word is read
back by both readers (`leading_render`, `parse?_render`), and so by the routines of the runtime.
-/
namespace MxStar.Text.Decimal

open List Json

def bytesValue (ds : List UInt8) : Nat := ds.foldl (fun n b => 10 * n + (b.toNat - 0x30)) 0

def minus (negative : Bool) : List UInt8 := if negative then [0x2d] else []

def signed (negative : Bool) (n : Nat) : Int := if negative then -n else n

section Leading

variable {negative : Bool} {ds rest : List UInt8}

theorem foldl_digits (ds : List UInt8) (n : Nat) :
    ds.foldl (fun v b => v * 10 + Int64.ofNat (b.toNat - 0x30)) (Int64.ofNat n) =
      Int64.ofNat (ds.foldl (fun n b => 10 * n + (b.toNat - 0x30)) n) := by
  induction ds generalizing n with
  | nil => rfl
  | cons b ds ih =>
    have hnext : Int64.ofNat n * 10 + Int64.ofNat (b.toNat - 0x30) =
        Int64.ofNat (10 * n + (b.toNat - 0x30)) := by
      rw [Int64.ofNat_add, Int64.ofNat_mul, Int64.mul_comm]
      rfl
    rw [foldl_cons, foldl_cons, hnext, ih]

/-- The digits at the front, after an optional minus, are read with their sign, modulo the size of a
word. -/
theorem leading_eq (hds : ∀ b ∈ ds, isDigitByte b) (hrest : ∀ b ∈ rest.head?, ¬ isDigitByte b)
    (hsign : negative = false → ds = [] → rest.head? ≠ some 0x2d) :
    leading (minus negative ++ (ds ++ rest)) = Int64.ofInt (signed negative (bytesValue ds)) := by
  have hvalue : leadingDigits (ds ++ rest) = Int64.ofInt (bytesValue ds) := by
    rw [leadingDigits, (span_append hds hrest).1, Int64.ofInt_eq_ofNat]
    exact foldl_digits ds 0
  cases negative with
  | true =>
    have hread : leading (minus true ++ (ds ++ rest)) = .ofInt (-(leadingDigits (ds ++ rest)).toInt) := rfl
    rw [hread, Int64.ofInt_neg, Int64.ofInt_toInt, hvalue]
    exact (Int64.ofInt_neg _).symm
  | false =>
    refine Eq.trans (congrArg Int64.ofInt ?_) ((Int64.ofInt_toInt _).trans hvalue)
    cases ds with
    | nil =>
      -- A minus after no digits would be taken for the sign.
      cases rest with
      | nil => rfl
      | cons b rest => exact if_neg fun hb => hsign rfl rfl (congrArg some (eq_of_beq hb))
    | cons b ds =>
      refine if_neg fun hb => absurd (hds b mem_cons_self) ?_
      rw [eq_of_beq hb]
      decide

end Leading

/-! ## Texts of words -/

section Render

variable {c : Char} {ds : List Char}

theorem encode_digit (h : c.isDigit) : String.utf8EncodeChar c = [c.val.toUInt8] ∧
    isDigitByte c.val.toUInt8 ∧ c.val.toUInt8.toNat = c.toNat := by
  rw [Char.isDigit, Bool.and_eq_true, decide_eq_true_iff, decide_eq_true_iff, ge_iff_le,
    UInt32.le_iff_toNat_le, UInt32.le_iff_toNat_le] at h
  have hbyte : c.val.toUInt8.toNat = c.toNat := by
    rw [UInt32.toNat_toUInt8]
    exact Nat.mod_eq_of_lt (Nat.lt_of_le_of_lt h.2 (by decide))
  refine ⟨String.utf8EncodeChar_eq_singleton (Char.utf8Size_eq_one_iff.2 ?_), ?_, hbyte⟩
  · exact UInt32.le_iff_toNat_le.2 (Nat.le_trans h.2 (by decide))
  · rw [isDigitByte, Bool.and_eq_true, decide_eq_true_iff, decide_eq_true_iff, UInt8.le_iff_toNat_le,
      UInt8.le_iff_toNat_le, hbyte]
    exact h

theorem read_digits (h : ∀ c ∈ ds, c.isDigit) :
    digits? ds = some (digitsValue ds) ∧ ∃ bs, ds.flatMap String.utf8EncodeChar = bs ∧
      (∀ b ∈ bs, isDigitByte b) ∧ bytesValue bs = digitsValue ds := by
  unfold digits? digitsValue bytesValue
  generalize 0 = n
  induction ds generalizing n with
  | nil => exact ⟨rfl, [], rfl, fun _ hb => (not_mem_nil hb).elim, rfl⟩
  | cons c ds ih =>
    obtain ⟨hc, hds⟩ := forall_mem_cons.1 h
    obtain ⟨hencode, hdigit, hbyte⟩ := encode_digit hc
    obtain ⟨hread, bs, hflat, hbs, hvalue⟩ := ih hds (10 * n + (c.toNat - '0'.toNat))
    refine ⟨?_, c.val.toUInt8 :: bs, ?_, forall_mem_cons.2 ⟨hdigit, hbs⟩, ?_⟩
    · rw [foldl_cons, Option.bind_some, if_pos hc, hread, foldl_cons]
    · rw [flatMap_cons, hencode, hflat, singleton_append]
    · rw [foldl_cons, foldl_cons, hbyte]
      exact hvalue

theorem signed_natAbs (i : Int) : signed (decide (i < 0)) i.natAbs = i := by
  by_cases h : i < 0
  · rw [decide_eq_true h]
    exact (Int.eq_neg_natAbs_of_nonpos (Int.le_of_lt h)).symm
  · rw [decide_eq_false h]
    exact Int.natAbs_of_nonneg (Int.not_lt.1 h)

/-- The text of a word is read back from the front of a byte string. -/
theorem leading_render (w : Int64) : leading (Utf8.encode (render w)) = w := by
  obtain ⟨-, bs, hflat, hbs, hvalue⟩ := read_digits (natural_toDigits w.toInt.natAbs).isDigit
  have hminus : (signText (decide (w.toInt < 0))).flatMap String.utf8EncodeChar =
      minus (decide (w.toInt < 0)) := by
    cases decide (w.toInt < 0) <;> rfl
  rw [render, Utf8.encode, toList_toString, flatMap_append, hminus, hflat, ← append_nil bs,
    leading_eq hbs (by simp) (by simp), hvalue, digitsValue_toDigits, signed_natAbs, Int64.ofInt_toInt]

/-- Only the least word is read with a sign that makes it too large. -/
theorem leadingExact_render_fits {w : Int64} (h : w ≠ Int64.minValue) :
    -2 ^ 63 ≤ leadingExact (Utf8.encode (render w)) ∧ leadingExact (Utf8.encode (render w)) < 2 ^ 63 := by
  refine (Interp.Machine.leadingExact_fits_iff _).2 ?_
  rintro ⟨t, ht, hleast⟩
  have hread : leading (0x2d :: t) = Int64.ofInt (-(leadingDigits t).toInt) := rfl
  rw [← leading_render w, ht, hread, hleast] at h
  exact h rfl

theorem parse?_render (w : Int64) : parse? (render w) = some w := by
  have hds := (natural_toDigits w.toInt.natAbs).isDigit
  have hread (sign : Int) (hsign : sign * w.toInt.natAbs = w.toInt) :
      (if (Nat.toDigits 10 w.toInt.natAbs).isEmpty then none
        else (digits? (Nat.toDigits 10 w.toInt.natAbs)).bind fun n => fit? (sign * n)) = some w := by
    rw [if_neg (by simp), (read_digits hds).1, digitsValue_toDigits, Option.bind_some, hsign,
      fit?, if_pos, Int64.ofInt_toInt]
    rw [Bool.and_eq_true, decide_eq_true_iff, decide_eq_true_iff]
    exact ⟨Int64.le_toInt w, Int64.toInt_le w⟩
  unfold parse?
  rw [render, toList_toString]
  by_cases h : w.toInt < 0
  · rw [decide_eq_true h]
    exact hread (-1) (by omega)
  · rw [decide_eq_false h, show signText false = [] from rfl, nil_append]
    split
    · next hd => exact absurd (hds '-' (hd ▸ mem_cons_self)) (by decide)
    · next hd => exact absurd (hds '+' (hd ▸ mem_cons_self)) (by decide)
    · exact hread 1 (by omega)

end Render

end MxStar.Text.Decimal

namespace MxStar.Interp

open IR Text

/-- **Integers are read back from their texts.** What is parsed from the string of a word, or read from
the input where its text is the next token, is that word; only for the least word the negation that parsing
ends with overflows, where that is checked for. More generally an optional minus and any number of digits,
followed by something else, are parsed as the value of the digits with their sign, modulo the size of a
word. -/
theorem integers_read_back :
    (∀ (n : Word) (m : Machine), 8 ≤ m.memory.size → ∃ w m', m.callBuiltin .toString [n] = .ok (w, m') ∧
      (m'.memory.size < 2 ^ 63 → m'.callBuiltin .stringParseInt [w] =
        if m.checks = true ∧ n = Int64.minValue then .error .overflow else .ok (n, m'))) ∧
    (∀ (n : Word) (m : Machine) (rest : List String), m.input = Decimal.render n :: rest →
      m.callBuiltin .getInt [] = .ok (n, { m with input := rest })) ∧
    ∀ (negative : Bool) (ds rest : List UInt8), (∀ b ∈ ds, Decimal.isDigitByte b) →
      (∀ b ∈ rest.head?, ¬ Decimal.isDigitByte b) →
      (negative = false → ds = [] → rest.head? ≠ some 0x2d) →
      Decimal.leading (Decimal.minus negative ++ (ds ++ rest)) =
        Int64.ofInt (Decimal.signed negative (Decimal.bytesValue ds)) := by
  refine ⟨fun n m h8 => ?_, fun n m rest hinput => ?_, fun negative ds rest => Decimal.leading_eq⟩
  · obtain ⟨w, m', hcall, hread⟩ := givesText_allocText h8 (Utf8.encode (Decimal.render n))
    refine ⟨w, m', hcall, fun hsize => ?_⟩
    have hchecks : m'.checks = m.checks := by
      cases hcall
      rfl
    simp only [Machine.callBuiltin]
    rw [show [w].getD 0 0 = w from rfl, hread hsize, Except.ok_bind, Machine.plain, hchecks]
    split
    · next h =>
      obtain ⟨hyes, rfl⟩ := h
      rw [hyes, plainWord_eq_error_iff.2 ⟨rfl, rfl, by decide +kernel⟩]
      rfl
    · next h =>
      have hplain : plainWord m.checks (Decimal.leadingExact (Utf8.encode (Decimal.render n))) =
          .ok (Decimal.leading (Utf8.encode (Decimal.render n))) := by
        cases hno : m.checks with
        | false => rfl
        | true =>
          obtain ⟨hlow, hhigh⟩ := Decimal.leadingExact_render_fits fun hn => h ⟨hno, hn⟩
          exact plainWord_of_fits hlow hhigh
      rw [hplain, Decimal.leading_render]
      rfl
  · simp only [Machine.callBuiltin, Machine.takeToken, hinput]
    rw [Option.bind_some, Decimal.parse?_render]
    rfl

/-- The least word, whose magnitude is not a word, is read back if overflow is not checked for. -/
theorem integers_read_back_least : ∃ w m',
    (Machine.start {} "" false).callBuiltin .toString [Int64.minValue] = .ok (w, m') ∧
      m'.callBuiltin .stringParseInt [w] = .ok (Int64.minValue, m') := by
  obtain ⟨w, m', hcall, hread⟩ := integers_read_back.1 Int64.minValue (Machine.start {} "" false) (by decide)
  refine ⟨w, m', hcall, hread ?_⟩
  cases hcall
  decide +kernel

end MxStar.Interp
