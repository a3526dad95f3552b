import Mathlib.Algebra.Group.Int.Defs
import Mathlib.Algebra.Group.Nat.Defs
import MxStar.Interp.Machine
import MxStar.Proofs.Results

/-!
Plain arithmetic of the runtime.

The routines of the runtime compute addresses, and a number with its sign, with arithmetic whose result has
to fit its type. A build that checks for overflow ends the run where it does not. That can be where the
address of a place out of bounds is reported, and at the negation of a number that was read; in all other
cases a call is the same with checks and without (`callBuiltin_overflow_iff`).
-/
namespace MxStar.Interp

open IR

/-- An error of a routine: an access out of bounds, or an overflow where it is checked for. -/
def RunError.OfRoutine (checks : Bool) : RunError → Prop
  | .outOfBounds _ => True
  | .overflow => checks = true
  | _ => False

section Words

variable {checks : Bool} {x : Int} {w : Word} {e : RunError}

theorem plainWord_of_fits (h : -2 ^ 63 ≤ x) (h' : x < 2 ^ 63) : plainWord checks x = .ok (.ofInt x) := by
  simp [plainWord, Int64.toInt_ofInt_of_le h h']

@[simp] theorem plainWord_false (x : Int) : plainWord false x = .ok (.ofInt x) := rfl

theorem plainWord_eq_error_iff :
    plainWord checks x = .error e ↔ e = .overflow ∧ checks = true ∧ ¬(-2 ^ 63 ≤ x ∧ x < 2 ^ 63) := by
  by_cases hx : -2 ^ 63 ≤ x ∧ x < 2 ^ 63
  · rw [plainWord_of_fits hx.1 hx.2]
    exact iff_of_false nofun fun h => h.2.2 hx
  · have hne : (Int64.ofInt x).toInt ≠ x := fun h => hx (h ▸ ⟨Int64.le_toInt _, Int64.toInt_lt _⟩)
    have hchecked : plainWord true x = .error .overflow := if_pos (bne_iff_ne.2 hne)
    cases checks with
    | false => exact iff_of_false nofun fun h => nomatch h.2.1
    | true =>
      rw [hchecked, Except.error.injEq]
      exact ⟨fun h => ⟨h.symm, rfl, hx⟩, fun h => h.1.symm⟩

theorem ofRoutine_plainWord (h : plainWord checks x = .error e) : e.OfRoutine checks := by
  obtain ⟨rfl, hchecks, -⟩ := plainWord_eq_error_iff.1 h
  exact hchecks

end Words

/-! ## Memory -/

namespace Memory

variable {m : Memory} {a w : Word} {len : Nat} {s : List UInt8} {e : RunError} {checks : Bool}

theorem place_eq (hlen : len < 2 ^ 63) : m.place a len =
    if a.toInt < 8 ∨ m.size < a.toInt + len then .error (.outOfBounds a) else .ok a.toInt.toNat := by
  have ha := a.toInt_lt
  have hfits : ¬UInt64.size ≤ a.toInt.toNat + len := by
    simp only [UInt64.size]
    omega
  have hsize : plainSize (a.toInt.toNat + len) = .ok (a.toInt.toNat + len) := if_neg hfits
  simp only [place, hsize]
  by_cases hlow : a.toInt < 8
  · rw [if_pos hlow, if_pos (.inl hlow)]
    rfl
  · rw [if_neg hlow]
    by_cases hhigh : m.size < a.toInt.toNat + len
    · rw [if_pos (.inr (by omega))]
      exact if_pos hhigh
    · rw [if_neg (by omega)]
      exact if_neg hhigh

theorem toInt_of_place {n : Nat} (h : m.place a len = .ok n) :
    8 ≤ a.toInt ∧ a.toInt + len ≤ m.size ∧ n = a.toInt.toNat := by
  simp only [place] at h
  split at h
  · cases h
  · obtain ⟨stop, hstop, h⟩ := Except.bind_eq_ok.1 h
    unfold plainSize at hstop
    split at hstop <;> cases hstop
    split at h <;> cases h
    omega

theorem toInt_of_readWord (h : m.readWord a = .ok w) : 8 ≤ a.toInt ∧ a.toInt + 8 ≤ m.size := by
  obtain ⟨n, hn, -⟩ := Except.bind_eq_ok.1 h
  obtain ⟨hlow, hhigh, -⟩ := toInt_of_place hn
  exact ⟨hlow, hhigh⟩

theorem place_error (hlen : len < 2 ^ 63) (h : m.place a len = .error e) : e = .outOfBounds a := by
  rw [place_eq hlen] at h
  split at h <;> cases h
  rfl

theorem readWord_error (h : m.readWord a = .error e) : e = .outOfBounds a := by
  obtain h | ⟨n, -, h⟩ := Except.bind_eq_error.1 h
  · exact place_error (by decide) h
  · cases h

theorem toInt_of_readText (hm : m.size < 2 ^ 63) (h : m.readText checks a = .ok s) :
    8 ≤ a.toInt ∧ a.toInt + 8 + s.length ≤ m.size := by
  obtain ⟨len, hlen, h⟩ := Except.bind_eq_ok.1 h
  have haddr := toInt_of_readWord hlen
  dsimp only at h
  split at h
  · cases h
  · rw [plainWord_of_fits (by omega) (by omega), Except.ok_bind] at h
    obtain ⟨n, hn, h⟩ := Except.bind_eq_ok.1 h
    cases h
    obtain ⟨-, hhigh, rfl⟩ := toInt_of_place hn
    rw [Int64.toInt_ofInt_of_le (by omega) (by omega)] at hhigh ⊢
    have hlength : (m.slice (a.toInt + 8).toNat len.toInt.toNat).length ≤ len.toInt.toNat := by
      rw [slice, Array.length_toList, Array.size_extract]
      omega
    omega

theorem ofRoutine_readText (h : m.readText checks a = .error e) : e.OfRoutine checks := by
  obtain h | ⟨len, -, h⟩ := Except.bind_eq_error.1 h
  · exact readWord_error h ▸ trivial
  · dsimp only at h
    split at h
    · cases h
      trivial
    · obtain h | ⟨start, -, h⟩ := Except.bind_eq_error.1 h
      · exact ofRoutine_plainWord h
      · obtain h | ⟨n, -, h⟩ := Except.bind_eq_error.1 h
        · have := len.toInt_lt
          exact place_error (by omega) h ▸ trivial
        · cases h

/-- To read a string nothing is computed that is too large. -/
theorem readText_checks (hm : m.size < 2 ^ 63) (checks : Bool) (a : Word) :
    m.readText checks a = m.readText false a := by
  unfold readText
  cases hlen : m.readWord a with
  | error e => rfl
  | ok len =>
    have haddr := toInt_of_readWord hlen
    rw [Except.ok_bind, Except.ok_bind]
    dsimp only
    rw [@plainWord_of_fits checks _ (by omega) (by omega), plainWord_false]

end Memory

/-! ## Routines -/

namespace Machine

variable {m : Machine} {a k : Word} {s : List UInt8} {e : RunError}

theorem ofRoutine_textAddress (h : m.textAddress a k = .error e) : e.OfRoutine m.checks := by
  obtain h | ⟨w, -, h⟩ := Except.bind_eq_error.1 h
  · exact ofRoutine_plainWord h
  · exact ofRoutine_plainWord h

/-- The address of a place in a string is the string's, behind the word of its length, and the place. -/
theorem textAddress_eq (hm : m.memory.size < 2 ^ 63) (hs : m.readText a = .ok s) (k : Word) :
    m.textAddress a k = plainWord m.checks (a.toInt + 8 + k.toInt) := by
  have haddr := Memory.toInt_of_readText hm hs
  rw [textAddress, plain, plainWord_of_fits (by omega) (by omega), Except.ok_bind,
    Int64.toInt_ofInt_of_le (by omega) (by omega)]
  rfl

/-- The number that is read fits a word unless it is the least one negated. -/
theorem leadingExact_fits_iff (s : List UInt8) :
    (-2 ^ 63 ≤ Text.Decimal.leadingExact s ∧ Text.Decimal.leadingExact s < 2 ^ 63) ↔
      ¬ ∃ t, s = 0x2d :: t ∧ Text.Decimal.leadingDigits t = Int64.minValue := by
  cases s with
  | nil => simp [Text.Decimal.leadingExact]
  | cons b s =>
    simp only [Text.Decimal.leadingExact]
    split
    · next hb =>
      obtain rfl := eq_of_beq hb
      have hlow := (Text.Decimal.leadingDigits s).le_toInt
      have hhigh := (Text.Decimal.leadingDigits s).toInt_lt
      have hleast : Text.Decimal.leadingDigits s = Int64.minValue ↔
          (Text.Decimal.leadingDigits s).toInt = -2 ^ 63 := Int64.toInt_inj.symm
      simp only [List.cons.injEq, true_and, exists_eq_left', hleast]
      omega
    · next hb =>
      refine iff_of_true ⟨Int64.le_toInt _, Int64.toInt_lt _⟩ ?_
      rintro ⟨t, ht, -⟩
      exact hb (by rw [(List.cons.inj ht).1]; rfl)

end Machine

/-- A call of a routine fails out of bounds, or with an overflow where that is checked for. -/
theorem callBuiltin_error {m : Machine} {b : Builtin} {args : List Word} {e : RunError}
    (h : m.callBuiltin b args = .error e) : e.OfRoutine m.checks := by
  cases b with
  | malloc =>
    simp only [Machine.callBuiltin] at h
    split at h <;> cases h
    trivial
  | printInt | printlnInt | getString | getInt | toString => cases h
  | print | println =>
    obtain h | ⟨s, -, h⟩ := Except.bind_eq_error.1 h
    · exact Memory.ofRoutine_readText h
    · cases h
  | stringConcat | stringCompare =>
    obtain h | ⟨s, -, h⟩ := Except.bind_eq_error.1 h
    · exact Memory.ofRoutine_readText h
    · obtain h | ⟨t, -, h⟩ := Except.bind_eq_error.1 h
      · exact Memory.ofRoutine_readText h
      · cases h
  | stringParseInt =>
    obtain h | ⟨s, -, h⟩ := Except.bind_eq_error.1 h
    · exact Memory.ofRoutine_readText h
    · obtain h | ⟨w, -, h⟩ := Except.bind_eq_error.1 h
      · exact ofRoutine_plainWord h
      · cases h
  | stringSubstring =>
    obtain h | ⟨s, -, h⟩ := Except.bind_eq_error.1 h
    · exact Memory.ofRoutine_readText h
    · dsimp only at h
      split at h
      · obtain h | ⟨w, -, h⟩ := Except.bind_eq_error.1 h
        · exact Machine.ofRoutine_textAddress h
        · cases h
          trivial
      · cases h
  | stringOrd =>
    obtain h | ⟨s, -, h⟩ := Except.bind_eq_error.1 h
    · exact Memory.ofRoutine_readText h
    · obtain h | ⟨w, -, h⟩ := Except.bind_eq_error.1 h
      · exact Machine.ofRoutine_textAddress h
      · dsimp only at h
        split at h <;> cases h
        trivial

theorem callBuiltin_checks {m m' : Machine} {b : Builtin} {args : List Word} {w : Word}
    (h : m.callBuiltin b args = .ok (w, m')) : m'.checks = m.checks := by
  cases b with
  | malloc =>
    simp only [Machine.callBuiltin] at h
    split at h <;> cases h
    rfl
  | getString | getInt =>
    obtain ⟨memory, regs, statics, input, output, checks⟩ := m
    cases input <;> cases h <;> rfl
  | printInt | printlnInt | toString =>
    cases h
    rfl
  | print | println =>
    obtain ⟨s, -, h⟩ := Except.bind_eq_ok.1 h
    cases h
    rfl
  | stringConcat | stringCompare | stringParseInt =>
    obtain ⟨s, -, h⟩ := Except.bind_eq_ok.1 h
    obtain ⟨t, -, h⟩ := Except.bind_eq_ok.1 h
    cases h
    rfl
  | stringSubstring =>
    obtain ⟨s, -, h⟩ := Except.bind_eq_ok.1 h
    dsimp only at h
    split at h
    · obtain ⟨address, -, h⟩ := Except.bind_eq_ok.1 h
      cases h
    · cases h
      rfl
  | stringOrd =>
    obtain ⟨s, -, h⟩ := Except.bind_eq_ok.1 h
    obtain ⟨address, -, h⟩ := Except.bind_eq_ok.1 h
    dsimp only at h
    split at h <;> cases h
    rfl

/-! ## With checks and without -/

def Machine.withChecks (m : Machine) (checks : Bool) : Machine := { m with checks := checks }

/-- The address to report, or the number with its sign, is no word. -/
def Machine.Overflows (m : Machine) (b : Builtin) (args : List Word) : Prop :=
  ∃ s, m.readText (args.getD 0 0) = .ok s ∧ match b with
    | .stringSubstring => Int64.maxValue.toInt < (args.getD 0 0).toInt + 8 + (args.getD 2 0).toInt
    | .stringOrd => Int64.maxValue.toInt < (args.getD 0 0).toInt + 8 + (args.getD 1 0).toInt
    | .stringParseInt => ∃ t, s = 0x2d :: t ∧ Text.Decimal.leadingDigits t = Int64.minValue
    | _ => False

section Checks

variable {m : Machine} (hm : m.memory.size < 2 ^ 62) {b : Builtin} {args : List Word}

include hm

theorem callBuiltin_of_overflows (hchecks : m.checks = true) (h : m.Overflows b args) :
    m.callBuiltin b args = .error .overflow := by
  obtain ⟨s, hs, h⟩ := h
  have haddr := Memory.toInt_of_readText (by omega) hs
  have hmax : Int64.maxValue.toInt = 2 ^ 63 - 1 := rfl
  have hlarge {k : Word} (hk : Int64.maxValue.toInt < (args.getD 0 0).toInt + 8 + k.toInt) :
      m.textAddress (args.getD 0 0) k = .error .overflow := by
    rw [Machine.textAddress_eq (by omega) hs]
    exact plainWord_eq_error_iff.2 ⟨rfl, hchecks, by omega⟩
  cases b with
  | stringSubstring =>
    dsimp only at h
    simp only [Machine.callBuiltin]
    rw [hs, Except.ok_bind, if_pos (by simp only [Bool.or_eq_true, decide_eq_true_eq]; omega), hlarge h]
    rfl
  | stringOrd =>
    simp only [Machine.callBuiltin]
    rw [hs, Except.ok_bind, hlarge h]
    rfl
  | stringParseInt =>
    simp only [Machine.callBuiltin]
    rw [hs, Except.ok_bind, Machine.plain,
      plainWord_eq_error_iff.2 ⟨rfl, hchecks, fun hfits => (Machine.leadingExact_fits_iff s).1 hfits h⟩]
    rfl
  | _ => exact h.elim

theorem Machine.readText_withChecks (a : Word) : m.readText a = (m.withChecks false).readText a :=
  Memory.readText_checks (by omega) m.checks a

theorem Machine.textAddress_withChecks {a k : Word} {s : List UInt8} (hs : m.readText a = .ok s)
    (hk : ¬ Int64.maxValue.toInt < a.toInt + 8 + k.toInt) :
    m.textAddress a k = (m.withChecks false).textAddress a k := by
  have haddr := Memory.toInt_of_readText (by omega) hs
  have hmax : Int64.maxValue.toInt = 2 ^ 63 - 1 := rfl
  have hlow := k.le_toInt
  rw [Machine.textAddress_eq (by omega) hs, plainWord_of_fits (by omega) (by omega)]
  exact (Machine.textAddress_eq (m := m.withChecks false) (Nat.lt_trans hm (by decide))
    ((readText_withChecks hm a).symm.trans hs) k).symm

/-- Where nothing overflows, the checks make no difference. -/
theorem callBuiltin_of_not_overflows (h : ¬ m.Overflows b args) : m.callBuiltin b args =
    ((m.withChecks false).callBuiltin b args).map fun x => (x.1, x.2.withChecks m.checks) := by
  have hread := Machine.readText_withChecks hm
  cases b with
  | malloc =>
    simp only [Machine.callBuiltin]
    split <;> rfl
  | printInt | printlnInt | toString => rfl
  | getString | getInt =>
    obtain ⟨memory, regs, statics, input, output, checks⟩ := m
    cases input <;> rfl
  | print | println =>
    simp only [Machine.callBuiltin, ← hread]
    cases m.readText (args.getD 0 0) <;> rfl
  | stringConcat | stringCompare =>
    simp only [Machine.callBuiltin, ← hread]
    cases m.readText (args.getD 0 0) with
    | error e => rfl
    | ok s => cases m.readText (args.getD 1 0) <;> rfl
  | stringParseInt =>
    simp only [Machine.callBuiltin, ← hread]
    cases hs : m.readText (args.getD 0 0) with
    | error e => rfl
    | ok s =>
      have hfits := (Machine.leadingExact_fits_iff s).2 fun ht => h ⟨s, hs, ht⟩
      rw [Except.ok_bind, Except.ok_bind, Machine.plain, plainWord_of_fits hfits.1 hfits.2]
      rfl
  | stringSubstring =>
    simp only [Machine.callBuiltin, ← hread]
    cases hs : m.readText (args.getD 0 0) with
    | error e => rfl
    | ok s =>
      rw [Except.ok_bind, Except.ok_bind,
        Machine.textAddress_withChecks hm hs fun hk => h ⟨s, hs, hk⟩]
      split
      · cases (m.withChecks false).textAddress (args.getD 0 0) (args.getD 2 0) <;> rfl
      · rfl
  | stringOrd =>
    simp only [Machine.callBuiltin, ← hread]
    cases hs : m.readText (args.getD 0 0) with
    | error e => rfl
    | ok s =>
      rw [Except.ok_bind, Except.ok_bind,
        Machine.textAddress_withChecks hm hs fun hk => h ⟨s, hs, hk⟩]
      cases (m.withChecks false).textAddress (args.getD 0 0) (args.getD 1 0) with
      | error e => rfl
      | ok address =>
        rw [Except.ok_bind, Except.ok_bind]
        split <;> rfl

end Checks

/-- **Plain arithmetic of the runtime.** While memory is shorter than `2 ^ 62` bytes, a call of a routine
overflows in these cases only: the address that is reported for a place in a string is too large for a
word, or a number with a minus is read whose digits give the least word. In all other cases the checks make
no difference. -/
theorem callBuiltin_overflow_iff {m : Machine} (hm : m.memory.size < 2 ^ 62) (b : Builtin)
    (args : List Word) :
    (m.callBuiltin b args = .error .overflow ↔ m.checks = true ∧ m.Overflows b args) ∧
    (¬ m.Overflows b args → m.callBuiltin b args =
      ((m.withChecks false).callBuiltin b args).map fun x => (x.1, x.2.withChecks m.checks)) := by
  refine ⟨⟨fun h => ?_, fun h => callBuiltin_of_overflows hm h.1 h.2⟩, callBuiltin_of_not_overflows hm⟩
  refine ⟨callBuiltin_error h, Classical.byContradiction fun hno => ?_⟩
  rw [callBuiltin_of_not_overflows hm hno] at h
  cases hcall : (m.withChecks false).callBuiltin b args with
  | ok x =>
    rw [hcall] at h
    cases h
  | error e =>
    rw [hcall] at h
    cases h
    exact Bool.false_ne_true (callBuiltin_error hcall)

def letters : Program where
  statics := #[⟨"str", .text "abc", ""⟩]

theorem callBuiltin_letters_ne_overflow : (Machine.start letters "").memory.size < 2 ^ 62 ∧
    (Machine.start letters "").callBuiltin .stringSubstring [8, 1, 2] ≠ .error .overflow := by
  refine ⟨by decide, fun h => ?_⟩
  obtain ⟨-, s, -, hlarge⟩ := (callBuiltin_overflow_iff (by decide) _ _).1.1 h
  exact absurd (show Int64.maxValue.toInt < 8 + 8 + 2 from hlarge) (by decide)

/-- The address that is reported for a character far behind the string is no word. -/
theorem callBuiltin_letters_overflow : ¬ ∀ (m : Machine) (b : Builtin) (args : List Word),
    m.memory.size < 2 ^ 62 → m.callBuiltin b args ≠ .error .overflow := by
  intro h
  refine h (Machine.start letters "") .stringOrd [8, Int64.maxValue] (by decide) ?_
  rfl

end MxStar.Interp
