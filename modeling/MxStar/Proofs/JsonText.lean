import Mathlib.Data.List.Basic
import MxStar.Json.Parser
import MxStar.Json.Printer

/-!
Reading JSON text undoes writing it.

What `write` puts before `k` is what `value` takes off again (`value_write`), if `k` starts with something
that cannot be part of a number. A value is `Proper` if the texts of its real numbers are numbers.
-/
namespace MxStar.Json

open List

variable {c : Char}

/-! ## Strings -/

theorem hexValue?_hexDigit : ∀ n < 16, hexValue? (hexDigit n) = some n := by decide

theorem codeUnit?_hexDigit {n : Nat} (h : n < 0x20) :
    codeUnit? '0' '0' (hexDigit (n / 16)) (hexDigit (n % 16)) = some n := by
  have hzero : hexValue? '0' = some 0 := rfl
  have hhigh : hexValue? (hexDigit (n / 16)) = some (n / 16) := hexValue?_hexDigit _ (by omega)
  have hlow : hexValue? (hexDigit (n % 16)) = some (n % 16) := hexValue?_hexDigit _ (by omega)
  simp only [codeUnit?, hzero, hhigh, hlow, Option.pure_def, Option.bind_eq_bind, Option.bind_some,
    Option.some.injEq]
  omega

theorem codePoints_plain (acc : List Nat) (cs : List Char) (hquote : c ≠ '"') (hslash : c ≠ '\\')
    (hcontrol : ¬ c.toNat < 0x20) : codePoints acc (c :: cs) = codePoints (c.toNat :: acc) cs := by
  rw [codePoints.eq_def]
  split
  · next heq => cases heq; exact absurd rfl hquote
  · next heq => cases heq; exact absurd rfl hslash
  · next heq => cases heq; exact absurd rfl hslash
  · next heq => cases heq; rw [if_neg hcontrol]
  · next heq => cases heq

/-- Every character is read back from the way it is written in a string. -/
theorem codePoints_escapeChar (acc : List Nat) (c : Char) (cs : List Char) :
    codePoints acc (escapeChar c ++ cs) = codePoints (c.toNat :: acc) cs := by
  unfold escapeChar
  split
  · next h => cases eq_of_beq h; rfl
  · split
    · next h => cases eq_of_beq h; rfl
    · split
      · next hcontrol =>
        -- The five controls with a letter of their own, then the others, in hexadecimal.
        repeat' split
        · next h => cases eq_of_beq h; rfl
        · next h => cases eq_of_beq h; rfl
        · next h => cases eq_of_beq h; rfl
        · next h => cases eq_of_beq h; rfl
        · next h => cases eq_of_beq h; rfl
        · simp only [cons_append, nil_append, codePoints, codeUnit?_hexDigit hcontrol,
            Option.bind_some]
      · next hquote hslash hcontrol =>
        exact codePoints_plain acc cs (by simpa using hquote) (by simpa using hslash) hcontrol

theorem codePoints_escaped (s : List Char) (acc : List Nat) (k : List Char) :
    codePoints acc (s.flatMap escapeChar ++ '"' :: k) =
      some (acc.reverse ++ s.map Char.toNat, k) := by
  induction s generalizing acc with
  | nil => simp [codePoints]
  | cons c s ih =>
    rw [flatMap_cons, append_assoc, codePoints_escapeChar, ih]
    simp

theorem not_surrogate (c : Char) : c.toNat < 0xd800 ∨ 0xe000 ≤ c.toNat := by
  rcases c.valid with h | ⟨h, -⟩
  · exact .inl h
  · exact .inr h

theorem joinSurrogates_toNat (s : List Char) (acc : List Char) :
    joinSurrogates acc (s.map Char.toNat) = some (acc.reverse ++ s) := by
  induction s generalizing acc with
  | nil => simp [joinSurrogates]
  | cons c s ih =>
    have hc := not_surrogate c
    have hfirst : ¬ (0xd800 ≤ c.toNat ∧ c.toNat < 0xdc00) := by omega
    have hsecond : ¬ (0xdc00 ≤ c.toNat ∧ c.toNat < 0xe000) := by omega
    have hjoin : joinSurrogates acc (c.toNat :: s.map Char.toNat) =
        joinSurrogates (Char.ofNat c.toNat :: acc) (s.map Char.toNat) := by
      rw [joinSurrogates.eq_def]
      simp [hfirst, hsecond]
    rw [map_cons, hjoin, Char.ofNat_toNat, ih]
    simp

theorem stringBody_escaped (s : String) (k : List Char) :
    stringBody (s.toList.flatMap escapeChar ++ '"' :: k) = some (some s, k) := by
  simp [stringBody, codePoints_escaped, joinSurrogates_toNat]

/-! ## Numbers -/

/-- What may stand after a value: nothing, or one of the signs that end it. -/
def Follows (k : List Char) : Prop := ∀ c ∈ k.head?, c = ',' ∨ c = ']' ∨ c = '\x7d'

structure Digits (ds : List Char) : Prop where
  ne_nil : ds ≠ []
  isDigit : ∀ c ∈ ds, c.isDigit

structure Natural (ds : List Char) : Prop extends Digits ds where
  leading : ds.head? = some '0' → ds = ['0']

def Fraction (text : List Char) : Prop := text = [] ∨ ∃ ds, Digits ds ∧ text = '.' :: ds

def Exponent (text : List Char) : Prop :=
  text = [] ∨ ∃ c sign ds, (c = 'e' ∨ c = 'E') ∧ (sign = [] ∨ sign = ['+'] ∨ sign = ['-']) ∧
    Digits ds ∧ text = c :: (sign ++ ds)

def signText (negative : Bool) : List Char := if negative then ['-'] else []

/-- The text of a number that is not an integer: one with a fraction or an exponent, or the number `-0`.
-/
def RealText (text : List Char) : Prop :=
  ∃ negative ds frac expo, Natural ds ∧ Fraction frac ∧ Exponent expo ∧
    (frac = [] → expo = [] → negative = true ∧ ds = ['0']) ∧
    text = signText negative ++ (ds ++ (frac ++ expo))

section Numbers

variable {ds frac expo k : List Char}

/-- What satisfies a predicate is split off where something follows that does not. -/
theorem span_append {α : Type} {P : α → Bool} {as k : List α} (has : ∀ a ∈ as, P a)
    (hk : ∀ a ∈ k.head?, ¬ P a) : (as ++ k).takeWhile P = as ∧ (as ++ k).dropWhile P = k := by
  induction as with
  | nil =>
    cases k with
    | nil => exact ⟨rfl, rfl⟩
    | cons a k => simp [hk a rfl]
  | cons a as ih =>
    obtain ⟨htake, hdrop⟩ := ih fun a ha => has a (mem_cons_of_mem _ ha)
    simp [has a mem_cons_self, htake, hdrop]

/-- A number ends before what follows it: no digit, no point and no exponent. -/
theorem Follows.not_number (hk : Follows k) (hc : c ∈ k.head?) :
    ¬ c.isDigit ∧ c ≠ '.' ∧ c ≠ 'e' ∧ c ≠ 'E' := by
  rcases hk c hc with rfl | rfl | rfl <;> decide

theorem exponent_append (h : Exponent expo) (hk : Follows k) :
    exponent (expo ++ k) = some (expo, k) := by
  obtain rfl | ⟨c, sign, ds, hc, hsign, hds, rfl⟩ := h
  · cases k with
    | nil => rfl
    | cons c k =>
      obtain ⟨-, -, he, hE⟩ := hk.not_number (c := c) rfl
      simp [exponent, he, hE]
  · obtain ⟨htake, hdrop⟩ := span_append hds.isDigit fun c hc => (hk.not_number hc).1
    have hne := hds.ne_nil
    have hletter : (c == 'e' || c == 'E') = true := by rcases hc with rfl | rfl <;> rfl
    simp only [cons_append, append_assoc, exponent, hletter, if_true]
    obtain rfl | rfl | rfl := hsign
    · -- Without a sign the digits come first, and a digit is no sign.
      obtain ⟨d, ds, rfl⟩ := exists_cons_of_ne_nil hne
      have hd := hds.isDigit d mem_cons_self
      simp only [nil_append, cons_append] at htake hdrop ⊢
      split
      · next heq => cases heq; exact absurd hd (by decide)
      · next heq => cases heq; exact absurd hd (by decide)
      · simp [htake, hdrop]
    · simp [htake, hdrop, hne]
    · simp [htake, hdrop, hne]

/-- An exponent starts with a letter that is neither a digit nor a point. -/
theorem Exponent.head (h : Exponent expo) (hk : Follows k) :
    ∀ c ∈ (expo ++ k).head?, ¬ c.isDigit ∧ c ≠ '.' := by
  intro c hc
  obtain rfl | ⟨e, sign, ds, he, -, -, rfl⟩ := h
  · have := hk.not_number hc
    exact ⟨this.1, this.2.1⟩
  · cases hc
    rcases he with rfl | rfl <;> decide

theorem fraction_append (h : Fraction frac) (hk : ∀ c ∈ k.head?, ¬ c.isDigit ∧ c ≠ '.') :
    fraction (frac ++ k) = some (frac, k) := by
  obtain rfl | ⟨ds, hds, rfl⟩ := h
  · rw [nil_append, fraction.eq_def]
    split
    · next cs => exact absurd rfl (hk '.' rfl).2
    · rfl
  · obtain ⟨htake, hdrop⟩ := span_append hds.isDigit fun c hc => (hk c hc).1
    simp [fraction, htake, hdrop, hds.ne_nil]

theorem Fraction.head (h : Fraction frac) (hk : ∀ c ∈ k.head?, ¬ c.isDigit ∧ c ≠ '.') :
    ∀ c ∈ (frac ++ k).head?, ¬ c.isDigit := by
  intro c hc
  obtain rfl | ⟨ds, -, rfl⟩ := h
  · exact (hk c hc).1
  · cases hc
    decide

theorem unsignedNumber_append (negative : Bool) (hds : Natural ds) (hfrac : Fraction frac)
    (hexpo : Exponent expo) (hk : Follows k) :
    unsignedNumber negative (ds ++ (frac ++ (expo ++ k))) =
      if frac.isEmpty && expo.isEmpty && !(negative && ds == ['0']) then
        some (.int (if negative then -(digitsValue ds : Int) else digitsValue ds), k)
      else some (.real (String.ofList (signText negative ++ (ds ++ (frac ++ expo)))), k) := by
  obtain ⟨htake, hdrop⟩ := span_append hds.isDigit (hfrac.head (hexpo.head hk))
  have hleading : (ds.isEmpty || (ds.head? == some '0' && ds.length != 1)) = false := by
    have hne : ds.isEmpty = false := by simpa using hds.ne_nil
    by_cases hzero : ds.head? = some '0'
    · rw [hds.leading hzero]; rfl
    · simp [hne, hzero]
  simp only [unsignedNumber, htake, hdrop, hleading, fraction_append hfrac (hexpo.head hk),
    exponent_append hexpo hk, Option.bind_eq_bind, Option.bind_some, Bool.false_eq_true, if_false,
    Option.pure_def, signText, append_assoc]

theorem number_digits (hds : Digits ds) (k : List Char) :
    number (ds ++ k) = unsignedNumber false (ds ++ k) := by
  obtain ⟨d, ds, rfl⟩ := exists_cons_of_ne_nil hds.ne_nil
  have hd := hds.isDigit d mem_cons_self
  rw [number.eq_def]
  split
  · next heq => cases heq; exact absurd hd (by decide)
  · rfl

theorem number_real {text : List Char} (h : RealText text) (hk : Follows k) :
    number (text ++ k) = some (.real (String.ofList text), k) := by
  obtain ⟨negative, ds, frac, expo, hds, hfrac, hexpo, hreal, rfl⟩ := h
  have hparts : ¬ (frac.isEmpty && expo.isEmpty && !(negative && ds == ['0'])) = true := by
    intro hint
    simp only [Bool.and_eq_true, List.isEmpty_iff, Bool.not_eq_true'] at hint
    obtain ⟨rfl, rfl⟩ := hreal hint.1.1 hint.1.2
    exact absurd hint.2 (by decide)
  have hread := unsignedNumber_append negative hds hfrac hexpo hk
  rw [if_neg hparts] at hread
  cases negative with
  | true => simpa [number, signText] using hread
  | false =>
    rw [signText, if_neg Bool.false_ne_true, nil_append, append_assoc,
      number_digits hds.toDigits, append_assoc]
    exact hread

/-! ### Integers -/

theorem digitsValue_toDigits (n : Nat) : digitsValue (Nat.toDigits 10 n) = n :=
  Nat.ofDigitChars_toDigits (by decide) (by decide)

theorem natural_toDigits (n : Nat) : Natural (Nat.toDigits 10 n) where
  ne_nil := Nat.toDigits_ne_nil
  isDigit _ hc := Nat.isDigit_of_mem_toDigits (by decide) (by decide) hc
  leading := by
    -- A leading zero of a longer number would be one of the number without its last digit.
    induction n using Nat.strongRecOn with
    | _ n ih =>
      intro hhead
      rcases Nat.lt_or_ge n 10 with hn | hn
      · rw [Nat.toDigits_of_lt_base hn] at hhead ⊢
        rw [Option.some.inj hhead]
      · rw [Nat.toDigits_of_base_le (by decide) hn, head?_append_of_ne_nil _ Nat.toDigits_ne_nil]
          at hhead
        have hvalue := congrArg digitsValue (ih (n / 10) (by omega) hhead)
        rw [digitsValue_toDigits] at hvalue
        have : digitsValue ['0'] = 0 := rfl
        omega

theorem toDigits_ne_zero {n : Nat} (h : n ≠ 0) : Nat.toDigits 10 n ≠ ['0'] := by
  intro hzero
  have hvalue := congrArg digitsValue hzero
  rw [digitsValue_toDigits] at hvalue
  exact h hvalue

theorem toList_toString (i : Int) :
    (toString i).toList = signText (decide (i < 0)) ++ Nat.toDigits 10 i.natAbs := by
  change i.repr.toList = _
  rw [Int.repr_eq_if]
  split
  · next h =>
    have hsign : ¬ i < 0 := by omega
    have habs : i.toNat = i.natAbs := by omega
    simp [hsign, signText, habs, Nat.toList_repr]
  · next h =>
    have hsign : i < 0 := by omega
    have habs : (-i).toNat = i.natAbs := by omega
    simp [hsign, signText, habs, Nat.toList_repr]

theorem number_int (i : Int) (hk : Follows k) :
    number ((toString i).toList ++ k) = some (.int i, k) := by
  have hds := natural_toDigits i.natAbs
  have hread := unsignedNumber_append (decide (i < 0)) hds (.inl rfl) (.inl rfl) hk
  rw [toList_toString]
  rcases Int.lt_or_le i 0 with hneg | hpos
  · have hne : Nat.toDigits 10 i.natAbs ≠ ['0'] := toDigits_ne_zero (by omega)
    have hi : -(i.natAbs : Int) = i := by omega
    simp only [hneg, decide_true, nil_append, isEmpty_nil, beq_eq_false_iff_ne.2 hne,
      digitsValue_toDigits, hi, Bool.and_false, Bool.not_false, Bool.and_true, if_true] at hread
    simpa [hneg, signText, number] using hread
  · have hsign : ¬ i < 0 := by omega
    have hi : (i.natAbs : Int) = i := by omega
    simp only [hsign, decide_false, nil_append, isEmpty_nil, digitsValue_toDigits, hi,
      Bool.false_and, Bool.not_false, Bool.and_true, if_true, Bool.false_eq_true, if_false] at hread
    rw [decide_eq_false hsign, signText, if_neg Bool.false_ne_true, nil_append,
      number_digits hds.toDigits]
    exact hread

end Numbers

/-! ## Values -/

mutual

/-- The texts of the real numbers in a value are numbers. -/
def Proper : Json → Prop
  | .real text => RealText text.toList
  | .arr items => ItemsProper items
  | .obj members => MembersProper members
  | .null | .bool _ | .int _ | .str _ | .unreadable => True

def ItemsProper : List Json → Prop
  | [] => True
  | j :: js => Proper j ∧ ItemsProper js

def MembersProper : List (String × Json) → Prop
  | [] => True
  | (_, j) :: ms => Proper j ∧ MembersProper ms

end

def StartsNumber (c : Char) : Prop := c = '-' ∨ c.isDigit

/-- A number starts with no blank and with no character that starts or ends another value. -/
theorem StartsNumber.ne (h : StartsNumber c) :
    isBlank c = false ∧ c ∉ ['[', ']', '\x7b', '\x7d', '"', 'n', 't', 'f'] := by
  obtain rfl | hdigit := h
  · decide
  · constructor
    · simp only [isBlank, Bool.or_eq_false_iff, beq_eq_false_iff_ne, ne_eq]
      refine ⟨⟨⟨?_, ?_⟩, ?_⟩, ?_⟩ <;> (rintro rfl; revert hdigit; decide)
    · simp only [mem_cons, not_mem_nil, or_false]
      rintro (rfl | rfl | rfl | rfl | rfl | rfl | rfl | rfl) <;> revert hdigit <;> decide

theorem Natural.startsNumber {ds : List Char} (h : Natural ds) (negative : Bool) :
    ∃ c cs, signText negative ++ ds = c :: cs ∧ StartsNumber c := by
  obtain ⟨d, ds, rfl⟩ := exists_cons_of_ne_nil h.ne_nil
  cases negative with
  | true => exact ⟨_, _, rfl, .inl rfl⟩
  | false => exact ⟨_, _, rfl, .inr (h.isDigit d mem_cons_self)⟩

theorem RealText.startsNumber {text : List Char} (h : RealText text) :
    ∃ c cs, text = c :: cs ∧ StartsNumber c := by
  obtain ⟨negative, ds, frac, expo, hds, -, -, -, rfl⟩ := h
  obtain ⟨c, cs, heq, hc⟩ := hds.startsNumber negative
  exact ⟨c, cs ++ (frac ++ expo), by rw [← append_assoc, heq, cons_append], hc⟩

theorem startsNumber_toString (i : Int) : ∃ c cs, (toString i).toList = c :: cs ∧ StartsNumber c := by
  rw [toList_toString]
  exact (natural_toDigits i.natAbs).startsNumber _

theorem value_number (h : StartsNumber c) (fuel : Nat) (cs : List Char) :
    value (fuel + 1) (c :: cs) = number (c :: cs) := by
  obtain ⟨hblank, hne⟩ := h.ne
  have hskip : skipBlanks (c :: cs) = c :: cs := by simp [skipBlanks, hblank]
  simp only [mem_cons, not_mem_nil, or_false, not_or] at hne
  rw [value, hskip]
  split
  · next heq => cases heq; exact absurd rfl hne.1
  · next heq => cases heq; exact absurd rfl hne.2.2.1
  · rw [scalar.eq_def]
    split
    · next heq => cases heq; exact absurd rfl hne.2.2.2.2.2.1
    · next heq => cases heq; exact absurd rfl hne.2.2.2.2.2.2.1
    · next heq => cases heq; exact absurd rfl hne.2.2.2.2.2.2.2
    · next heq => cases heq; exact absurd rfl hne.2.2.2.2.1
    · rfl

/-- A text that starts with neither a blank nor the end of an array or object. -/
def Opens (text : List Char) : Prop :=
  ∃ c cs, text = c :: cs ∧ isBlank c = false ∧ c ≠ ']' ∧ c ≠ '\x7d'

theorem opens_write {j : Json} (hj : j.Proper) (k : List Char) : Opens (write j k) := by
  have number {text : List Char} (h : ∃ c cs, text = c :: cs ∧ StartsNumber c) :
      Opens (text ++ k) := by
    obtain ⟨c, cs, rfl, hc⟩ := h
    obtain ⟨hblank, hne⟩ := hc.ne
    exact ⟨c, cs ++ k, rfl, hblank, by rintro rfl; simp at hne, by rintro rfl; simp at hne⟩
  cases j with
  | null | str s | unreadable => exact ⟨_, _, rfl, by decide, by decide, by decide⟩
  | bool b => cases b <;> exact ⟨_, _, rfl, by decide, by decide, by decide⟩
  | int i => rw [write]; exact number (startsNumber_toString i)
  | real text => rw [write]; exact number (RealText.startsNumber (by simpa [Proper] using hj))
  | arr items =>
    cases items with
    | nil => exact ⟨_, _, rfl, by decide, by decide, by decide⟩
    | cons j js => exact ⟨_, _, by rw [write], by decide, by decide, by decide⟩
  | obj members =>
    cases members with
    | nil => exact ⟨_, _, rfl, by decide, by decide, by decide⟩
    | cons m ms => exact ⟨_, _, by rw [write], by decide, by decide, by decide⟩

theorem length_lt_writeString (s : String) (k : List Char) :
    k.length + 1 < (writeString s k).length := by
  simp only [writeString, length_cons, length_append]
  omega

mutual

theorem length_lt_write : ∀ (j : Json), j.Proper → ∀ k, k.length < (write j k).length
  | .null, _, k | .bool true, _, k | .bool false, _, k | .unreadable, _, k | .arr [], _, k
  | .obj [], _, k => by
    simp only [write, length_cons]
    omega
  | .int i, _, k => by
    obtain ⟨c, cs, heq, -⟩ := startsNumber_toString i
    simp only [write, heq, length_append, length_cons]
    omega
  | .real text, hj, k => by
    rw [Proper] at hj
    obtain ⟨c, cs, heq, -⟩ := hj.startsNumber
    simp only [write, heq, length_append, length_cons]
    omega
  | .str s, _, k => by
    rw [write]
    exact Nat.lt_of_succ_lt (length_lt_writeString s k)
  | .arr (j :: js), hj, k => by
    rw [Proper, ItemsProper] at hj
    have hjs := length_lt_writeItems js hj.2 k
    have hfirst := length_lt_write j hj.1 (writeItems js k)
    rw [write, length_cons]
    omega
  | .obj ((name, j) :: ms), hj, k => by
    rw [Proper, MembersProper] at hj
    have hms := length_lt_writeMembers ms hj.2 k
    have hfirst := length_lt_write j hj.1 (writeMembers ms k)
    have hname := length_lt_writeString name (':' :: write j (writeMembers ms k))
    rw [length_cons] at hname
    rw [write, length_cons]
    omega

theorem length_lt_writeItems : ∀ (js : List Json), ItemsProper js → ∀ k,
    k.length < (writeItems js k).length
  | [], _, k => by simp [writeItems]
  | j :: js, hj, k => by
    rw [ItemsProper] at hj
    have hjs := length_lt_writeItems js hj.2 k
    have hfirst := length_lt_write j hj.1 (writeItems js k)
    rw [writeItems, length_cons]
    omega

theorem length_lt_writeMembers : ∀ (ms : List (String × Json)), MembersProper ms → ∀ k,
    k.length < (writeMembers ms k).length
  | [], _, k => by simp [writeMembers]
  | (name, j) :: ms, hj, k => by
    rw [MembersProper] at hj
    have hms := length_lt_writeMembers ms hj.2 k
    have hfirst := length_lt_write j hj.1 (writeMembers ms k)
    have hname := length_lt_writeString name (':' :: write j (writeMembers ms k))
    rw [length_cons] at hname
    rw [writeMembers, length_cons]
    omega

end

theorem follows_writeItems (js : List Json) (k : List Char) : Follows (writeItems js k) := by
  intro c hc
  cases js with
  | nil | cons j js => rw [writeItems] at hc; cases hc; decide

theorem follows_writeMembers (ms : List (String × Json)) (k : List Char) :
    Follows (writeMembers ms k) := by
  intro c hc
  cases ms with
  | nil | cons m ms => rw [writeMembers] at hc; cases hc; decide

theorem skipBlanks_cons (h : isBlank c = false) (cs : List Char) :
    skipBlanks (c :: cs) = c :: cs := by simp [skipBlanks, h]

theorem ofMembers_some (ms : List (String × Json)) :
    ofMembers (ms.map fun m => (some m.1, m.2)) = .obj ms := by
  have hmap : (ms.map fun m => (some m.1, m.2)).mapM
      (fun (m : Option String × Json) => m.1.map (·, m.2)) = some ms := by
    induction ms with
    | nil => rfl
    | cons m ms ih => simp [mapM_cons, ih]
  simp only [ofMembers, hmap]

theorem value_items {fuel : Nat} {cs rest : List Char} {js : List Json}
    (hcs : Opens cs) (hread : items fuel cs = some (js, rest)) :
    value (fuel + 1) ('[' :: cs) = some (.arr js, rest) := by
  obtain ⟨c, cs, rfl, hblank, hclose, -⟩ := hcs
  rw [value, skipBlanks_cons (by decide)]
  split
  · next heq =>
    cases heq
    rw [skipBlanks_cons hblank]
    split
    · next heq => cases heq; exact absurd rfl hclose
    · rw [hread, Option.map_some]
  · next heq => cases heq
  · next hother _ => exact absurd rfl (hother _)

theorem value_members {fuel : Nat} {name : String} {cs rest : List Char} {ms : List (String × Json)}
    (hread : members fuel (writeString name cs) = some (ms.map fun m => (some m.1, m.2), rest)) :
    value (fuel + 1) ('\x7b' :: writeString name cs) = some (.obj ms, rest) := by
  rw [value]
  change (members fuel (writeString name cs)).map _ = _
  rw [hread, Option.map_some]
  dsimp only
  rw [ofMembers_some]

section Steps

variable {fuel : Nat} {cs rest rest' : List Char} {j : Json} {name : String}

theorem value_string {text : Option String} (h : stringBody cs = some (text, rest)) :
    value (fuel + 1) ('"' :: cs) = some (text.elim .unreadable .str, rest) := by
  rw [value]
  change (stringBody cs).map _ = _
  rw [h, Option.map_some]

theorem items_last (hj : value fuel cs = some (j, ']' :: rest)) :
    items (fuel + 1) cs = some ([j], rest) := by
  rw [items, hj]
  rfl

theorem items_more {js : List Json} (hj : value fuel cs = some (j, ',' :: rest))
    (hjs : items fuel rest = some (js, rest')) : items (fuel + 1) cs = some (j :: js, rest') := by
  rw [items, hj]
  change (items fuel rest).map _ = _
  rw [hjs, Option.map_some]

theorem members_last (hj : value fuel cs = some (j, '\x7d' :: rest)) :
    members (fuel + 1) (writeString name (':' :: cs)) = some ([(some name, j)], rest) := by
  rw [writeString, members]
  change (stringBody _).bind _ = _
  rw [stringBody_escaped]
  change (value fuel cs).bind _ = _
  rw [hj]
  rfl

theorem members_more {ms : List (Option String × Json)} (hj : value fuel cs = some (j, ',' :: rest))
    (hms : members fuel rest = some (ms, rest')) :
    members (fuel + 1) (writeString name (':' :: cs)) = some ((some name, j) :: ms, rest') := by
  rw [writeString, members]
  change (stringBody _).bind _ = _
  rw [stringBody_escaped]
  change (value fuel cs).bind _ = _
  rw [hj]
  change (members fuel rest).map _ = _
  rw [hms, Option.map_some]

end Steps

theorem stringBody_surrogate (k : List Char) :
    stringBody ('\\' :: 'u' :: 'd' :: '8' :: '0' :: '0' :: '"' :: k) = some (none, k) := by
  have hunit : codeUnit? 'd' '8' '0' '0' = some 0xd800 := by decide
  simp [stringBody, codePoints, hunit, joinSurrogates]

-- The fuel falls by one where the text may not get shorter, from a value to its items and from these to
-- the first of them; so twice the length of what was written is enough.
mutual

theorem value_write : ∀ (j : Json), j.Proper → ∀ k fuel, Follows k →
    2 * (write j k).length ≤ fuel + 2 * k.length → value fuel (write j k) = some (j, k)
  | j, hj, k, 0, _, hfuel => by
    have := length_lt_write j hj k
    omega
  | .null, _, k, fuel + 1, _, _ | .bool true, _, k, fuel + 1, _, _
  | .bool false, _, k, fuel + 1, _, _ | .arr [], _, k, fuel + 1, _, _
  | .obj [], _, k, fuel + 1, _, _ => by
    rw [write, value]
    rfl
  | .unreadable, _, k, fuel + 1, _, _ => by
    rw [write]
    exact value_string (stringBody_surrogate k)
  | .int i, _, k, fuel + 1, hk, _ => by
    have hread := number_int i hk
    obtain ⟨c, cs, heq, hc⟩ := startsNumber_toString i
    rw [heq] at hread
    rw [write, heq, cons_append, value_number hc]
    exact hread
  | .real text, hj, k, fuel + 1, hk, _ => by
    rw [Proper] at hj
    have hread := number_real hj hk
    rw [String.ofList_toList] at hread
    obtain ⟨c, cs, heq, hc⟩ := hj.startsNumber
    rw [heq] at hread
    rw [write, heq, cons_append, value_number hc]
    exact hread
  | .str s, _, k, fuel + 1, _, _ => by
    rw [write, writeString]
    exact value_string (stringBody_escaped s k)
  | .arr (j :: js), hj, k, fuel + 1, _, hfuel => by
    rw [Proper, ItemsProper] at hj
    rw [write, length_cons] at hfuel
    rw [write]
    exact value_items (opens_write hj.1 _) (items_write js j hj.1 hj.2 k fuel (by omega))
  | .obj ((name, j) :: ms), hj, k, fuel + 1, _, hfuel => by
    rw [Proper, MembersProper] at hj
    rw [write, length_cons] at hfuel
    rw [write]
    exact value_members (members_write ms name j hj.1 hj.2 k fuel (by omega))

theorem items_write : ∀ (js : List Json) (j : Json), j.Proper → ItemsProper js → ∀ k fuel,
    2 * (write j (writeItems js k)).length < fuel + 2 * k.length →
    items fuel (write j (writeItems js k)) = some (j :: js, k)
  | js, j, hj, hjs, k, 0, hfuel => by
    have := length_lt_writeItems js hjs k
    have := length_lt_write j hj (writeItems js k)
    omega
  | [], j, hj, _, k, fuel + 1, hfuel => by
    have hlength := length_lt_writeItems [] trivial k
    exact items_last (value_write j hj (writeItems [] k) fuel (follows_writeItems [] k) (by omega))
  | j' :: js, j, hj, hjs, k, fuel + 1, hfuel => by
    have hlength := length_lt_writeItems (j' :: js) hjs k
    have hfirst := length_lt_write j hj (writeItems (j' :: js) k)
    have hread := value_write j hj (writeItems (j' :: js) k) fuel (follows_writeItems _ k) (by omega)
    have hmore : (writeItems (j' :: js) k).length = (write j' (writeItems js k)).length + 1 := by
      rw [writeItems, length_cons]
    rw [ItemsProper] at hjs
    exact items_more (hread.trans (by rw [writeItems]))
      (items_write js j' hjs.1 hjs.2 k fuel (by omega))

theorem members_write : ∀ (ms : List (String × Json)) (name : String) (j : Json), j.Proper →
    MembersProper ms → ∀ k fuel,
    2 * (writeString name (':' :: write j (writeMembers ms k))).length < fuel + 2 * k.length →
    members fuel (writeString name (':' :: write j (writeMembers ms k))) =
      some (((name, j) :: ms).map fun m => (some m.1, m.2), k)
  | ms, name, j, hj, hms, k, 0, hfuel => by
    have := length_lt_writeMembers ms hms k
    have := length_lt_write j hj (writeMembers ms k)
    have := length_lt_writeString name (':' :: write j (writeMembers ms k))
    rw [length_cons] at this
    omega
  | [], name, j, hj, _, k, fuel + 1, hfuel => by
    have hname := length_lt_writeString name (':' :: write j (writeMembers [] k))
    have hlength := length_lt_writeMembers [] trivial k
    rw [length_cons] at hname
    exact members_last
      (value_write j hj (writeMembers [] k) fuel (follows_writeMembers [] k) (by omega))
  | (name', j') :: ms, name, j, hj, hms, k, fuel + 1, hfuel => by
    have hname := length_lt_writeString name (':' :: write j (writeMembers ((name', j') :: ms) k))
    have hlength := length_lt_writeMembers ((name', j') :: ms) hms k
    have hfirst := length_lt_write j hj (writeMembers ((name', j') :: ms) k)
    rw [length_cons] at hname
    have hread := value_write j hj (writeMembers ((name', j') :: ms) k) fuel
      (follows_writeMembers _ k) (by omega)
    have hmore : (writeMembers ((name', j') :: ms) k).length =
        (writeString name' (':' :: write j' (writeMembers ms k))).length + 1 := by
      rw [writeMembers, length_cons]
    rw [MembersProper] at hms
    exact members_more (hread.trans (by rw [writeMembers]))
      (members_write ms name' j' hms.1 hms.2 k fuel (by omega))

end

theorem parse?_render {j : Json} (hj : j.Proper) : parse? j.render = some j := by
  have hread : value (2 * (write j []).length + 2) (write j []) = some (j, []) :=
    value_write j hj [] _ nofun (by simp)
  simp [parse?, render, String.toList_ofList, hread, skipBlanks]

end MxStar.Json
