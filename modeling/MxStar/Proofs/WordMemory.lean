import Mathlib.Algebra.Group.Nat.Defs
import Mathlib.Data.List.GetD
import MxStar.Proofs.PlainArithmetic

/-!
Words in a memory of bytes.

A word and its eight bytes determine each other. A `Store` gives every address a byte, and addresses wrap
around. In the memory of a running program an access may be out of bounds; what is read and what a write
leaves is said byte by byte (`Memory.readWord_eq_ok`, `Memory.getElem?_writeWord`).
-/
namespace MxStar.Interp

open IR List

variable {m m' : Memory} {a b w : Word}

/-! ## Bytes of a word -/

def natOfBytes (bs : List UInt8) : Nat := bs.foldr (fun b acc => acc * 256 + b.toNat) 0

theorem natOfBytes_cons (b : UInt8) (bs : List UInt8) :
    natOfBytes (b :: bs) = natOfBytes bs * 256 + b.toNat := rfl

theorem toNat_wordOfBytes (bs : List UInt8) :
    (wordOfBytes bs).toUInt64.toNat = natOfBytes bs % 2 ^ 64 := by
  have hfold : ∀ bs : List UInt8,
      (bs.foldr (fun (b : UInt8) (acc : UInt64) => acc * 256 + b.toUInt64) 0).toNat =
        natOfBytes bs % 2 ^ 64 := by
    intro bs
    induction bs with
    | nil => rfl
    | cons b bs ih =>
      rw [foldr_cons, UInt64.toNat_add, UInt64.toNat_mul, ih, natOfBytes_cons]
      simp only [UInt8.toNat_toUInt64, UInt64.reduceToNat]
      omega
  simpa only [wordOfBytes, UInt64.toUInt64_toInt64] using hfold bs

theorem natOfBytes_lt (bs : List UInt8) : natOfBytes bs < 256 ^ bs.length := by
  induction bs with
  | nil => decide
  | cons b bs ih =>
    have hb := b.toNat_lt
    rw [natOfBytes_cons, length_cons, Nat.pow_succ]
    omega

theorem natOfBytes_div (bs : List UInt8) (i : Nat) (hi : i < bs.length) :
    natOfBytes bs / 256 ^ i % 256 = bs[i].toNat := by
  induction bs generalizing i with
  | nil => cases hi
  | cons b bs ih =>
    have hb := b.toNat_lt
    rw [natOfBytes_cons]
    cases i with
    | zero =>
      rw [Nat.pow_zero, Nat.div_one, getElem_cons_zero]
      omega
    | succ i =>
      rw [Nat.pow_succ', ← Nat.div_div_eq_div_mul, getElem_cons_succ,
        ← ih i (Nat.lt_of_succ_lt_succ hi)]
      have hdiv : (natOfBytes bs * 256 + b.toNat) / 256 = natOfBytes bs := by omega
      rw [hdiv]

theorem length_wordBytes (w : Word) : (wordBytes w).length = 8 := by simp [wordBytes]

theorem getElem_wordBytes (w : Word) (i : Nat) (hi : i < (wordBytes w).length) :
    (wordBytes w)[i].toNat = w.toUInt64.toNat / 256 ^ i % 256 := by
  have hi' : i < 8 := by rwa [length_wordBytes] at hi
  simp only [wordBytes, getElem_map, getElem_range]
  rw [UInt64.toNat_toUInt8, UInt64.toNat_shiftRight, Nat.shiftRight_eq_div_pow]
  have hshift : (UInt64.ofNat (8 * i)).toNat % 64 = 8 * i := by
    rw [UInt64.toNat_ofNat']
    omega
  rw [hshift, Nat.pow_mul]

theorem wordBytes_wordOfBytes {bs : List UInt8} (h : bs.length = 8) :
    wordBytes (wordOfBytes bs) = bs := by
  apply ext_getElem
  · rw [length_wordBytes, h]
  · intro i hi hi'
    apply UInt8.toNat_inj.1
    have hlt : natOfBytes bs < 2 ^ 64 := by
      have hbytes := natOfBytes_lt bs
      rw [h] at hbytes
      exact Nat.lt_of_lt_of_eq hbytes (by decide)
    rw [getElem_wordBytes, toNat_wordOfBytes, Nat.mod_eq_of_lt hlt, natOfBytes_div bs i hi']

theorem wordOfBytes_wordBytes (w : Word) : wordOfBytes (wordBytes w) = w := by
  have hdigits : ∀ k n, natOfBytes ((List.range k).map fun i => UInt8.ofNat (n / 256 ^ i)) =
      n % 256 ^ k := by
    intro k
    induction k with
    | zero => intro n; rw [Nat.pow_zero, Nat.mod_one]; rfl
    | succ k ih =>
      intro n
      rw [range_succ_eq_map, map_cons, map_map, natOfBytes_cons]
      have hrest : (fun i => UInt8.ofNat (n / 256 ^ i)) ∘ Nat.succ =
          fun i => UInt8.ofNat (n / 256 / 256 ^ i) := by
        funext i
        rw [Function.comp_apply, Nat.pow_succ', Nat.div_div_eq_div_mul]
      have hmod : n % (256 * 256 ^ k) = n % 256 + 256 * (n / 256 % 256 ^ k) := Nat.mod_mul
      rw [hrest, ih, UInt8.toNat_ofNat', Nat.pow_zero, Nat.div_one, Nat.pow_succ' (m := 256),
        hmod]
      omega
  have hbytes : wordBytes w = (List.range 8).map fun i => UInt8.ofNat (w.toUInt64.toNat / 256 ^ i) := by
    apply ext_getElem
    · simp [wordBytes]
    · intro i hi hi'
      apply UInt8.toNat_inj.1
      rw [getElem_wordBytes, getElem_map, getElem_range, UInt8.toNat_ofNat']
  have hw : (wordOfBytes (wordBytes w)).toUInt64 = w.toUInt64 := by
    apply UInt64.toNat_inj.1
    have hlt := w.toUInt64.toNat_lt
    rw [toNat_wordOfBytes, hbytes, hdigits]
    omega
  exact congrArg Int64.ofUInt64 hw

/-! ## Addresses -/

def position (a : Word) : Nat := a.toUInt64.toNat

theorem position_lt (a : Word) : position a < 2 ^ 64 := a.toUInt64.toNat_lt

theorem position_inj (h : position a = position b) : a = b :=
  congrArg Int64.ofUInt64 (UInt64.toNat_inj.1 h)

theorem position_add (a b : Word) : position (a + b) = (position a + position b) % 2 ^ 64 := by
  rw [position, Int64.toUInt64_add, UInt64.toNat_add]
  rfl

theorem position_sub (a b : Word) :
    position (a - b) = (2 ^ 64 - position b + position a) % 2 ^ 64 := by
  rw [position, Int64.toUInt64_sub, UInt64.toNat_sub]
  rfl

theorem position_ofNat (k : Nat) : position (Int64.ofNat k) = k % 2 ^ 64 := by
  rw [position, Int64.toUInt64_ofNat', UInt64.toNat_ofNat']

def distance (a b : Word) : Nat := position (b - a)

theorem distance_eq (a b : Word) :
    distance a b = (2 ^ 64 - position a + position b) % 2 ^ 64 := position_sub b a

def Apart (a b : Word) : Prop := 8 ≤ distance a b ∧ 8 ≤ distance b a

instance (a b : Word) : Decidable (Apart a b) := inferInstanceAs (Decidable (_ ∧ _))

theorem Apart.symm (h : Apart a b) : Apart b a := ⟨h.2, h.1⟩

theorem distance_add_ofNat (a : Word) {k : Nat} (hk : k < 8) :
    distance a (a + Int64.ofNat k) = k := by
  have ha := position_lt a
  rw [distance_eq, position_add, position_ofNat]
  omega

theorem add_distance (a b : Word) : a + Int64.ofNat (distance a b) = b := by
  have ha := position_lt a
  have hb := position_lt b
  apply position_inj
  rw [position_add, position_ofNat, distance_eq]
  omega

/-- The bytes of a word apart from another are not among its bytes. -/
theorem Apart.le_distance (h : Apart a b) {k : Nat} (hk : k < 8) :
    8 ≤ distance a (b + Int64.ofNat k) := by
  have ha := position_lt a
  have hb := position_lt b
  obtain ⟨h1, h2⟩ := h
  rw [distance_eq] at h1 h2 ⊢
  rw [position_add, position_ofNat]
  omega

/-! ## Memory of bytes -/

abbrev Store : Type := Word → UInt8

namespace Store

def bytes (m : Store) (a : Word) : List UInt8 := (List.range 8).map fun k => m (a + Int64.ofNat k)

def read (m : Store) (a : Word) : Word := wordOfBytes (m.bytes a)

def write (m : Store) (a w : Word) : Store := fun b =>
  if distance a b < 8 then (wordBytes w).getD (distance a b) 0 else m b

variable (m : Store) (a b w : Word)

theorem read_congr {m m' : Store} (h : ∀ k, k < 8 → m (a + Int64.ofNat k) = m' (a + Int64.ofNat k)) :
    m.read a = m'.read a := by
  apply congrArg wordOfBytes
  apply map_congr_left
  intro k hk
  exact h k (mem_range.1 hk)

theorem length_bytes : (m.bytes a).length = 8 := by rw [bytes, length_map, length_range]

theorem getElem_bytes (k : Nat) (hk : k < (m.bytes a).length) :
    (m.bytes a)[k] = m (a + Int64.ofNat k) := by
  simp only [bytes, getElem_map, getElem_range]

theorem bytes_write : (m.write a w).bytes a = wordBytes w := by
  apply ext_getElem
  · rw [length_wordBytes, length_bytes]
  · intro k hk hk'
    have hk8 : k < 8 := by rwa [length_wordBytes] at hk'
    rw [getElem_bytes, write, distance_add_ofNat a hk8, if_pos hk8, getD_eq_getElem _ _ hk']

@[simp] theorem read_write : (m.write a w).read a = w := by
  rw [read, bytes_write, wordOfBytes_wordBytes]

theorem read_write_apart {a b : Word} (h : Apart a b) : (m.write a w).read b = m.read b := by
  apply read_congr
  intro k hk
  rw [write, if_neg (Nat.not_lt.2 (h.le_distance hk))]

@[simp] theorem write_read : m.write a (m.read a) = m := by
  funext b
  rw [write]
  split
  · next hb =>
    have hlt : distance a b < (m.bytes a).length := by rwa [length_bytes]
    rw [read, wordBytes_wordOfBytes (m.length_bytes a), getD_eq_getElem _ _ hlt, getElem_bytes,
      add_distance]
  · rfl

end Store

/-! ## Words of the program's memory -/

def Covers (a : Word) (k : Nat) : Prop := position a ≤ k ∧ k < position a + 8

instance (a : Word) (k : Nat) : Decidable (Covers a k) := inferInstanceAs (Decidable (_ ∧ _))

namespace Memory

theorem place_eq_ok {len n : Nat} (h : m.place a len = .ok n) :
    8 ≤ n ∧ n + len ≤ m.size ∧ position a = n ∧ n < 2 ^ 63 := by
  obtain ⟨hlow, hhigh, rfl⟩ := toInt_of_place h
  have hlt := a.toInt_lt
  have hpos : (position a : Int) = a.toInt := by
    have hcond : a.toInt = _ := BitVec.toInt_eq_toNat_cond a.toBitVec
    have hnat : position a = a.toBitVec.toNat := rfl
    split at hcond <;> omega
  omega

theorem getElem?_writeFrom (bytes : Array UInt8) (start : Nat) (bs : List UInt8) (k : Nat)
    (hk : k < bytes.size) :
    (writeFrom bytes start bs)[k]? =
      if start ≤ k ∧ k < start + bs.length then bs[k - start]? else bytes[k]? := by
  induction bs generalizing bytes start with
  | nil =>
    rw [writeFrom, if_neg]
    simp only [length_nil]
    omega
  | cons b bs ih =>
    rw [writeFrom, ih _ _ (by rwa [Array.size_setIfInBounds])]
    by_cases hstart : start = k
    · subst hstart
      rw [if_neg (by omega), if_pos (by simp), Array.getElem?_setIfInBounds_self_of_lt hk, Nat.sub_self]
      rfl
    · rw [Array.getElem?_setIfInBounds_ne hstart, length_cons]
      by_cases hin : start + 1 ≤ k ∧ k < start + 1 + bs.length
      · rw [if_pos hin, if_pos (by omega), show k - start = k - (start + 1) + 1 by omega,
          getElem?_cons_succ]
      · rw [if_neg hin, if_neg (by omega)]

theorem size_writeFrom (bytes : Array UInt8) (start : Nat) (bs : List UInt8) :
    (writeFrom bytes start bs).size = bytes.size := by
  induction bs generalizing bytes start with
  | nil => rfl
  | cons b bs ih => rw [writeFrom, ih, Array.size_setIfInBounds]

theorem writeWord_eq_ok (h : m.writeWord a w = .ok m') :
    ∃ n, m.place a 8 = .ok n ∧ m'.bytes = writeFrom m.bytes n (wordBytes w) := by
  obtain ⟨n, hn, h⟩ := Except.bind_eq_ok.1 h
  refine ⟨n, hn, ?_⟩
  rw [← Except.ok.inj h]

theorem place_eq_position {len n : Nat} (h : m.place a len = .ok n) :
    m.place a len = .ok (position a) := by
  rw [h, (place_eq_ok h).2.2.1]

theorem place_congr (h : m'.size = m.size) (a : Word) (len : Nat) :
    m'.place a len = m.place a len := by
  simp only [place, h]

theorem getElem?_slice {n len : Nat} (h : n + len ≤ m.size) (k : Nat) :
    (m.slice n len)[k]? = if k < len then m.bytes[n + k]? else none := by
  have hsize : n + len ≤ m.bytes.size := h
  have hmin : min (n + len) m.bytes.size - n = len := by omega
  rw [slice, Array.getElem?_toList, Array.getElem?_extract, hmin]

theorem readWord_eq_ok : m.readWord a = .ok w ↔
    m.place a 8 = .ok (position a) ∧ ∀ k, k < 8 → m.bytes[position a + k]? = (wordBytes w)[k]? := by
  constructor
  · intro h
    obtain ⟨n, hn, hw⟩ := Except.bind_eq_ok.1 h
    obtain ⟨-, hhigh, rfl, -⟩ := place_eq_ok hn
    have hlength : (m.slice (position a) 8).length = 8 := by
      have hin : position a + 8 ≤ m.bytes.size := hhigh
      rw [slice, Array.length_toList, Array.size_extract]
      omega
    refine ⟨hn, fun k hk => ?_⟩
    rw [← Except.ok.inj hw, wordBytes_wordOfBytes hlength, getElem?_slice hhigh, if_pos hk]
  · rintro ⟨hplace, hbytes⟩
    have hslice : m.slice (position a) 8 = wordBytes w := by
      refine ext_getElem? fun k => ?_
      rw [getElem?_slice (place_eq_ok hplace).2.1]
      split
      · next hk => exact hbytes k hk
      · next hk => exact (getElem?_eq_none (by rw [length_wordBytes]; omega)).symm
    rw [readWord, hplace, Except.ok_bind, hslice, wordOfBytes_wordBytes]
    rfl

/-- Memories of one size that have the same bytes at an address have the same word there. -/
theorem readWord_congr (hsize : m'.size = m.size)
    (h : ∀ k, Covers a k → m'.bytes[k]? = m.bytes[k]?) : m'.readWord a = m.readWord a := by
  rw [readWord, readWord, place_congr hsize]
  cases hplace : m.place a 8 with
  | error e => rfl
  | ok n =>
    obtain ⟨-, hhigh, rfl, -⟩ := place_eq_ok hplace
    have hslice : m'.slice (position a) 8 = m.slice (position a) 8 := by
      refine ext_getElem? fun k => ?_
      rw [getElem?_slice hhigh, getElem?_slice (by rwa [hsize])]
      split
      · next hk => exact h _ ⟨Nat.le_add_right _ _, Nat.add_lt_add_left hk _⟩
      · rfl
    rw [Except.ok_bind, Except.ok_bind, hslice]

theorem size_writeWord (h : m.writeWord a w = .ok m') : m'.size = m.size := by
  obtain ⟨n, -, hbytes⟩ := writeWord_eq_ok h
  rw [size, hbytes, size_writeFrom, size]

theorem exists_writeWord {n : Nat} (h : m.place a 8 = .ok n) (w : Word) :
    ∃ m', m.writeWord a w = .ok m' := by
  rw [writeWord, h]
  exact ⟨_, rfl⟩

theorem getElem?_writeWord (h : m.writeWord a w = .ok m') (k : Nat) :
    m'.bytes[k]? = if Covers a k then (wordBytes w)[k - position a]? else m.bytes[k]? := by
  have hsize : m'.bytes.size = m.bytes.size := size_writeWord h
  obtain ⟨n, hn, hbytes⟩ := writeWord_eq_ok h
  obtain ⟨-, hhigh, rfl, -⟩ := place_eq_ok hn
  have hin : position a + 8 ≤ m.bytes.size := hhigh
  by_cases hk : k < m.bytes.size
  · rw [hbytes, getElem?_writeFrom _ _ _ _ hk, length_wordBytes]
    rfl
  · rw [if_neg (fun hc : Covers a k => hk (Nat.lt_of_lt_of_le hc.2 hin)),
      Array.getElem?_eq_none (by omega), Array.getElem?_eq_none (by omega)]

theorem readWord_writeWord (hw : m.writeWord a w = .ok m') : m'.readWord a = .ok w := by
  obtain ⟨n, hn, -⟩ := writeWord_eq_ok hw
  refine readWord_eq_ok.2 ⟨?_, fun k hk => ?_⟩
  · rw [place_congr (size_writeWord hw), place_eq_position hn]
  · rw [getElem?_writeWord hw, if_pos ⟨Nat.le_add_right _ _, Nat.add_lt_add_left hk _⟩,
      Nat.add_sub_cancel_left]

end Memory

end MxStar.Interp
