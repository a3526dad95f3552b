import Mathlib.Algebra.Group.Int.Defs
import Mathlib.Algebra.Group.Nat.Defs
import MxStar.Proofs.CodeRuns
import MxStar.Proofs.HeapBlocks

/-!
Arrays that `new` allocates.

Arrays of arrays are placed one after another, so their lengths and the first address determine the words that
memory grows by (`arrayImage`, `Memory.GrownBy`). Control comes back to the head of the loop with one more
element filled in (`fillArray_fills`), and by induction on the dimensions all arrays are there where the
expression goes on (`newArray_builds_arrays`).
-/
namespace MxStar.Interp

open IR List

/-! ## Words at the end of memory -/

namespace Memory

variable {m m' m'' : Memory} {a w : Word} {ws vs : List Word} {b j k : Nat}

def HasWords (m : Memory) (b : Nat) (ws : List Word) : Prop :=
  ∀ j w, ws[j]? = some w → m.readWord (Int64.ofNat (b + 8 * j)) = .ok w

theorem hasWords_append :
    m.HasWords b (ws ++ vs) ↔ m.HasWords b ws ∧ m.HasWords (b + 8 * ws.length) vs := by
  refine ⟨fun h => ⟨fun j w hj => h j w ?_, fun j w hj => ?_⟩, fun ⟨h, h'⟩ j w hj => ?_⟩
  · rw [getElem?_append_left (List.getElem?_eq_some_iff.1 hj).1, hj]
  · rw [Nat.add_assoc, ← Nat.mul_add]
    exact h _ w (by rw [getElem?_append_right (by omega), Nat.add_sub_cancel_left, hj])
  · rcases Nat.lt_or_ge j ws.length with hlt | hge
    · exact h j w (by rwa [getElem?_append_left hlt] at hj)
    · rw [getElem?_append_right hge] at hj
      have hread := h' _ w hj
      rwa [Nat.add_assoc, ← Nat.mul_add, Nat.add_sub_cancel' hge] at hread

theorem HasWords.piece {g : Nat → List Word} {n size : Nat} (hg : ∀ k, (g k).length = size)
    (h : m.HasWords b ((range n).flatMap g)) (hk : k < n) : m.HasWords (b + 8 * (k * size)) (g k) := by
  induction n with
  | zero => omega
  | succ n ih =>
    rw [range_succ, flatMap_append, hasWords_append] at h
    rcases Nat.lt_succ_iff_lt_or_eq.1 hk with hlt | rfl
    · exact ih h.1 hlt
    · simpa only [length_flatMap, hg, map_const', sum_replicate_nat, length_range,
        flatMap_singleton] using h.2

/-- A word is read in memory that has the same bytes there, and perhaps more behind. -/
theorem readWord_of_le (h : m.readWord a = .ok w) (hsize : m.size ≤ m'.size)
    (hbytes : ∀ k, Covers a k → m'.bytes[k]? = m.bytes[k]?) : m'.readWord a = .ok w := by
  obtain ⟨hplace, hword⟩ := readWord_eq_ok.1 h
  obtain ⟨h8, hin, -, hfit⟩ := place_eq_ok hplace
  refine readWord_eq_ok.2 ⟨place_position h8 (by omega) hfit (by decide), fun k hk => ?_⟩
  rw [hbytes _ ⟨by omega, by omega⟩, hword k hk]

/-- Memory has grown by some words: what was there is as it was. -/
structure GrownBy (m m' : Memory) (ws : List Word) : Prop where
  size : m'.size = m.nextAddress + 8 * ws.length
  old : ∀ k, k < m.size → m'.bytes[k]? = m.bytes[k]?
  words : m'.HasWords m.nextAddress ws

theorem GrownBy.nextAddress (h : m.GrownBy m' ws) : m'.nextAddress = m.nextAddress + 8 * ws.length := by
  have hdvd := m.dvd_nextAddress
  rw [Memory.nextAddress, h.size]
  omega

theorem GrownBy.append (h : m.GrownBy m' ws) (h' : m'.GrownBy m'' vs) (hfit : m''.size < 2 ^ 63) :
    m.GrownBy m'' (ws ++ vs) := by
  have hsize := h.size
  have hsize' := h'.size
  have hnext := h.nextAddress
  have hle := m.size_le_nextAddress
  refine ⟨by rw [length_append]; omega, fun k hk => ?_, hasWords_append.2 ⟨fun j w hj => ?_, ?_⟩⟩
  · rw [h'.old k (by omega), h.old k hk]
  · have hj' := (List.getElem?_eq_some_iff.1 hj).1
    refine readWord_of_le (h.words j w hj) (by omega) fun k hk => h'.old k ?_
    have hhigh := hk.2
    rw [position_ofNat_lt (by omega)] at hhigh
    omega
  · rw [← hnext]
    exact h'.words

variable (hroom : 8 ≤ m.size)

include hroom

theorem grownBy_zeros {n : Nat} (hfit : m.nextAddress + 8 * n < 2 ^ 63) :
    m.GrownBy (m.extend (replicate (8 * n) 0)) (replicate n 0) := by
  have hle := m.size_le_nextAddress
  have hsize := m.size_extend (replicate (8 * n) 0)
  rw [length_replicate] at hsize
  refine ⟨by simpa using hsize, fun _ => getElem?_extend_old, fun j w hj => ?_⟩
  rw [getElem?_replicate] at hj
  obtain ⟨hj, ⟨⟩⟩ := Option.ite_none_right_eq_some.1 hj
  have hpos : position (Int64.ofNat (m.nextAddress + 8 * j)) = m.nextAddress + 8 * j :=
    position_ofNat_lt (by omega)
  refine readWord_eq_ok.2 ⟨place_position (by omega) (by omega) (by omega) (by decide), fun k hk => ?_⟩
  have hzeros : wordBytes 0 = replicate 8 0 := by decide
  rw [hpos, Nat.add_assoc, getElem?_extend_new, getElem?_replicate_of_lt (by omega), hzeros,
    getElem?_replicate_of_lt hk]

theorem GrownBy.write (h : m.GrownBy m' ws) (hfit : m'.size < 2 ^ 63) (hj : j < ws.length) (w : Word) :
    ∃ m'', m'.writeWord (Int64.ofNat (m.nextAddress + 8 * j)) w = .ok m'' ∧
      m.GrownBy m'' (ws.set j w) := by
  have hle := m.size_le_nextAddress
  have hsize := h.size
  have hpos {i : Nat} (hi : i < ws.length) :
      position (Int64.ofNat (m.nextAddress + 8 * i)) = m.nextAddress + 8 * i :=
    position_ofNat_lt (by omega)
  have hposj := hpos hj
  have hplace : m'.place (Int64.ofNat (m.nextAddress + 8 * j)) 8 = .ok _ :=
    place_position (by omega) (by omega) (by omega) (by decide)
  obtain ⟨m'', hw⟩ := exists_writeWord hplace w
  refine ⟨m'', hw, by rw [size_writeWord hw, length_set, hsize], fun k hk => ?_, fun i v hi => ?_⟩
  · rw [getElem?_writeWord hw, if_neg (by unfold Covers; omega), h.old k hk]
  · rw [getElem?_set] at hi
    split at hi
    · next heq =>
      subst heq
      cases hi
      exact readWord_writeWord hw
    · next hne =>
      have hposi := hpos (List.getElem?_eq_some_iff.1 hi).1
      rw [readWord_congr (size_writeWord hw), h.words i v hi]
      intro k hk
      rw [getElem?_writeWord hw, if_neg]
      unfold Covers at hk ⊢
      omega

end Memory

/-! ## Arrays in memory -/

def element (a : Word) (k : Nat) : Word := a + Int64.ofNat (8 * k + 8)

def arrayBlock (a n : Word) : HeapBlock := ⟨a, 8 * n.toInt.toNat + 8, none⟩

/-- Arrays of arrays, given the length of each dimension, with the blocks that they take: an array has its
length and then its elements, and behind the last dimension the elements are zero. -/
def IsArray (m : Memory) : List Word → Word → List HeapBlock → Prop
  | [], a, bs => a = 0 ∧ bs = []
  | n :: ns, a, bs => m.readWord a = .ok n ∧ ∃ elems : List (Word × List HeapBlock),
      elems.length = n.toInt.toNat ∧ bs = arrayBlock a n :: elems.flatMap Prod.snd ∧
      ∀ k x, elems[k]? = some x → m.readWord (element a k) = .ok x.1 ∧ IsArray m ns x.1 x.2

def arrayWords : List Word → Nat
  | [] => 0
  | n :: ns => n.toInt.toNat + 1 + n.toInt.toNat * arrayWords ns

/-- What an element is: the word for it, and the words and blocks of the arrays that it refers to. -/
structure Image where
  ref : Word
  words : List Word
  blocks : List HeapBlock

/-- An array, and behind it those that its first `k` elements refer to. -/
def filling (n : Word) (elem : Nat → Image) (k : Nat) : List Word :=
  (n :: ((range k).map fun j => (elem j).ref) ++ replicate (n.toInt.toNat - k) 0) ++
    (range k).flatMap fun j => (elem j).words

/-- Arrays that are placed one after another, from an address on. -/
def arrayImage : List Word → Nat → Image
  | [], _ => ⟨0, [], []⟩
  | n :: ns, b =>
    let elem k := arrayImage ns (b + 8 * (n.toInt.toNat + 1 + k * arrayWords ns))
    ⟨Int64.ofNat b, filling n elem n.toInt.toNat,
      arrayBlock (Int64.ofNat b) n :: (range n.toInt.toNat).flatMap fun k => (elem k).blocks⟩

section Images

variable {m : Memory} {n : Word} {elem : Nat → Image} {k size : Nat}

theorem length_filling (helem : ∀ j, (elem j).words.length = size) (hk : k ≤ n.toInt.toNat) :
    (filling n elem k).length = n.toInt.toNat + 1 + k * size := by
  simp only [filling, length_append, length_cons, length_map, length_range, length_replicate,
    length_flatMap, helem, map_const', sum_replicate_nat]
  omega

theorem length_arrayImage (ns : List Word) (b : Nat) : (arrayImage ns b).words.length = arrayWords ns := by
  induction ns generalizing b with
  | nil => rfl
  | cons n ns ih => exact length_filling (fun j => ih _) (Nat.le_refl _)

theorem filling_succ (hk : k < n.toInt.toNat) :
    (filling n elem k ++ (elem k).words).set (k + 1) (elem k).ref = filling n elem (k + 1) := by
  obtain ⟨left, hleft⟩ := Nat.exists_eq_add_of_lt hk
  have hzeros : n.toInt.toNat - k = left + 1 := by omega
  have hzeros' : n.toInt.toNat - (k + 1) = left := by omega
  simp only [filling, hzeros, hzeros', range_succ, replicate_succ]
  simp [set_append_right]

/-- Behind the elements filled in so far, the words of the next one are placed, and its place is written. -/
theorem grownBy_filling_succ {m0 m1 m2 : Memory} (helem : ∀ j, (elem j).words.length = size)
    (hk : k < n.toInt.toNat) (h1 : m0.GrownBy m1 (filling n elem k)) (h2 : m1.GrownBy m2 (elem k).words)
    (hroom : 8 ≤ m0.size)
    (hfit : m0.nextAddress + 8 * (n.toInt.toNat + 1 + n.toInt.toNat * size) < 2 ^ 63) :
    ∃ m, m2.writeWord (element (Int64.ofNat m0.nextAddress) k) (elem k).ref = .ok m ∧
      m0.GrownBy m (filling n elem (k + 1)) := by
  have hlength := length_filling helem (Nat.le_of_lt hk)
  have hmul : (k + 1) * size ≤ n.toInt.toNat * size := Nat.mul_le_mul_right _ hk
  rw [Nat.succ_mul] at hmul
  have hnext := h1.nextAddress
  have hsize := h2.size
  rw [hlength] at hnext
  rw [helem] at hsize
  obtain ⟨m, hw, hgrown⟩ := (h1.append h2 (by omega)).write hroom (by omega)
    (show k + 1 < _ by rw [length_append, hlength]; omega) (elem k).ref
  rw [filling_succ hk] at hgrown
  have haddr : element (Int64.ofNat m0.nextAddress) k = Int64.ofNat (m0.nextAddress + 8 * (k + 1)) :=
    (Int64.ofNat_add ..).symm
  exact ⟨m, haddr ▸ hw, hgrown⟩

/-- Where the image of arrays is, there are the arrays. -/
theorem isArray_arrayImage (ns : List Word) (b : Nat) (h : m.HasWords b (arrayImage ns b).words) :
    IsArray m ns (arrayImage ns b).ref (arrayImage ns b).blocks := by
  induction ns generalizing b with
  | nil => exact ⟨rfl, rfl⟩
  | cons n ns ih =>
    obtain ⟨hrow, helems⟩ := Memory.hasWords_append.1 h
    let elem k := arrayImage ns (b + 8 * (n.toInt.toNat + 1 + k * arrayWords ns))
    refine ⟨hrow 0 n rfl, (range n.toInt.toNat).map fun k => ((elem k).ref, (elem k).blocks),
      by rw [length_map, length_range], by rw [flatMap_map]; rfl, fun k x hx => ?_⟩
    obtain ⟨hk, rfl⟩ := List.getElem?_eq_some_iff.1 hx
    rw [length_map, length_range] at hk
    rw [getElem_map, getElem_range]
    refine ⟨?_, ih _ ?_⟩
    · change m.readWord (Int64.ofNat b + Int64.ofNat (8 * k + 8)) = .ok (elem k).ref
      rw [← Int64.ofNat_add]
      refine hrow (k + 1) _ ?_
      rw [cons_append, getElem?_cons_succ, getElem?_append_left (by rwa [length_map, length_range]),
        getElem?_map, getElem?_range hk]
      rfl
    · have hpiece := helems.piece (fun j => length_arrayImage ns _) hk
      rw [length_append, length_cons, length_map, length_range, length_replicate, Nat.sub_self,
        Nat.add_zero, Nat.add_assoc, ← Nat.mul_add] at hpiece
      exact hpiece

/-- The blocks of arrays lie apart from each other, among the words of the arrays. -/
theorem blocks_arrayImage (ns : List Word) (b : Nat) (hb : 8 ∣ b) (hfit : b + 8 * arrayWords ns < 2 ^ 63) :
    (∀ x ∈ (arrayImage ns b).blocks, 8 ∣ x.start ∧ b ≤ x.start ∧
      x.start + x.size ≤ b + 8 * arrayWords ns ∧ x.text? = none) ∧
    (arrayImage ns b).blocks.Pairwise HeapBlock.Apart := by
  induction ns generalizing b with
  | nil => exact ⟨fun x hx => absurd hx not_mem_nil, .nil⟩
  | cons n ns ih =>
    rw [arrayWords, Nat.mul_add] at hfit ⊢
    have hstart : (arrayBlock (Int64.ofNat b) n).start = b := Memory.position_ofNat_lt (by omega)
    have hsize : (arrayBlock (Int64.ofNat b) n).size = 8 * n.toInt.toNat + 8 := rfl
    -- The arrays of an element end where those of the next one begin.
    have helem {j k : Nat} (hjk : j < k) : j * arrayWords ns + arrayWords ns ≤ k * arrayWords ns := by
      rw [← Nat.succ_mul]
      exact Nat.mul_le_mul_right _ hjk
    have hih {k : Nat} (hk : k < n.toInt.toNat) :=
      ih (b + 8 * (n.toInt.toNat + 1 + k * arrayWords ns)) (by omega) (by have := helem hk; omega)
    simp only [arrayImage, forall_mem_cons, mem_flatMap, mem_range, pairwise_cons, pairwise_flatMap]
    refine ⟨⟨⟨by omega, by omega, by omega, rfl⟩, ?_⟩, ?_, fun k hk => (hih hk).2, ?_⟩
    · rintro x ⟨k, hk, hx⟩
      obtain ⟨hdvd, hlow, hhigh, htext⟩ := (hih hk).1 x hx
      have := helem hk
      exact ⟨hdvd, by omega, by omega, htext⟩
    · rintro x ⟨k, hk, hx⟩
      have hlow := ((hih hk).1 x hx).2.1
      exact .inl (by omega)
    · refine pairwise_lt_range.imp_of_mem fun {j k} hj hk hjk x hx y hy => .inl ?_
      have hhigh := ((hih (mem_range.1 hj)).1 x hx).2.2.1
      have hlow := ((hih (mem_range.1 hk)).1 y hy).2.1
      have := helem hjk
      omega

/-- Blocks that are behind all that was there are handed out with what was before. -/
theorem HeapHolds.grown {m m' : Memory} {h bs : List HeapBlock} (hm : HeapHolds m h)
    (hsize : m.size ≤ m'.size) (hold : ∀ k, k < m.size → m'.bytes[k]? = m.bytes[k]?)
    (hbs : ∀ x ∈ bs, 8 ∣ x.start ∧ m.size ≤ x.start ∧ x.start + x.size ≤ m'.size ∧ x.text? = none)
    (hapart : bs.Pairwise HeapBlock.Apart) : HeapHolds m' (bs ++ h) := by
  have hroom := hm.room
  refine ⟨by omega, fun x hx => ?_, pairwise_append.2 ⟨hapart, hm.apart, fun x hx y hy => .inr ?_⟩,
    fun x hx s hs => ?_⟩
  · rcases mem_append.1 hx with hx | hx
    · obtain ⟨hdvd, hlow, hhigh, -⟩ := hbs x hx
      exact ⟨hdvd, by omega, hhigh⟩
    · obtain ⟨hdvd, hlow, hhigh⟩ := hm.inside x hx
      exact ⟨hdvd, hlow, by omega⟩
  · have hlow := (hbs x hx).2.1
    have hhigh := (hm.inside y hy).2.2
    omega
  · rcases mem_append.1 hx with hx | hx
    · rw [(hbs x hx).2.2.2] at hs
      cases hs
    · obtain ⟨hlen, hbytes⟩ := hm.texts x hx s hs
      refine ⟨hlen, fun k hk => ?_⟩
      have hhigh := (hm.inside x hx).2.2
      rw [hold _ (by omega), hbytes k hk]

end Images

end MxStar.Interp

namespace MxStar.Lowering

open MxStar.Tree IR Interp List

/-! ## The code that allocates an array -/

/-- An operand that is a constant, or a register below some number, and its value. -/
def Dimension (fr : Frame) (regs : Nat) (o : Operand) (n : Word) : Prop :=
  o = .imm n ∨ ∃ v, o = .vreg v ∧ v < regs ∧ fr.reg v = some n

/-- Some code goes on in the current block and in new blocks. -/
structure Appends (d d' : Draft) : Prop where
  regs : d.regs ≤ d'.regs
  size : d.size ≤ d'.size
  inside : d'.current < d'.size
  grows : ∀ b, d.code b <+: d'.code b
  others : ∀ b, b < d.size → b ≠ d.current → b ≠ d'.current ∧ d'.code b = d.code b

namespace Appends

variable {f : Func} {d d' d'' : Draft}

theorem refl (hd : d.current < d.size) : Appends d d :=
  ⟨Nat.le_refl _, Nat.le_refl _, hd, fun _ => prefix_rfl, fun _ _ hne => ⟨hne, rfl⟩⟩

theorem trans (h : Appends d d') (h' : Appends d' d'') : Appends d d'' where
  regs := Nat.le_trans h.regs h'.regs
  size := Nat.le_trans h.size h'.size
  inside := h'.inside
  grows b := (h.grows b).trans (h'.grows b)
  others b hb hne := by
    obtain ⟨hne', heq⟩ := h.others b hb hne
    obtain ⟨hne'', heq'⟩ := h'.others b (Nat.lt_of_lt_of_le hb h.size) hne'
    exact ⟨hne'', heq'.trans heq⟩

theorem addReg (h : Appends d d') (hint : String) : Appends d (d'.addReg hint) :=
  { h with regs := by rw [Draft.regs_addReg]; exact Nat.le_succ_of_le h.regs }

theorem emit (h : Appends d d') (i : Instr) : Appends d (d'.emit i) where
  regs := h.regs
  size := by simpa using h.size
  inside := by simpa using h.inside
  grows b := (h.grows b).trans (d'.code_prefix_emit h.inside i b)
  others b hb hne := by
    obtain ⟨hne', heq⟩ := h.others b hb hne
    exact ⟨hne', by rw [d'.code_emit h.inside, if_neg hne'.symm, heq]⟩

theorem addBlock (h : Appends d d') (name : String) : Appends d (d'.addBlock name) where
  regs := h.regs
  size := by simpa using Nat.le_succ_of_le h.size
  inside := by
    rw [Draft.size_addBlock]
    exact Nat.lt_succ_of_lt h.inside
  grows b := by simpa [d'.code_addBlock] using h.grows b
  others b hb hne := by simpa [d'.code_addBlock] using h.others b hb hne

theorem goto (h : Appends d d') {b : BlockId} (hb : d.size ≤ b ∧ b < d'.size) : Appends d (d'.goto b) :=
  { h with
    inside := hb.2
    others := fun b' hb' hne => ⟨Nat.ne_of_lt (Nat.lt_of_lt_of_le hb' hb.1), (h.others b' hb' hne).2⟩ }

theorem within (h : Appends d d') (hf : d'.Within f) : d.Within f := fun b => (h.grows b).trans (hf b)

end Appends

variable {p : IR.Program} {f : Func} {d d' : Draft} {c c0 : Config} {r array i v : VReg} {n : Word}
  {len : Operand} {fr0 : Frame} {regs0 : Nat} {ns : List Word}

theorem span?_eq (hn : 0 ≤ n.toInt ∧ 8 * n.toInt + 8 < 2 ^ 63) :
    span? n = some (n * 8 + 8) ∧ (n * 8 + 8).toInt = 8 * n.toInt + 8 := by
  have hfits : ∀ x : Int, 0 ≤ x → x < 2 ^ 63 → Text.Decimal.fit? x = some (Int64.ofInt x) := by
    intro x hx hlt
    refine if_pos ?_
    rw [Bool.and_eq_true, decide_eq_true_eq, decide_eq_true_eq, Int64.toInt_minValue, Int64.toInt_maxValue]
    omega
  have hspan : span? n = some (Int64.ofInt (n.toInt * 8 + 8)) := by
    rw [span?, hfits _ (by omega) (by omega), Option.bind_eq_bind, Option.bind_some,
      Int64.toInt_ofInt_of_le (by omega) (by omega), hfits _ (by omega) (by omega)]
  rw [← eq_of_span? hspan, Int64.toInt_ofInt_of_le (by omega) (by omega)]
  exact ⟨hspan, by omega⟩

def Agrees (fr0 : Frame) (regs0 : Nat) (c : Config) : Prop := ∀ v, v < regs0 → c.frame.reg v = fr0.reg v

theorem Dimension.value {m : Machine} (hlen : Dimension fr0 regs0 len n) (h : Agrees fr0 regs0 c) :
    value m c.frame len = .ok n := by
  rcases hlen with rfl | ⟨v, rfl, hlt, hv⟩
  · rfl
  · exact value_vreg.2 ((h v hlt).trans hv)

theorem arrayBytes_runs (loc : Location) (hd : d.current < d.size) (hlen : Dimension fr0 regs0 len n)
    (hn : 0 ≤ n.toInt ∧ 8 * n.toInt + 8 < 2 ^ 63) :
    ∃ bytes d', (arrayBytes len loc).run d = .ok (bytes, d') ∧ Appends d d' ∧
      ∀ c, d'.Within f → At f d c → d'.regs ≤ c.frame.regs.size → Agrees fr0 regs0 c →
        ∃ c', Passes p (· < d.regs) c c' ∧ At f d' c' ∧ c'.machine = c.machine ∧
          Interp.value c'.machine c'.frame bytes = .ok (n * 8 + 8) := by
  by_cases himm : len = .imm n
  · subst himm
    refine ⟨.imm (n * 8 + 8), d, ?_, .refl hd, fun c _ hc _ _ => ⟨c, .refl c, hc, rfl, rfl⟩⟩
    simp only [arrayBytes, (span?_eq hn).1]
    rfl
  · have hrun : (arrayBytes len loc).run d = .ok (.vreg (d.regs + 1),
        (((d.addReg "bytes").emit (.binary (.vreg d.regs) .shl len (.imm 3))).addReg "bytes").emit
          (.binary (.vreg (d.regs + 1)) .add (.vreg d.regs) (.imm 8))) := by
      obtain ⟨v, rfl, -⟩ := hlen.resolve_left himm
      rw [← d.regs_addReg "bytes"]
      rfl
    refine ⟨_, _, hrun, ((((Appends.refl hd).addReg _).emit _).addReg _).emit _,
      fun c hf hc hregs hsame => ?_⟩
    simp only [Draft.regs_emit, Draft.regs_addReg] at hregs
    obtain ⟨c1, h1, hat1, hm1, hreg1⟩ := (at_addReg.2 hc).binary (p := p) hd
      (hf.of_emit (by simpa using hd)) (show d.regs < _ by omega) (hlen.value hsame) rfl rfl rfl
    obtain ⟨c2, h2, hat2, hm2, hreg2⟩ := (at_addReg.2 hat1).binary (p := p) (by simpa using hd) hf
      (show d.regs + 1 < _ by rw [h1.size]; omega) (value_vreg.2 hreg1) rfl rfl rfl
    refine ⟨c2, (h1.mono fun v hv => ?_).trans h2 fun v hv => ?_, hat2, hm2.trans hm1, value_vreg.2 ?_⟩
    · exact Nat.ne_of_lt hv
    · exact Nat.ne_of_lt (Nat.lt_succ_of_lt hv)
    · rw [hreg2, shl_three]

/-- Code that allocates arrays of some lengths, wherever it is put. -/
def Allocates (p : IR.Program) (f : Func) (fr0 : Frame) (regs0 : Nat) (x : Build VReg)
    (ns : List Word) : Prop :=
  ∀ d, d.current < d.size → regs0 ≤ d.regs →
    ∃ r d', x.run d = .ok (r, d') ∧ Appends d d' ∧ d.regs ≤ r ∧ r < d'.regs ∧
      ∀ c, d'.Within f → At f d c → d'.regs ≤ c.frame.regs.size → Agrees fr0 regs0 c →
        8 ≤ c.machine.memory.size → c.machine.memory.nextAddress + 8 * arrayWords ns < 2 ^ 63 →
        ∃ c', Passes p (· < d.regs) c c' ∧ At f d' c' ∧
          c'.frame.reg r = some (arrayImage ns c.machine.memory.nextAddress).ref ∧
          c.machine.memory.GrownBy c'.machine.memory (arrayImage ns c.machine.memory.nextAddress).words

theorem words_zeros (n : Word) (b : Nat) :
    (arrayImage [n] b).words = n :: replicate n.toInt.toNat 0 := by
  simp [arrayImage, filling]

theorem allocArray_allocates (loc : Location) (hlen : Dimension fr0 regs0 len n)
    (hn : 0 ≤ n.toInt ∧ 8 * n.toInt + 8 < 2 ^ 63) : Allocates p f fr0 regs0 (allocArray len loc) [n] := by
  intro d hd hregs0
  obtain ⟨bytes, d1, hrun, happ, hsem⟩ := arrayBytes_runs (p := p) (f := f) loc hd hlen hn
  refine ⟨d1.regs, ((d1.addReg "array").emit
    (.call (some (.vreg d1.regs)) (.builtin .malloc) [bytes] 0)).emit
    (.store (.base (.vreg d1.regs) 0) len), run_bind_eq_ok.2 ⟨bytes, d1, hrun, rfl⟩,
    ((happ.addReg _).emit _).emit _, happ.regs, by simp, fun c hf hc hregs hsame hroom hfit => ?_⟩
  have hf1 := hf.of_emit (by simpa using happ.inside)
  simp only [Draft.regs_emit, Draft.regs_addReg] at hregs
  obtain ⟨c1, h1, hat1, hm1, hbytes⟩ := hsem c (hf1.of_emit happ.inside) hc (by omega) hsame
  have hsize := (span?_eq hn).2
  obtain ⟨c2, h2, hat2, hm2, hreg2⟩ := (at_addReg.2 hat1).malloc (p := p) happ.inside hf1
    (show d1.regs < _ by rw [h1.size]; omega) hbytes (by omega)
  have hpass : Passes p (· < d.regs) c c2 :=
    h1.trans h2 fun v hv => Nat.ne_of_lt (Nat.lt_of_lt_of_le hv happ.regs)
  have hlen2 : Interp.value c2.machine c2.frame len = .ok n :=
    hlen.value fun v hv => (hpass.regs v (Nat.lt_of_lt_of_le hv hregs0)).trans (hsame v hv)
  -- The block has zeros, and its first word becomes the length.
  have hzeros := Memory.grownBy_zeros hroom hfit
  rw [show 8 * arrayWords [n] = (n * 8 + 8).toInt.toNat by simp only [arrayWords]; omega, ← hm1,
    ← hm2] at hzeros
  obtain ⟨mem, hw, hgrown⟩ := hzeros.write (hm1 ▸ hroom)
    (by rw [hzeros.size, length_replicate, hm1]; exact hfit)
    (show 0 < _ by rw [length_replicate, arrayWords]; omega) n
  obtain ⟨c3, h3, hat3, hm3⟩ := hat2.store (p := p) (by simpa using happ.inside) hf (value_vreg.2 hreg2)
    hlen2 (by rw [Int64.add_zero]; exact hw)
  refine ⟨c3, hpass.trans h3 fun _ _ => trivial, hat3, (h3.regs _ trivial).trans (hm1 ▸ hreg2), ?_⟩
  rw [hm3, ← hm1]
  rw [words_zeros]
  exact hgrown

/-! ## The loop that fills an array -/

/-- The draft at the head of the loop that fills an array. -/
def Draft.fillHead (d : Draft) : Draft :=
  ((((((d.addReg "i").emit (.move (.vreg d.regs) (.imm 0))).addBlock "new_cond").addBlock
    "new_body").addBlock "new_end").emit (.jump d.size)).goto d.size

theorem Draft.goto_fillHead (d : Draft) : d.fillHead.goto d.size = d.fillHead := rfl

def Draft.forFill (d : Draft) (len : Operand) : Draft :=
  (d.fillHead.emit (.branch .lt (.vreg d.regs) len (d.size + 1) (d.size + 2))).goto (d.size + 1)

/-- The draft after an element of an array is stored, where `i` counts the elements. -/
def Draft.store (d : Draft) (array i v : VReg) : Draft :=
  (((((d.addReg "off").emit (.binary (.vreg d.regs) .shl (.vreg i) (.imm 3))).addReg "elem").emit
    (.binary (.vreg (d.regs + 1)) .add (.vreg array) (.vreg d.regs))).emit
    (.store (.base (.vreg (d.regs + 1)) 8) (.vreg v))).emit
    (.binary (.vreg i) .add (.vreg i) (.imm 1))

theorem run_fillArray {element : Build VReg} {d1 : Draft}
    (h : element.run (d.forFill len) = .ok (v, d1)) :
    (fillArray array len element).run d =
      .ok ((), ((d1.store array d.regs v).emit (.jump d.size)).goto (d.size + 2)) := by
  rw [fillArray, run_fresh, run_emit, run_newBlock, run_newBlock, run_newBlock, jump, run_emit,
    run_switchTo, run_emit, run_switchTo]
  simp only [Draft.size_emit, Draft.size_addReg, Draft.size_addBlock]
  refine run_bind_eq_ok.2 ⟨v, d1, h, ?_⟩
  rw [run_fresh, run_emit, run_fresh, run_emit, run_emit, run_emit, run_emit, Draft.store,
    ← d1.regs_addReg "off"]
  rfl

theorem appends_fillHead (hd : d.current < d.size) : Appends d d.fillHead := by
  have hlt : d.size < d.size + 3 := by omega
  exact (((((((Appends.refl hd).addReg _).emit _).addBlock _).addBlock _).addBlock _).emit _).goto
    ⟨Nat.le_refl _, Nat.lt_of_lt_of_eq hlt (by simp)⟩

theorem appends_forFill (hd : d.current < d.size) (len : Operand) : Appends d (d.forFill len) :=
  ((appends_fillHead hd).emit _).goto ⟨Nat.le_succ _, by simp [Draft.fillHead]⟩

theorem Appends.store (h : Appends d d') (array i v : VReg) (t : BlockId) :
    Appends d ((d'.store array i v).emit (.jump t)) :=
  ((((((h.addReg _).emit _).addReg _).emit _).emit _).emit _).emit _

theorem Draft.code_fillHead (hd : d.current < d.size) {b : BlockId} (hb : d.size ≤ b) :
    d.fillHead.code b = [] := by
  have hne : d.current ≠ b := Nat.ne_of_lt (Nat.lt_of_lt_of_le hd hb)
  change Draft.code (Draft.emit _ _) b = _
  rw [Draft.code_emit _ ((((((Appends.refl hd).addReg _).emit _).addBlock _).addBlock _).addBlock _).inside,
    Draft.code_addBlock, Draft.code_addBlock, Draft.code_addBlock, Draft.code_emit (d.addReg "i") hd]
  exact (if_neg hne).trans ((if_neg hne).trans (d.func.code_eq_nil hb))

theorem Draft.code_forFill (hd : d.current < d.size) (len : Operand) {b : BlockId} (hb : d.size < b) :
    (d.forFill len).code b = [] := by
  change Draft.code (Draft.emit _ _) b = []
  rw [Draft.code_emit _ (appends_fillHead hd).inside]
  exact (if_neg (Nat.ne_of_lt hb)).trans (Draft.code_fillHead hd (Nat.le_of_lt hb))

theorem At.addBlock (hc : At f d c) (name : String) : At f (d.addBlock name) c :=
  ⟨hc.func, hc.block, by rw [Draft.code_addBlock]; exact hc.code⟩

theorem fillHead_runs (hd : d.current < d.size) (hf : d.fillHead.Within f) (hc : At f d c)
    (hregs : d.regs < c.frame.regs.size) :
    ∃ c', Passes p (· < d.regs) c c' ∧ At f d.fillHead c' ∧ c'.machine = c.machine ∧
      c'.frame.reg d.regs = some 0 := by
  have happ := (Appends.refl (((Appends.refl hd).addReg "i").emit (.move (.vreg d.regs) (.imm 0))).inside
    |>.addBlock "new_cond").addBlock "new_body" |>.addBlock "new_end"
  obtain ⟨c1, h1, hat1, hm1, hreg1⟩ := (at_addReg.2 hc).define (p := p) hd
    ((happ.emit (.jump d.size)).within hf) ⟨rfl, rfl⟩ hregs fun _ => rfl
  obtain ⟨c2, h2, hat2, hm2⟩ := (((hat1.addBlock "new_cond").addBlock "new_body").addBlock "new_end").jump
    (p := p) happ.inside hf (Draft.code_fillHead hd (Nat.le_refl _))
  exact ⟨c2, (h1.mono fun v hv => Nat.ne_of_lt hv).trans h2 fun _ _ => trivial, hat2, hm2.trans hm1,
    (h2.regs _ trivial).trans hreg1⟩

theorem store_runs {a w : Word} {k : Nat} {mem : Memory} {head : Draft} {t : BlockId}
    (hd : d.current < d.size) (hf : ((d.store array i v).emit (.jump t)).Within f) (hc : At f d c)
    (hregs : d.regs + 2 ≤ c.frame.regs.size) (hlt : i < d.regs ∧ array < d.regs ∧ v < d.regs)
    (hi : c.frame.reg i = some (Int64.ofNat k)) (harray : c.frame.reg array = some a)
    (hv : c.frame.reg v = some w) (hw : c.machine.memory.writeWord (element a k) w = .ok mem)
    (hhead : head.code t = []) :
    ∃ c', Passes p (· < i) c c' ∧ At f (head.goto t) c' ∧ c'.machine.memory = mem ∧
      c'.frame.reg i = some (Int64.ofNat (k + 1)) := by
  have hf4 := hf.of_emit (by simpa [Draft.store] using hd)
  have hf3 := hf4.of_emit (by simpa using hd)
  have hf2 := hf3.of_emit (by simpa using hd)
  have hf1 : (Draft.emit (d.addReg "off") _).Within f := hf2.of_emit (by simpa using hd)
  obtain ⟨hi', harray', hv'⟩ := hlt
  obtain ⟨c1, h1, hat1, hm1, hreg1⟩ := (at_addReg.2 hc).binary (p := p) hd hf1
    (show d.regs < _ by omega) (value_vreg.2 hi) rfl rfl rfl
  obtain ⟨c2, h2, hat2, hm2, hreg2⟩ := (at_addReg.2 hat1).binary (p := p) (by simpa using hd) hf2
    (show d.regs + 1 < _ by rw [h1.size]; omega)
    (value_vreg.2 ((h1.regs _ (Nat.ne_of_lt harray')).trans harray)) (value_vreg.2 hreg1) rfl rfl
  have h12 : Passes p (· < d.regs) c c2 :=
    (h1.mono fun v hv => Nat.ne_of_lt hv).trans h2 fun v hv => Nat.ne_of_lt (Nat.lt_succ_of_lt hv)
  have haddr : a + Int64.ofNat k <<< (3 &&& 63 : Word) + 8 = element a k := by
    rw [shl_three, element, Int64.ofNat_add, Int64.ofNat_mul, Int64.mul_comm, Int64.add_assoc]
    rfl
  obtain ⟨c3, h3, hat3, hm3⟩ := hat2.store (p := p) (by simpa using hd) hf3 (value_vreg.2 hreg2)
    (value_vreg.2 ((h12.regs _ hv').trans hv)) (by rw [haddr, hm2, hm1]; exact hw)
  have h13 := h12.trans h3 fun _ _ => trivial
  obtain ⟨c4, h4, hat4, hm4, hreg4⟩ := hat3.binary (p := p) (by simpa using hd) hf4
    (h13.size ▸ Nat.lt_of_lt_of_le hi' (Nat.le_of_add_right_le hregs))
    (value_vreg.2 ((h13.regs i hi').trans hi)) rfl rfl rfl
  obtain ⟨c5, h5, hat5, hm5⟩ := hat4.jump (p := p) (by simpa using hd) hf hhead
  refine ⟨c5, ((h13.mono fun v hv => Nat.lt_trans hv hi').trans h4 fun v hv => Nat.ne_of_lt hv).trans h5
    fun _ _ => trivial, hat5, by rw [hm5, hm4, hm3], ?_⟩
  rw [h5.regs _ trivial, hreg4, Int64.ofNat_add]
  rfl

/-- At the head of the loop, control goes on with the next element if there is one. -/
theorem fillHead_branch {k : Nat} {b : BlockId} (hd : d.current < d.size) (hf : (d.forFill len).Within f)
    (hc : At f d.fillHead c) (hi : c.frame.reg d.regs = some (Int64.ofNat k))
    (hlen : value c.machine c.frame len = .ok n) (hk : k ≤ n.toInt.toNat)
    (hb : b = if k < n.toInt.toNat then d.size + 1 else d.size + 2) (hempty : d'.code b = []) :
    ∃ c', Passes p (fun _ => True) c c' ∧ At f (d'.goto b) c' ∧ c'.machine = c.machine := by
  have hcond : CmpOp.lt.eval (Int64.ofNat k) n = decide (k < n.toInt.toNat) := by
    have hlt := n.toInt_lt
    refine decide_eq_decide.2 ?_
    rw [Int64.lt_iff_toInt_lt, Int64.toInt_ofNat_of_lt (by omega)]
    omega
  have hf' : (d.fillHead.emit (.branch .lt (.vreg d.regs) len (d.size + 1) (d.size + 2))).Within f := hf
  refine hc.branch (appends_fillHead hd).inside hf' (value_vreg.2 hi) hlen ?_ hempty
  rw [hcond, hb]
  simp only [decide_eq_true_eq]

theorem fillArray_fills {x : Build VReg} (hx : Allocates p f fr0 regs0 x ns) (hd : d.current < d.size)
    (hlen : Dimension fr0 regs0 len n) (hregs0 : regs0 ≤ d.regs) (harray : array < d.regs) :
    ∃ d', (fillArray array len x).run d = .ok ((), d') ∧ Appends d d' ∧
      ∀ c (m0 : Memory), d'.Within f → At f d c → d'.regs ≤ c.frame.regs.size → Agrees fr0 regs0 c →
        c.frame.reg array = some (Int64.ofNat m0.nextAddress) → 8 ≤ m0.size →
        m0.nextAddress + 8 * arrayWords (n :: ns) < 2 ^ 63 →
        m0.GrownBy c.machine.memory (arrayImage [n] m0.nextAddress).words →
        ∃ c', Passes p (· < d.regs) c c' ∧ At f d' c' ∧
          m0.GrownBy c'.machine.memory (arrayImage (n :: ns) m0.nextAddress).words := by
  have hhead := appends_fillHead hd
  have hbody := appends_forFill hd len
  have hnew : (d.forFill len).regs = d.regs + 1 := by simp [Draft.forFill, Draft.fillHead]
  have hsize : (d.forFill len).size = d.size + 3 := by simp [Draft.forFill, Draft.fillHead]
  obtain ⟨v, d1, hrun, happ, -, hv, hsem⟩ := hx _ hbody.inside (Nat.le_trans hregs0 hbody.regs)
  have hstore := (Appends.refl happ.inside).store array d.regs v d.size
  have happ' := happ.trans hstore
  have hend : d.size + 2 < Draft.size ((d1.store array d.regs v).emit (.jump d.size)) :=
    Nat.lt_of_lt_of_le (by omega) happ'.size
  refine ⟨_, run_fillArray hrun, (hbody.trans happ').goto ⟨Nat.le_add_right _ 2, hend⟩, ?_⟩
  intro c m0 hf hc hregs hsame hreg hroom hfit hzeros
  have hf1 : (d.forFill len).Within f := happ'.within hf
  have hlt := happ.regs
  rw [hnew] at hlt hsem
  have hregs1 : d1.regs + 2 ≤ c.frame.regs.size := by
    simpa only [Draft.store, Draft.regs_goto, Draft.regs_emit, Draft.regs_addReg] using hregs
  have hempty1 :
      (d.fillHead.emit (.branch .lt (.vreg d.regs) len (d.size + 1) (d.size + 2))).code (d.size + 1) = [] :=
    Draft.code_forFill hd len (Nat.lt_succ_self _)
  have hempty2 : ((d1.store array d.regs v).emit (.jump d.size)).code (d.size + 2) = [] :=
    (happ'.others _ (by omega) (Nat.ne_of_gt (Nat.lt_succ_self (d.size + 1)))).2.trans
      (Draft.code_forFill hd len (by omega))
  rw [arrayWords] at hfit
  let elem k := arrayImage ns (m0.nextAddress + 8 * (n.toInt.toNat + 1 + k * arrayWords ns))
  have helem : ∀ j, (elem j).words.length = arrayWords ns := fun _ => length_arrayImage ns _
  have hsame' {c' : Config} (h : Passes p (· < d.regs) c c') : Agrees fr0 regs0 c' := fun v hv =>
    (h.regs v (Nat.lt_of_lt_of_le hv hregs0)).trans (hsame v hv)
  -- Control is at the head of the loop with any number of elements filled in.
  have hloop : ∀ k, k ≤ n.toInt.toNat → ∃ c', Passes p (· < d.regs) c c' ∧ At f d.fillHead c' ∧
      c'.frame.reg d.regs = some (Int64.ofNat k) ∧ m0.GrownBy c'.machine.memory (filling n elem k) := by
    intro k hk
    induction k with
    | zero =>
      obtain ⟨c1, h1, hat1, hm1, hi1⟩ :=
        fillHead_runs (p := p) hd (hf1.of_emit hhead.inside) hc (by omega)
      rw [← hm1] at hzeros
      rw [words_zeros] at hzeros
      exact ⟨c1, h1, hat1, hi1, by simpa [filling] using hzeros⟩
    | succ k ih =>
      obtain ⟨c1, h1, hat1, hi1, hgrown1⟩ := ih (by omega)
      obtain ⟨c2, h2, hat2, hm2⟩ := fillHead_branch (p := p) hd hf1 hat1 hi1 (hlen.value (hsame' h1))
        (by omega) (if_pos hk).symm hempty1
      have h12 := h1.trans h2 fun _ _ => trivial
      -- The arrays of the element are placed where those of the elements before it end.
      have hnext := hgrown1.nextAddress
      rw [length_filling helem (Nat.le_of_succ_le hk), ← hm2] at hnext
      have hmul : (k + 1) * arrayWords ns ≤ n.toInt.toNat * arrayWords ns := Nat.mul_le_mul_right _ hk
      rw [Nat.succ_mul] at hmul
      have hsize1 := hgrown1.size
      have hle0 := m0.size_le_nextAddress
      obtain ⟨c3, h3, hat3, hreg3, hgrown3⟩ := hsem c2 (hstore.within hf) hat2 (by rw [h12.size]; omega)
        (hsame' h12) (by rw [hm2]; omega) (by omega)
      rw [hnext] at hreg3 hgrown3
      obtain ⟨mem, hw, hgrown⟩ := grownBy_filling_succ helem hk hgrown1 (hm2 ▸ hgrown3) hroom hfit
      have h13 : Passes p (· < d.regs) c c3 := h12.trans h3 fun v hv => Nat.lt_succ_of_lt hv
      have hcounter : c3.frame.reg d.regs = some (Int64.ofNat k) := by
        rw [h3.regs _ (Nat.lt_succ_self _), h2.regs _ trivial, hi1]
      obtain ⟨c4, h4, hat4, hm4, hi4⟩ := store_runs (p := p) happ.inside hf hat3
        (by rw [h13.size]; omega) ⟨hlt, Nat.lt_trans harray hlt, hv⟩ hcounter
        ((h13.regs _ harray).trans hreg) hreg3 hw (Draft.code_fillHead hd (Nat.le_refl _))
      rw [d.goto_fillHead] at hat4
      refine ⟨c4, h13.trans h4 fun _ hv => hv, hat4, hi4, ?_⟩
      rw [hm4]
      exact hgrown
  obtain ⟨c1, h1, hat1, hi1, hgrown⟩ := hloop _ (Nat.le_refl _)
  obtain ⟨c2, h2, hat2, hm2⟩ := fillHead_branch (p := p) hd hf1 hat1 hi1 (hlen.value (hsame' h1))
    (Nat.le_refl _) (if_neg (Nat.lt_irrefl _)).symm hempty2
  refine ⟨c2, h1.trans h2 fun _ _ => trivial, hat2, ?_⟩
  rw [hm2]
  exact hgrown

/-! ## Arrays of arrays -/

/-- By induction on the dimensions, each element of an array is made by the code for the dimensions left. -/
theorem newArray_allocates (loc : Location) {rest : List Operand}
    (hdims : Forall₂ (Dimension fr0 regs0) (len :: rest) (n :: ns))
    (hn : ∀ k ∈ n :: ns, 0 ≤ k.toInt ∧ 8 * k.toInt + 8 < 2 ^ 63) :
    Allocates p f fr0 regs0 (newArray loc len rest) (n :: ns) := by
  induction rest generalizing len n ns with
  | nil =>
    obtain ⟨hlen, hnil⟩ := forall₂_cons.1 hdims
    cases hnil
    exact allocArray_allocates loc hlen (hn n mem_cons_self)
  | cons inner rest ih =>
    obtain ⟨hlen, hdims⟩ := forall₂_cons.1 hdims
    cases hdims with
    | cons hinner hrest =>
    intro d hd hregs0
    obtain ⟨array, d1, hrun, happ, hle, hlt, hsem⟩ :=
      allocArray_allocates (p := p) (f := f) loc hlen (hn n mem_cons_self) d hd hregs0
    have hx := ih (.cons hinner hrest) fun k hk => hn k (mem_cons_of_mem _ hk)
    obtain ⟨d2, hfill, happ2, hsem2⟩ :=
      fillArray_fills hx happ.inside hlen (Nat.le_trans hregs0 happ.regs) hlt
    refine ⟨array, d2, run_bind_eq_ok.2 ⟨array, d1, hrun, run_bind_eq_ok.2 ⟨(), d2, hfill, rfl⟩⟩,
      happ.trans happ2, hle, Nat.lt_of_lt_of_le hlt happ2.regs, fun c hf hc hregs hsame hroom hfit => ?_⟩
    obtain ⟨c1, h1, hat1, hreg1, hgrown1⟩ := hsem c (happ2.within hf) hc (Nat.le_trans happ2.regs hregs)
      hsame hroom (by simp only [arrayWords] at hfit ⊢; omega)
    obtain ⟨c2, h2, hat2, hgrown2⟩ := hsem2 c1 c.machine.memory hf hat1 (h1.size ▸ hregs)
      (fun v hv => (h1.regs v (Nat.lt_of_lt_of_le hv hregs0)).trans (hsame v hv)) hreg1 hroom hfit hgrown1
    exact ⟨c2, h1.trans h2 fun v hv => Nat.lt_of_lt_of_le hv happ.regs, hat2,
      (h2.regs array hlt).trans hreg1, hgrown2⟩

/-- **`new` with several dimensions builds the arrays.** For dimensions that are constants or registers,
with lengths that are not negative and whose bytes are a word, there is code, and running it comes to
where the expression goes on, as long as all arrays together have addresses. The result is an array of
arrays of the given lengths, and those of the last dimension hold zeros. All of them lie apart from each
other and from every block that was there, behind all that was there, which is as it was. -/
theorem newArray_builds_arrays (loc : Location) {rest : List Operand} (hd : d.current < d.size)
    (hc : At f d c) (hdims : Forall₂ (Dimension c.frame d.regs) (len :: rest) (n :: ns))
    (hn : ∀ k ∈ n :: ns, 0 ≤ k.toInt ∧ 8 * k.toInt + 8 < 2 ^ 63) (hroom : 8 ≤ c.machine.memory.size)
    (hfit : c.machine.memory.nextAddress + 8 * arrayWords (n :: ns) < 2 ^ 63) :
    ∃ r d', (newArray loc len rest).run d = .ok (r, d') ∧
      (d'.Within f → d'.regs ≤ c.frame.regs.size →
        ∃ c' a bs, Steps p c c' ∧ At f d' c' ∧ c'.callers = c.callers ∧
          (∀ v, v < d.regs → c'.frame.reg v = c.frame.reg v) ∧ c'.frame.reg r = some a ∧
          IsArray c'.machine.memory (n :: ns) a bs ∧
          (∀ h, HeapHolds c.machine.memory h → HeapHolds c'.machine.memory (bs ++ h)) ∧
          (∀ b ∈ bs, c.machine.memory.size ≤ b.start) ∧
          ∀ k, k < c.machine.memory.size → c'.machine.memory.bytes[k]? = c.machine.memory.bytes[k]?) := by
  obtain ⟨r, d', hrun, -, -, -, hsem⟩ :=
    newArray_allocates (p := p) (f := f) loc hdims hn d hd (Nat.le_refl _)
  refine ⟨r, d', hrun, fun hf hregs => ?_⟩
  obtain ⟨c', hpass, hat, hreg, hgrown⟩ := hsem c hf hc hregs (fun _ _ => rfl) hroom hfit
  obtain ⟨hblocks, hapart⟩ := blocks_arrayImage _ _ c.machine.memory.dvd_nextAddress hfit
  have hle := c.machine.memory.size_le_nextAddress
  have hsize := hgrown.size
  rw [length_arrayImage] at hsize
  refine ⟨c', _, _, hpass.steps, hat, hpass.callers, hpass.regs, hreg, isArray_arrayImage _ _ hgrown.words,
    fun h hm => hm.grown (by omega) hgrown.old (fun x hx => ?_) hapart, fun x hx => ?_, hgrown.old⟩
  · obtain ⟨hdvd, hlow, hhigh, htext⟩ := hblocks x hx
    exact ⟨hdvd, by omega, by omega, htext⟩
  · have hlow := (hblocks x hx).2.1
    omega

def emptyDraft : Draft := .start (Func.create "f" "f") #[]

def enters (f : Func) : Config :=
  ⟨⟨.initial, .empty, #[], [], "", true⟩, ⟨f, Array.replicate f.vregCount none, #[], [], [], 0, f.code 0⟩, []⟩

/-- Two arrays of three elements are made by the code for `new int[2][3]`. -/
theorem newArray_builds_arrays_two : ∃ r d' c' a bs,
    (newArray ⟨0, 0⟩ (.imm 2) [.imm 3]).run emptyDraft = .ok (r, d') ∧
      Steps {} (enters d'.func) c' ∧ At d'.func d' c' ∧ c'.frame.reg r = some a ∧
      IsArray c'.machine.memory [2, 3] a bs := by
  have hat (f : Func) : At f emptyDraft (enters f) := ⟨rfl, rfl, rfl⟩
  have hdims (f : Func) :
      Forall₂ (Dimension (enters f).frame emptyDraft.regs) [.imm 2, .imm 3] [2, 3] :=
    .cons (.inl rfl) (.cons (.inl rfl) .nil)
  have hn : ∀ k ∈ [(2 : Word), 3], 0 ≤ k.toInt ∧ 8 * k.toInt + 8 < 2 ^ 63 := by
    have htwo : (2 : Word).toInt = 2 := rfl
    have hthree : (3 : Word).toInt = 3 := rfl
    rw [forall_mem_cons, forall_mem_singleton, htwo, hthree]
    omega
  have h (f : Func) := newArray_builds_arrays (p := {}) ⟨0, 0⟩ (by decide) (hat f) (hdims f)
    hn (Nat.le_refl 8) (show Memory.initial.nextAddress + _ < _ by decide)
  obtain ⟨r, d', hrun, -⟩ := h default
  obtain ⟨r', d'', hrun', hbuilds⟩ := h d'.func
  cases hrun.symm.trans hrun'
  obtain ⟨c', a, bs, hsteps, hat', -, -, hreg, harray, -⟩ :=
    hbuilds (fun _ => prefix_rfl) (Nat.le_of_eq (Array.size_replicate).symm)
  exact ⟨r, d', c', a, bs, hrun, hsteps, hat', hreg, harray⟩

end MxStar.Lowering
