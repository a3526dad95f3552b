import Mathlib.Data.List.Induction
import Mathlib.Data.List.Pairwise
import Mathlib.Logic.Relation
import MxStar.Interp.Machine
import MxStar.Proofs.WordMemory

/-!
Blocks of memory that are handed out.

Memory grows at its end: a block of zeros or a string is placed at the next multiple of eight
(`Memory.extend`), and what was there stays. `HeapHolds` says that the blocks handed out so far lie apart and
that those with a string still have its bytes.
-/
namespace MxStar.Interp

open IR List

namespace Memory

variable {m m' : Memory} {a w : Word} {bs s : List UInt8}

/-! ## Growing at the end -/

def extend (m : Memory) (bs : List UInt8) : Memory :=
  ⟨m.bytes ++ (List.replicate m.padding 0 ++ bs).toArray⟩

def stringBytes (s : List UInt8) : List UInt8 := wordBytes (Int64.ofNat s.length) ++ s ++ [0]

theorem length_stringBytes (s : List UInt8) : (stringBytes s).length = s.length + 9 := by
  simp only [stringBytes, length_append, length_wordBytes, length_singleton]
  omega

theorem alloc_eq (m : Memory) (n : Nat) :
    m.alloc n = (Int64.ofNat m.nextAddress, m.extend (List.replicate (max n 8) 0)) := by
  simp [alloc, extend]

theorem size_le_nextAddress (m : Memory) : m.size ≤ m.nextAddress := by
  rw [nextAddress]
  omega

theorem dvd_nextAddress (m : Memory) : 8 ∣ m.nextAddress := ⟨_, Nat.mul_comm _ _⟩

theorem size_extend (m : Memory) (bs : List UInt8) : (m.extend bs).size = m.nextAddress + bs.length := by
  have hle := m.size_le_nextAddress
  simp only [size] at hle
  simp only [extend, size, padding, Array.size_append, size_toArray, length_append,
    length_replicate]
  omega

theorem size_le_extend (m : Memory) (bs : List UInt8) : m.size ≤ (m.extend bs).size := by
  rw [size_extend]
  exact Nat.le_add_right_of_le m.size_le_nextAddress

theorem getElem?_extend_old {k : Nat} (hk : k < m.size) : (m.extend bs).bytes[k]? = m.bytes[k]? :=
  Array.getElem?_append_left hk

theorem getElem?_extend_new (m : Memory) (bs : List UInt8) (k : Nat) :
    (m.extend bs).bytes[m.nextAddress + k]? = bs[k]? := by
  have hle := m.size_le_nextAddress
  simp only [size] at hle
  rw [extend, Array.getElem?_append_right (by omega), getElem?_toArray,
    getElem?_append_right (by simp only [length_replicate, padding, size]; omega)]
  congr 1
  simp only [length_replicate, padding, size]
  omega

/-! ## Reading a string -/

theorem toInt_eq_position (h : position a < 2 ^ 63) : a.toInt = position a := by
  have hcond : a.toInt = _ := BitVec.toInt_eq_toNat_cond a.toBitVec
  have hnat : position a = a.toBitVec.toNat := rfl
  split at hcond <;> omega

theorem place_position {len : Nat} (h8 : 8 ≤ position a) (hin : position a + len ≤ m.size)
    (hfit : position a < 2 ^ 63) (hlen : len < 2 ^ 63) : m.place a len = .ok (position a) := by
  rw [place_eq hlen, toInt_eq_position hfit, if_neg (by omega)]
  rfl

theorem position_ofNat_lt {n : Nat} (h : n < 2 ^ 64) : position (Int64.ofNat n) = n := by
  rw [position_ofNat, Nat.mod_eq_of_lt h]

theorem readText_eq (h8 : 8 ≤ position a) (hin : position a + (s.length + 9) ≤ m.size)
    (hfit : m.size < 2 ^ 63)
    (hbytes : ∀ k, k < s.length + 9 → m.bytes[position a + k]? = (stringBytes s)[k]?) :
    m.readWord a = .ok (Int64.ofNat s.length) ∧ m.readText checks a = .ok s := by
  have hlen : (wordBytes (Int64.ofNat s.length)).length = 8 := length_wordBytes _
  have hword : m.readWord a = .ok (Int64.ofNat s.length) := by
    refine readWord_eq_ok.2 ⟨place_position h8 (by omega) (by omega) (by decide), fun k hk => ?_⟩
    rw [hbytes k (by omega), stringBytes, append_assoc, getElem?_append_left (by omega)]
  refine ⟨hword, ?_⟩
  have hs : (Int64.ofNat s.length).toInt = s.length := Int64.toInt_ofNat_of_lt (by omega)
  have hnext : position (a + 8) = position a + 8 := by
    rw [position_add, show position 8 = 8 from rfl]
    omega
  have hslice : m.slice (position a + 8) s.length = s := by
    refine ext_getElem? fun k => ?_
    rw [getElem?_slice (by omega)]
    split
    · next hk =>
      rw [show position a + 8 + k = position a + (8 + k) by omega, hbytes (8 + k) (by omega), stringBytes,
        append_assoc, getElem?_append_right (by omega), hlen, Nat.add_sub_cancel_left,
        getElem?_append_left hk]
    · next hk => exact (getElem?_eq_none (by omega)).symm
  have hstart : plainWord checks (a.toInt + 8) = .ok (a + 8) := by
    have ha := toInt_eq_position (a := a) (by omega)
    rw [plainWord_of_fits (by omega) (by omega), Int64.ofInt_add, Int64.ofInt_toInt]
    rfl
  rw [readText, hword, Except.ok_bind]
  simp only [hs, Int.toNat_natCast]
  rw [if_neg (by omega), hstart, Except.ok_bind,
    place_position (by omega) (by omega) (by omega) (by omega), hnext]
  exact congrArg Except.ok hslice

end Memory

/-! ## Blocks -/

/-- A block that was handed out, with the string that it was made for. -/
structure HeapBlock where
  ref : Word
  size : Nat
  text? : Option (List UInt8)

namespace HeapBlock

def start (b : HeapBlock) : Nat := position b.ref

def Apart (b c : HeapBlock) : Prop := b.start + b.size ≤ c.start ∨ c.start + c.size ≤ b.start

instance : Std.Symm Apart := ⟨fun _ _ => Or.symm⟩

end HeapBlock

/-- The blocks lie apart in memory, at multiples of eight, and those made for a string have its bytes. -/
structure HeapHolds (m : Memory) (h : List HeapBlock) : Prop where
  room : 8 ≤ m.size
  inside : ∀ b ∈ h, 8 ∣ b.start ∧ 8 ≤ b.start ∧ b.start + b.size ≤ m.size
  apart : h.Pairwise HeapBlock.Apart
  texts : ∀ b ∈ h, ∀ s, b.text? = some s → b.size = s.length + 9 ∧
    ∀ k, k < s.length + 9 → m.bytes[b.start + k]? = (Memory.stringBytes s)[k]?

namespace HeapHolds

variable {m m' : Memory} {h : List HeapBlock} {b : HeapBlock} {a w : Word} {s : List UInt8}

theorem extend (hm : HeapHolds m h) {bs : List UInt8} {text? : Option (List UInt8)}
    (htext : ∀ s, text? = some s → bs = Memory.stringBytes s) (hfit : (m.extend bs).size ≤ 2 ^ 63) :
    HeapHolds (m.extend bs) (⟨Int64.ofNat m.nextAddress, bs.length, text?⟩ :: h) ∧
      m.size ≤ position (Int64.ofNat m.nextAddress) := by
  have hle := m.size_le_nextAddress
  have h8 := hm.room
  have hsize := m.size_extend bs
  have hstart : position (Int64.ofNat m.nextAddress) = m.nextAddress :=
    Memory.position_ofNat_lt (by omega)
  refine ⟨⟨by omega, forall_mem_cons.2 ⟨?_, fun b hb => ?_⟩,
    pairwise_cons.2 ⟨fun b hb => .inr ?_, hm.apart⟩, forall_mem_cons.2 ⟨fun s hs => ?_, ?_⟩⟩,
    by omega⟩
  · simp only [HeapBlock.start, hstart]
    exact ⟨m.dvd_nextAddress, by omega, by omega⟩
  · have := hm.inside b hb
    exact ⟨this.1, this.2.1, by omega⟩
  · have := hm.inside b hb
    change _ ≤ position (Int64.ofNat m.nextAddress)
    omega
  · obtain rfl := htext s hs
    refine ⟨Memory.length_stringBytes s, fun k _ => ?_⟩
    rw [HeapBlock.start, hstart]
    exact m.getElem?_extend_new _ k
  · intro b hb s hs
    obtain ⟨hlen, hbytes⟩ := hm.texts b hb s hs
    refine ⟨hlen, fun k hk => ?_⟩
    have := hm.inside b hb
    rw [Memory.getElem?_extend_old (by omega)]
    exact hbytes k hk

/-- A word written inside a block that was made for no string leaves all strings alone. -/
theorem write (hm : HeapHolds m h) (hb : b ∈ h) (htext : b.text? = none) (hlow : b.start ≤ position a)
    (hhigh : position a + 8 ≤ b.start + b.size) (hw : m.writeWord a w = .ok m') : HeapHolds m' h := by
  have hsize := Memory.size_writeWord hw
  refine ⟨by rw [hsize]; exact hm.room, by rw [hsize]; exact hm.inside, hm.apart, fun c hc s hs => ?_⟩
  obtain ⟨hlen, hbytes⟩ := hm.texts c hc s hs
  have hne : b ≠ c := by
    rintro rfl
    cases htext.symm.trans hs
  have happart : b.Apart c := hm.apart.forall hb hc hne
  refine ⟨hlen, fun k hk => ?_⟩
  rw [Memory.getElem?_writeWord hw, if_neg, hbytes k hk]
  rintro ⟨hl, hr⟩
  rcases happart with h | h <;> omega

theorem readText (hm : HeapHolds m h) (hb : b ∈ h) (hs : b.text? = some s) (hfit : m.size < 2 ^ 63)
    (checks : Bool) :
    m.readWord b.ref = .ok (Int64.ofNat s.length) ∧ m.readText checks b.ref = .ok s := by
  obtain ⟨hlen, hbytes⟩ := hm.texts b hb s hs
  obtain ⟨-, h8, hin⟩ := hm.inside b hb
  exact Memory.readText_eq h8 (by rw [← hlen]; exact hin) hfit hbytes

end HeapHolds

/-! ## Routines of the runtime -/

def makesText : Builtin → Bool
  | .getString | .toString | .stringConcat | .stringSubstring => true
  | _ => false

section Runtime

variable {m m' : Machine} {args : List Word} {w : Word} {b : Builtin}

theorem allocText_eq (m : Machine) (s : List UInt8) : m.allocText s =
    (Int64.ofNat m.memory.nextAddress, { m with memory := m.memory.extend (Memory.stringBytes s) }) :=
  rfl

theorem takeToken_memory (m : Machine) : m.takeToken.2.memory = m.memory := by
  rw [Machine.takeToken]
  split <;> rfl

theorem callBuiltin_memory (h : m.callBuiltin b args = .ok (w, m')) :
    (b = .malloc ∧ w = Int64.ofNat m.memory.nextAddress ∧
        m'.memory = m.memory.extend (List.replicate (max (args.getD 0 0).toInt.toNat 8) 0)) ∨
      (makesText b = true ∧ ∃ s, w = Int64.ofNat m.memory.nextAddress ∧
        m'.memory = m.memory.extend (Memory.stringBytes s)) ∨
      b ≠ .malloc ∧ makesText b = false ∧ m'.memory = m.memory := by
  have hplaced : ∀ {m1 : Machine} {s : List UInt8}, m1.memory = m.memory → m1.allocText s = (w, m') →
      ∃ s, w = Int64.ofNat m.memory.nextAddress ∧ m'.memory = m.memory.extend (Memory.stringBytes s) := by
    intro m1 s hm heq
    rw [allocText_eq, hm] at heq
    cases heq
    exact ⟨s, rfl, rfl⟩
  cases b with
  | malloc =>
    simp only [Machine.callBuiltin] at h
    split at h
    · cases h
    · rw [Machine.alloc, Memory.alloc_eq] at h
      cases h
      exact .inl ⟨rfl, rfl, rfl⟩
  | getString => exact .inr (.inl ⟨rfl, hplaced (takeToken_memory m) (Except.ok.inj h)⟩)
  | toString => exact .inr (.inl ⟨rfl, hplaced rfl (Except.ok.inj h)⟩)
  | stringConcat =>
    obtain ⟨s, -, h⟩ := Except.bind_eq_ok.1 h
    obtain ⟨t, -, h⟩ := Except.bind_eq_ok.1 h
    exact .inr (.inl ⟨rfl, hplaced rfl (Except.ok.inj h)⟩)
  | stringSubstring =>
    obtain ⟨s, -, h⟩ := Except.bind_eq_ok.1 h
    dsimp only at h
    split at h
    · obtain ⟨address, -, h⟩ := Except.bind_eq_ok.1 h
      cases h
    · exact .inr (.inl ⟨rfl, hplaced rfl (Except.ok.inj h)⟩)
  | getInt =>
    obtain ⟨-, rfl⟩ := Prod.mk.inj (Except.ok.inj h)
    exact .inr (.inr ⟨by decide, rfl, takeToken_memory m⟩)
  | printInt | printlnInt =>
    cases h
    exact .inr (.inr ⟨by decide, rfl, rfl⟩)
  | print | println =>
    obtain ⟨s, -, h⟩ := Except.bind_eq_ok.1 h
    cases h
    exact .inr (.inr ⟨by decide, rfl, rfl⟩)
  | stringCompare | stringParseInt =>
    obtain ⟨s, -, h⟩ := Except.bind_eq_ok.1 h
    obtain ⟨t, -, h⟩ := Except.bind_eq_ok.1 h
    cases h
    exact .inr (.inr ⟨by decide, rfl, rfl⟩)
  | stringOrd =>
    obtain ⟨s, -, h⟩ := Except.bind_eq_ok.1 h
    obtain ⟨address, -, h⟩ := Except.bind_eq_ok.1 h
    dsimp only at h
    split at h <;> cases h
    exact .inr (.inr ⟨by decide, rfl, rfl⟩)

end Runtime

/-! ## Histories -/

/-- One operation of a program on its heap: a routine of the runtime, or a word written inside a block
that was made for no string. What is handed out is recorded with the string that it denotes then. -/
inductive HeapStep : Machine × List HeapBlock → Machine × List HeapBlock → Prop
  | malloc {m m' : Machine} {h : List HeapBlock} {args : List Word} {w : Word}
      (hcall : m.callBuiltin .malloc args = .ok (w, m')) :
      HeapStep (m, h) (m', ⟨w, max (args.getD 0 0).toInt.toNat 8, none⟩ :: h)
  | text {m m' : Machine} {h : List HeapBlock} {b : Builtin} {args : List Word} {w : Word}
      {s : List UInt8} (hb : makesText b = true) (hcall : m.callBuiltin b args = .ok (w, m'))
      (hs : m'.readText w = .ok s) :
      HeapStep (m, h) (m', ⟨w, s.length + 9, some s⟩ :: h)
  | other {m m' : Machine} {h : List HeapBlock} {b : Builtin} {args : List Word} {w : Word}
      (hb : b ≠ .malloc) (hb' : makesText b = false) (hcall : m.callBuiltin b args = .ok (w, m')) :
      HeapStep (m, h) (m', h)
  | write {m : Machine} {h : List HeapBlock} {mem : Memory} {b : HeapBlock} {a w : Word} (hb : b ∈ h)
      (htext : b.text? = none) (hlow : b.start ≤ position a)
      (hhigh : position a + 8 ≤ b.start + b.size) (hw : m.memory.writeWord a w = .ok mem) :
      HeapStep (m, h) ({ m with memory := mem }, h)

theorem HeapStep.size_le {x y : Machine × List HeapBlock} (hs : HeapStep x y) :
    x.1.memory.size ≤ y.1.memory.size := by
  cases hs with
  | malloc hcall | text _ hcall | other _ _ hcall =>
    rcases callBuiltin_memory hcall with ⟨-, -, hmem⟩ | ⟨-, s, -, hmem⟩ | ⟨-, -, hmem⟩
    · exact hmem ▸ Memory.size_le_extend ..
    · exact hmem ▸ Memory.size_le_extend ..
    · exact hmem ▸ Nat.le_refl _
  | write _ _ _ _ hw => exact Nat.le_of_eq (Memory.size_writeWord hw).symm

theorem HeapStep.holds {x y : Machine × List HeapBlock} (hs : HeapStep x y)
    (hx : HeapHolds x.1.memory x.2) (hfit : y.1.memory.size < 2 ^ 63) :
    HeapHolds y.1.memory y.2 ∧ ∃ new, y.2 = new ++ x.2 ∧ ∀ b ∈ new, x.1.memory.size ≤ b.start := by
  cases hs with
  | malloc hcall =>
    rcases callBuiltin_memory hcall with ⟨-, rfl, hmem⟩ | ⟨hno, -⟩ | ⟨hno, -⟩
    · dsimp only at hfit hx ⊢
      rw [hmem] at hfit ⊢
      obtain ⟨hholds, hle⟩ := hx.extend (fun s (hs : none = some s) => by cases hs) (Nat.le_of_lt hfit)
      rw [length_replicate] at hholds
      exact ⟨hholds, [_], rfl, forall_mem_singleton.2 hle⟩
    · cases hno
    · exact absurd rfl hno
  | text hb hcall hs =>
    rcases callBuiltin_memory hcall with ⟨rfl, -⟩ | ⟨-, s, rfl, hmem⟩ | ⟨-, hno, -⟩
    · cases hb
    · dsimp only at hfit hx ⊢
      rw [Machine.readText, hmem] at hs
      rw [hmem] at hfit ⊢
      obtain ⟨hholds, hle⟩ := hx.extend (fun _ => congrArg _ ∘ Option.some.inj) (Nat.le_of_lt hfit)
      cases (hholds.readText mem_cons_self rfl hfit _).2.symm.trans hs
      rw [Memory.length_stringBytes] at hholds
      exact ⟨hholds, [_], rfl, forall_mem_singleton.2 hle⟩
    · cases hb.symm.trans hno
  | other hb hb' hcall =>
    rcases callBuiltin_memory hcall with ⟨rfl, -⟩ | ⟨hyes, -⟩ | ⟨-, -, hmem⟩
    · exact absurd rfl hb
    · cases hb'.symm.trans hyes
    · exact ⟨hmem ▸ hx, [], rfl, forall_mem_nil _⟩
  | write hb htext hlow hhigh hw =>
    exact ⟨hx.write hb htext hlow hhigh hw, [], rfl, forall_mem_nil _⟩

theorem holds_of_heapSteps {x y : Machine × List HeapBlock} (hs : Relation.ReflTransGen HeapStep x y)
    (hx : HeapHolds x.1.memory x.2) (hfit : y.1.memory.size < 2 ^ 63) :
    x.1.memory.size ≤ y.1.memory.size ∧ HeapHolds y.1.memory y.2 ∧
      ∃ new, y.2 = new ++ x.2 ∧ ∀ b ∈ new, x.1.memory.size ≤ b.start := by
  induction hs with
  | refl => exact ⟨Nat.le_refl _, hx, [], rfl, forall_mem_nil _⟩
  | @tail y z _ hstep ih =>
    have hle := hstep.size_le
    obtain ⟨hxy, hy, new, hnew, hbehind⟩ := ih (by omega)
    obtain ⟨hz, new', hnew', hbehind'⟩ := hstep.holds hy hfit
    refine ⟨by omega, hz, new' ++ new, by rw [hnew', hnew, append_assoc], fun b hb => ?_⟩
    rcases mem_append.1 hb with hb | hb
    · exact Nat.le_trans hxy (hbehind' b hb)
    · exact hbehind b hb

/-! ## Statics -/

def staticText? (s : Static) : Option (List UInt8) :=
  match s.init with
  | .word => none
  | .text t => some (Text.Utf8.encode t)

theorem placeStatic_eq (m : Memory) (s : Static) : ∃ bs, 8 ≤ bs.length ∧
    (∀ t, staticText? s = some t → bs = Memory.stringBytes t) ∧
    Machine.placeStatic m s = (Int64.ofNat m.nextAddress, m.extend bs) := by
  rw [Machine.placeStatic, staticText?]
  cases s.init with
  | word => exact ⟨List.replicate 8 0, by decide, fun t ht => (by cases ht), Memory.alloc_eq m 8⟩
  | text t =>
    refine ⟨Memory.stringBytes (Text.Utf8.encode t), ?_, fun _ => congrArg _ ∘ Option.some.inj, rfl⟩
    rw [Memory.length_stringBytes]
    omega

/-- Statics that are placed one after another are the blocks of a heap. -/
theorem exists_heap_statics (l : List Static) :
    let x := l.foldl (fun x s =>
      (x.1.push (Machine.placeStatic x.2 s).1, (Machine.placeStatic x.2 s).2)) (#[], .initial)
    x.2.size ≤ 2 ^ 63 → ∃ h, HeapHolds x.2 h ∧ h.reverse.map HeapBlock.ref = x.1.toList ∧
      h.reverse.map HeapBlock.text? = l.map staticText? ∧ ∀ b ∈ h, 8 ≤ b.size := by
  induction l using List.reverseRecOn with
  | nil => exact fun _ => ⟨[], ⟨Nat.le_refl 8, by simp, .nil, by simp⟩, rfl, rfl, by simp⟩
  | append_singleton l s ih =>
    rw [foldl_append, foldl_cons, foldl_nil]
    generalize l.foldl _ _ = x at ih
    obtain ⟨A, m⟩ := x
    obtain ⟨bs, hlen, htext, hplace⟩ := placeStatic_eq m s
    simp only [hplace]
    intro hfit
    obtain ⟨h, hholds, href, htexts, hsizes⟩ := ih (Nat.le_trans (m.size_le_extend bs) hfit)
    refine ⟨_, (hholds.extend htext hfit).1, ?_, ?_, forall_mem_cons.2 ⟨hlen, hsizes⟩⟩
    · rw [reverse_cons, map_append, href, Array.toList_push, map_singleton]
    · rw [reverse_cons, map_append, htexts, map_append, map_singleton,
        map_singleton]

/-! ## Strings -/

section Strings

variable {m : Machine} {a b : Word} {s t : List UInt8}

/-- A routine ends and gives a reference that denotes a string. -/
def GivesText (x : Except RunError (Word × Machine)) (s : List UInt8) : Prop :=
  ∃ w m, x = .ok (w, m) ∧ (m.memory.size < 2 ^ 63 → m.readText w = .ok s)

theorem givesText_allocText (h8 : 8 ≤ m.memory.size) (s : List UInt8) :
    GivesText (.ok (m.allocText s)) s := by
  refine ⟨_, _, rfl, fun hfit => ?_⟩
  have hempty : HeapHolds m.memory [] := ⟨h8, by simp, .nil, by simp⟩
  have hext := (hempty.extend (fun _ => congrArg _ ∘ Option.some.inj) (Nat.le_of_lt hfit)).1
  exact (hext.readText mem_cons_self rfl hfit m.checks).2

theorem compareBytes_eq (s t : List UInt8) :
    Machine.compareBytes s t = if s < t then -1 else if s = t then 0 else 1 := by
  fun_induction Machine.compareBytes s t with
  | case1 => rfl
  | case2 => rfl
  | case3 => rfl
  | case4 a s b t hlt => rw [if_pos (cons_lt_cons_iff.2 (.inl hlt))]
  | case5 a s b t hlt hgt =>
    rw [if_neg, if_neg]
    · rintro h
      cases h
      exact hlt hgt
    · rw [cons_lt_cons_iff]
      rintro (h | h)
      · exact hlt h
      · exact hlt (h.1 ▸ hgt)
  | case6 a s b t hlt hgt ih =>
    obtain rfl : a = b := UInt8.le_antisymm (UInt8.not_lt.1 hgt) (UInt8.not_lt.1 hlt)
    simp only [ih, cons_lt_cons_iff, List.cons.injEq, true_and, hlt, false_or]

theorem malloc_eq (m : Machine) (n : Word) :
    if n.toInt < 0 then ∃ e, m.callBuiltin .malloc [n] = .error e
    else ∃ w m1, m.callBuiltin .malloc [n] = .ok (w, m1) ∧ (m1.memory.size < 2 ^ 63 →
      ∀ k < max n.toInt.toNat 8, m1.memory.bytes[position w + k]? = some 0) := by
  simp only [Machine.callBuiltin, getD_cons_zero, Machine.alloc, Memory.alloc_eq]
  split
  · exact ⟨_, rfl⟩
  · refine ⟨_, _, rfl, fun hfit k hk => ?_⟩
    have hsize := m.memory.size_extend (List.replicate (max n.toInt.toNat 8) 0)
    dsimp only at hfit
    rw [Memory.position_ofNat_lt (by omega), Memory.getElem?_extend_new, getElem?_replicate_of_lt hk]

theorem stringOrd_eq (hfit : m.memory.size < 2 ^ 63) (hs : m.readText a = .ok s) (i : Word) :
    (∀ c, 0 ≤ i.toInt → s[i.toInt.toNat]? = some c →
      m.callBuiltin .stringOrd [a, i] = .ok (Int64.ofNat c.toNat, m)) ∧
    (i.toInt < 0 ∨ s.length ≤ i.toInt → ∃ e, m.callBuiltin .stringOrd [a, i] = .error e) := by
  have haddr := Memory.toInt_of_readText hfit hs
  have hcall : m.callBuiltin .stringOrd [a, i] = (m.textAddress a i >>= fun address =>
      (if i.toInt < 0 then none else s[i.toInt.toNat]?).elim (.error (.outOfBounds address))
        fun c => .ok (Int64.ofNat c.toNat, m)) := by
    simp only [Machine.callBuiltin, getD_cons_zero, getD_cons_succ, hs, Except.ok_bind]
    congr 1
    funext address
    cases (if i.toInt < 0 then none else s[i.toInt.toNat]?) <;> rfl
  rw [hcall]
  refine ⟨fun c hi hc => ?_, fun hi => ?_⟩
  · have hlt := (List.getElem?_eq_some_iff.1 hc).1
    rw [if_neg (by omega), hc, Machine.textAddress_eq hfit hs, plainWord_of_fits (by omega) (by omega)]
    rfl
  · have hnone : (if i.toInt < 0 then none else s[i.toInt.toNat]?) = none := by
      split
      · rfl
      · exact getElem?_eq_none (by omega)
    rw [hnone]
    cases m.textAddress a i with
    | error e => exact ⟨e, rfl⟩
    | ok address => exact ⟨_, rfl⟩

theorem stringSubstring_eq (hs : m.readText a = .ok s) (h8 : 8 ≤ m.memory.size) (lo hi : Word) :
    if 0 ≤ lo.toInt ∧ lo.toInt ≤ hi.toInt ∧ hi.toInt ≤ s.length then
      GivesText (m.callBuiltin .stringSubstring [a, lo, hi]) ((s.take hi.toInt.toNat).drop lo.toInt.toNat)
    else ∃ e, m.callBuiltin .stringSubstring [a, lo, hi] = .error e := by
  simp only [Machine.callBuiltin, getD_cons_zero, getD_cons_succ, hs, Except.ok_bind]
  split
  · next h =>
    rw [if_neg (by simp only [Bool.or_eq_true, decide_eq_true_eq]; omega)]
    exact givesText_allocText h8 _
  · next h =>
    rw [if_pos (by simp only [Bool.or_eq_true, decide_eq_true_eq]; omega)]
    cases m.textAddress a hi with
    | error e => exact ⟨e, rfl⟩
    | ok address => exact ⟨_, rfl⟩

end Strings

/-- **The heap holds byte strings.** A program starts with a heap whose blocks are its statics. After
any operations that write words only inside blocks made for no string, memory being large enough to
have addresses: all blocks handed out lie apart at multiples of eight, the new ones behind everything
that was there; a block that is allocated has zeros in it; and a reference still denotes the string
that it was made for, so that the routines on strings are those on lists of bytes. -/
theorem heap_refines_byteStrings :
    (∀ p input, (Machine.start p input).memory.size < 2 ^ 63 →
      ∃ h, HeapHolds (Machine.start p input).memory h ∧
        h.reverse.map HeapBlock.ref = (Machine.start p input).statics.toList ∧
        h.reverse.map HeapBlock.text? = p.statics.toList.map staticText? ∧ ∀ b ∈ h, 8 ≤ b.size) ∧
    ∀ m h m' h', HeapHolds m.memory h → Relation.ReflTransGen HeapStep (m, h) (m', h') →
      m'.memory.size < 2 ^ 63 →
      HeapHolds m'.memory h' ∧
      (∃ new, h' = new ++ h ∧ ∀ b ∈ new, m.memory.size ≤ b.start) ∧
      (∀ n : Word, if n.toInt < 0 then ∃ e, m'.callBuiltin .malloc [n] = .error e
        else ∃ w m1, m'.callBuiltin .malloc [n] = .ok (w, m1) ∧ (m1.memory.size < 2 ^ 63 →
          ∀ k < max n.toInt.toNat 8, m1.memory.bytes[position w + k]? = some 0)) ∧
      GivesText (m'.callBuiltin .getString []) (Text.Utf8.encode (m'.input.headD "")) ∧
      (∀ n, GivesText (m'.callBuiltin .toString [n]) (Text.Utf8.encode (Text.Decimal.render n))) ∧
      ∀ b ∈ h', ∀ s, b.text? = some s →
        m'.readText b.ref = .ok s ∧
        m'.memory.readWord b.ref = .ok (Int64.ofNat s.length) ∧
        (∀ i : Word,
          (∀ c, 0 ≤ i.toInt → s[i.toInt.toNat]? = some c →
            m'.callBuiltin .stringOrd [b.ref, i] = .ok (Int64.ofNat c.toNat, m')) ∧
          (i.toInt < 0 ∨ s.length ≤ i.toInt → ∃ e, m'.callBuiltin .stringOrd [b.ref, i] = .error e)) ∧
        (∀ lo hi : Word, if 0 ≤ lo.toInt ∧ lo.toInt ≤ hi.toInt ∧ hi.toInt ≤ s.length then
            GivesText (m'.callBuiltin .stringSubstring [b.ref, lo, hi])
              ((s.take hi.toInt.toNat).drop lo.toInt.toNat)
          else ∃ e, m'.callBuiltin .stringSubstring [b.ref, lo, hi] = .error e) ∧
        ∀ c ∈ h', ∀ t, c.text? = some t →
          GivesText (m'.callBuiltin .stringConcat [b.ref, c.ref]) (s ++ t) ∧
          m'.callBuiltin .stringCompare [b.ref, c.ref] =
            .ok (if s < t then -1 else if s = t then 0 else 1, m') := by
  refine ⟨fun p input hfit => ?_, fun m h m' h' hm hrun hfit => ?_⟩
  · rw [Machine.start, ← Array.foldl_toList] at hfit ⊢
    exact exists_heap_statics p.statics.toList (Nat.le_of_lt hfit)
  obtain ⟨-, hholds, hnew⟩ := holds_of_heapSteps hrun hm hfit
  have h8 := hholds.room
  refine ⟨hholds, hnew, malloc_eq m', ?_, fun n => givesText_allocText h8 _, fun b hb s hs => ?_⟩
  · have htoken : m'.takeToken.1.getD "" = m'.input.headD "" := by
      rw [Machine.takeToken]
      cases m'.input <;> rfl
    rw [← htoken]
    have h8 : 8 ≤ m'.takeToken.2.memory.size := by rwa [takeToken_memory]
    exact givesText_allocText h8 _
  obtain ⟨hlen, hread⟩ := hholds.readText hb hs hfit m'.checks
  refine ⟨hread, hlen, stringOrd_eq hfit hread, stringSubstring_eq hread h8, fun c hc t ht => ?_⟩
  have hread' := (hholds.readText hc ht hfit m'.checks).2
  simp only [Machine.callBuiltin, getD_cons_zero, getD_cons_succ, Machine.readText, hread, hread',
    Except.ok_bind, compareBytes_eq]
  exact ⟨givesText_allocText h8 _, rfl⟩

end MxStar.Interp
