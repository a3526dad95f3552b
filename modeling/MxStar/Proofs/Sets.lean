import Mathlib.Data.List.Sort
import MxStar.IR.Register
import MxStar.SortedSet

/-!
Laws of sorted sets.

Sets built by insertion, union, difference and restriction are in strictly ascending order (`Ascending`), so
that two of them with the same members are equal (`Ascending.ext`).
-/
namespace MxStar

open List

open Std (TransOrd LawfulEqOrd OrientedOrd)

namespace IR

instance : TransOrd PhysReg where
  eq_swap {a b} := OrientedOrd.eq_swap (a := a.index.val) (b := b.index.val)
  isLE_trans {a b c} := TransOrd.isLE_trans (a := a.index.val) (b := b.index.val) (c := c.index.val)

theorem PhysReg.index_injective {a b : PhysReg} (h : a.index.val = b.index.val) : a = b := by
  revert a b
  intro a b
  cases a <;> cases b <;> decide

instance : LawfulEqOrd PhysReg where
  compare_self {a} := Std.ReflOrd.compare_self (a := a.index.val)
  eq_of_compare h := PhysReg.index_injective (LawfulEqOrd.eq_of_compare h)

instance : TransOrd Reg where
  eq_swap {a b} := by
    cases a with
    | virt v =>
      cases b with
      | virt w => exact OrientedOrd.eq_swap (a := v) (b := w)
      | phys q => rfl
    | phys p =>
      cases b with
      | virt w => rfl
      | phys q => exact OrientedOrd.eq_swap (a := p) (b := q)
  isLE_trans {a b c} := by
    cases a with
    | virt u =>
      cases b with
      | virt v =>
        cases c with
        | virt w => exact TransOrd.isLE_trans (a := u) (b := v) (c := w)
        | phys r => intro _ _; rfl
      | phys q =>
        cases c with
        | virt w => intro _ h; cases h
        | phys r => intro _ _; rfl
    | phys p =>
      cases b with
      | virt v => intro h; cases h
      | phys q =>
        cases c with
        | virt w => intro _ h; cases h
        | phys r => exact TransOrd.isLE_trans (a := p) (b := q) (c := r)

instance : LawfulEqOrd Reg where
  compare_self {a} := by
    cases a with
    | virt v => exact Std.ReflOrd.compare_self (a := v)
    | phys p => exact Std.ReflOrd.compare_self (a := p)
  eq_of_compare {a b} h := by
    cases a with
    | virt v =>
      cases b with
      | virt w => exact congrArg Reg.virt (LawfulEqOrd.eq_of_compare h)
      | phys q => cases h
    | phys p =>
      cases b with
      | virt w => cases h
      | phys q => exact congrArg Reg.phys (LawfulEqOrd.eq_of_compare h)

end IR

namespace SortedSet

variable {α : Type} {s : SortedSet α} {a : α} {l : List α}

instance : Membership α (SortedSet α) := ⟨fun s a => a ∈ s.toList⟩

theorem mem_def : a ∈ s ↔ a ∈ s.toList := Iff.rfl

@[simp] theorem not_mem_empty (a : α) : a ∉ (∅ : SortedSet α) := not_mem_nil

@[simp] theorem contains_iff [DecidableEq α] : s.contains a = true ↔ a ∈ s := by
  simp [contains, mem_def]

@[simp] theorem mem_filter {q : α → Bool} : a ∈ s.filter q ↔ a ∈ s ∧ q a = true :=
  List.mem_filter

@[simp] theorem mem_diff [DecidableEq α] {s t : SortedSet α} : a ∈ s.diff t ↔ a ∈ s ∧ a ∉ t := by
  rw [diff, mem_filter, Bool.not_eq_true', ← Bool.not_eq_true, contains_iff]

theorem isEmpty_iff : s.isEmpty = true ↔ ∀ a, a ∉ s := by
  rw [isEmpty, List.isEmpty_iff, eq_nil_iff_forall_not_mem]
  rfl

variable [Ord α]

def Ascending (s : SortedSet α) : Prop := s.toList.Pairwise fun a b => compare a b = .lt

theorem ascending_empty : Ascending (∅ : SortedSet α) := List.Pairwise.nil

theorem Ascending.filter (h : s.Ascending) (q : α → Bool) : (s.filter q).Ascending :=
  List.Pairwise.filter _ h

theorem Ascending.diff [DecidableEq α] (h : s.Ascending) (t : SortedSet α) : (s.diff t).Ascending :=
  h.filter _

variable [LawfulEqOrd α]

theorem mem_insertInto {a b : α} : a ∈ insertInto b l ↔ a = b ∨ a ∈ l := by
  induction l with
  | nil => simp [insertInto]
  | cons c l ih =>
    simp only [insertInto]
    split
    · simp
    · next h =>
      have hbc : b = c := LawfulEqOrd.eq_of_compare h
      simp [hbc]
    · simp only [mem_cons, ih]
      tauto

@[simp] theorem mem_insert {a b : α} : a ∈ s.insert b ↔ a = b ∨ a ∈ s :=
  mem_insertInto

@[simp] theorem mem_insertMany : a ∈ s.insertMany l ↔ a ∈ l ∨ a ∈ s := by
  induction l generalizing s with
  | nil => simp [insertMany]
  | cons b l ih =>
    have h := ih (s := s.insert b)
    rw [mem_insert] at h
    rw [show s.insertMany (b :: l) = (s.insert b).insertMany l from rfl, h, mem_cons]
    tauto

@[simp] theorem mem_ofList : a ∈ ofList l ↔ a ∈ l := by
  simp [ofList]

theorem mem_mergeCons {a b : α} {rest : List α → List α} {as : List α}
    (hrest : ∀ bs, a ∈ rest bs ↔ a ∈ as ∨ a ∈ bs) (bs : List α) :
    a ∈ merge.mergeCons b rest bs ↔ a = b ∨ a ∈ as ∨ a ∈ bs := by
  induction bs with
  | nil => simp [merge.mergeCons, hrest]
  | cons c bs ih =>
    simp only [merge.mergeCons]
    split
    · simp [hrest]
    · next h =>
      have hbc : b = c := LawfulEqOrd.eq_of_compare h
      simp only [mem_cons, hrest, hbc]
      tauto
    · simp only [mem_cons, ih]
      tauto

theorem mem_merge {as bs : List α} : a ∈ merge as bs ↔ a ∈ as ∨ a ∈ bs := by
  induction as generalizing bs with
  | nil => simp [merge]
  | cons b as ih =>
    rw [merge, mem_mergeCons (fun bs => ih), mem_cons, or_assoc]

@[simp] theorem mem_union {s t : SortedSet α} : a ∈ s.union t ↔ a ∈ s ∨ a ∈ t :=
  mem_merge

/-! ## Ascending order -/

theorem Ascending.nodup (h : s.Ascending) : s.toList.Nodup := by
  refine List.Pairwise.imp ?_ h
  intro a b hab heq
  subst heq
  rw [Std.ReflOrd.compare_self] at hab
  cases hab

theorem Ascending.size_le {s t : SortedSet α} (hs : s.Ascending) (h : ∀ a ∈ s, a ∈ t) :
    s.size ≤ t.size :=
  (subperm_of_subset hs.nodup h).length_le

variable [TransOrd α]

theorem ascending_insertInto (h : l.Pairwise fun a b => compare a b = .lt) :
    (insertInto a l).Pairwise fun a b => compare a b = .lt := by
  induction l with
  | nil => simp [insertInto]
  | cons c l ih =>
    obtain ⟨hc, hl⟩ := pairwise_cons.1 h
    simp only [insertInto]
    split
    · next hac =>
      refine pairwise_cons.2 ⟨?_, h⟩
      intro b hb
      rcases mem_cons.1 hb with rfl | hb
      · exact hac
      · exact Std.TransCmp.lt_trans hac (hc b hb)
    · exact h
    · next hac =>
      refine pairwise_cons.2 ⟨?_, ih hl⟩
      intro b hb
      rcases mem_insertInto.1 hb with rfl | hb
      · exact Std.OrientedCmp.gt_iff_lt.1 hac
      · exact hc b hb

theorem Ascending.insert (h : s.Ascending) (a : α) : (s.insert a).Ascending :=
  ascending_insertInto h

theorem Ascending.insertMany (h : s.Ascending) (l : List α) : (s.insertMany l).Ascending := by
  induction l generalizing s with
  | nil => exact h
  | cons a l ih => exact ih (h.insert a)

theorem ascending_ofList (l : List α) : (ofList l).Ascending := ascending_empty.insertMany l

theorem ascending_mergeCons {rest : List α → List α} {as : List α}
    (hmem : ∀ b bs, b ∈ rest bs ↔ b ∈ as ∨ b ∈ bs) (has : ∀ b ∈ as, compare a b = .lt)
    (hrest : ∀ bs : List α, bs.Pairwise (fun a b => compare a b = .lt) →
      (rest bs).Pairwise fun a b => compare a b = .lt)
    {bs : List α} (hbs : bs.Pairwise fun a b => compare a b = .lt) :
    (merge.mergeCons a rest bs).Pairwise fun a b => compare a b = .lt := by
  induction bs with
  | nil =>
    refine pairwise_cons.2 ⟨fun b hb => ?_, hrest [] .nil⟩
    exact has b (by simpa using (hmem b []).1 hb)
  | cons c bs ih =>
    obtain ⟨hc, hbs'⟩ := pairwise_cons.1 hbs
    simp only [merge.mergeCons]
    split
    · next hac =>
      refine pairwise_cons.2 ⟨fun b hb => ?_, hrest _ hbs⟩
      rcases (hmem b _).1 hb with hb | hb
      · exact has b hb
      · rcases mem_cons.1 hb with rfl | hb
        · exact hac
        · exact Std.TransCmp.lt_trans hac (hc b hb)
    · next hac =>
      have hac : a = c := LawfulEqOrd.eq_of_compare hac
      subst hac
      refine pairwise_cons.2 ⟨fun b hb => ?_, hrest _ hbs'⟩
      rcases (hmem b _).1 hb with hb | hb
      · exact has b hb
      · exact hc b hb
    · next hac =>
      have hca : compare c a = .lt := Std.OrientedCmp.gt_iff_lt.1 hac
      refine pairwise_cons.2 ⟨fun b hb => ?_, ih hbs'⟩
      rcases (mem_mergeCons (hmem b) bs).1 hb with rfl | hb | hb
      · exact hca
      · exact Std.TransCmp.lt_trans hca (has b hb)
      · exact hc b hb

theorem Ascending.union {s t : SortedSet α} (hs : s.Ascending) (ht : t.Ascending) :
    (s.union t).Ascending := by
  obtain ⟨as⟩ := s
  obtain ⟨bs⟩ := t
  simp only [Ascending, SortedSet.union] at hs ht ⊢
  induction as generalizing bs with
  | nil => exact ht
  | cons a as ih =>
    obtain ⟨ha, has⟩ := pairwise_cons.1 hs
    exact ascending_mergeCons (fun _ _ => mem_merge) ha (fun bs hbs => ih has bs hbs) ht

theorem Ascending.ext {s t : SortedSet α} (hs : s.Ascending) (ht : t.Ascending)
    (h : ∀ a, a ∈ s ↔ a ∈ t) : s = t := by
  obtain ⟨as⟩ := s
  obtain ⟨bs⟩ := t
  have hperm : as.Perm bs := (perm_ext_iff_of_nodup hs.nodup ht.nodup).2 h
  refine congrArg SortedSet.mk (hperm.eq_of_pairwise (fun a b _ _ hab hba => ?_) hs ht)
  have haa := Std.TransCmp.lt_trans hab hba
  rw [Std.ReflOrd.compare_self] at haa
  cases haa

theorem Ascending.size_lt {s t : SortedSet α} (hs : s.Ascending) (ht : t.Ascending)
    (h : ∀ a ∈ s, a ∈ t) (hne : t ≠ s) : s.size < t.size := by
  refine Nat.lt_of_le_of_ne (hs.size_le h) fun hsize => hne ?_
  have hperm : s.toList.Perm t.toList :=
    (subperm_of_subset hs.nodup h).perm_of_length_le (Nat.le_of_eq hsize.symm)
  exact ht.ext hs fun a => hperm.mem_iff.symm

end SortedSet

end MxStar
