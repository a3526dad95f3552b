import MxStar.Proofs.BlockRuns
import MxStar.Proofs.DraftAdditions
import MxStar.Proofs.LoweredExpressions

/-!
Runs through the code that construction added.

A draft marks a place in the function that is built from it: the end of its current block. `At f d c` says
that control is there. `Region names d d'` is the code between two such places. Control that enters it stays
there until it reaches the end, with all registers as they were but new ones and those of `names`
(`Region.reg_eq`).
-/
namespace MxStar.Interp

open IR

section Next

variable {p : Program} {c d : Config} {i : Instr} {rest : List Instr}

theorem NextInFrame.keeps (hcode : c.frame.code = i :: rest) (hi : i.isTerminator = false)
    (h : NextInFrame p c d) : Keeps i.dst? { c.frame with code := rest } d.frame := by
  by_cases hsimple : IsSimple i
  · obtain ⟨m', fr', hcompute, rfl⟩ := h.compute hcode hsimple
    exact compute_keeps hsimple hcompute
  · cases i with
    | call dst callee args n =>
      obtain ⟨m, w, hfin⟩ := h.comesBack hcode
      have hkeeps := finishCall_keeps hfin
      exact ⟨hkeeps.func, hkeeps.block, hkeeps.code, hkeeps.size, hkeeps.regs⟩
    | jump | branch | ret => cases hi
    | _ => exact absurd ⟨rfl, rfl⟩ hsimple

/-- An instruction that ends its block without returning goes to one of its targets. -/
theorem NextInFrame.goto (hcode : c.frame.code = i :: rest) (hi : i.isTerminator = true)
    (hret : ∀ v, i ≠ .ret v) (h : NextInFrame p c d) :
    ∃ t ∈ i.successors, d.frame = c.frame.goto t := by
  obtain ⟨m, fr, k⟩ := c
  have hstep (e : Config) (h : step p ⟨m, fr, k⟩ = .running e) :
      (∃ t ∈ i.successors, e.frame = fr.goto t) ∧ e.callers.length = k.length := by
    cases i with
    | jump t =>
      rw [step_jump hcode] at h
      cases h
      exact ⟨⟨t, List.mem_singleton_self _, rfl⟩, rfl⟩
    | branch cond lhs rhs t e =>
      obtain ⟨l, r, -, -, rfl⟩ := step_branch_eq hcode h
      refine ⟨⟨_, ?_, rfl⟩, rfl⟩
      rw [Instr.successors]
      split <;> split <;> simp_all
    | ret v => exact absurd rfl (hret v)
    | _ => cases hi
  cases h with
  | back h hd => exact (hstep d h).1
  | inside h hd hr =>
    have hd : k.length < _ := hd
    rw [(hstep _ h).2] at hd
    exact absurd hd (Nat.lt_irrefl _)

theorem Returns.unique {depth : Nat} {c d e : Config} (h : Returns p depth c d)
    (h' : Returns p depth c e) : d = e := by
  induction h with
  | back h hd =>
    cases h' with
    | back h' hd' => exact Progress.running.inj (h.symm.trans h')
    | inside h' hd' hr' =>
      obtain rfl := Progress.running.inj (h.symm.trans h')
      omega
  | inside h hd hr ih =>
    cases h' with
    | back h' hd' =>
      obtain rfl := Progress.running.inj (h.symm.trans h')
      omega
    | inside h' hd' hr' =>
      obtain rfl := Progress.running.inj (h.symm.trans h')
      exact ih hr'

end Next

end MxStar.Interp

namespace MxStar.Lowering

open IR Interp List

/-! ## Places in a function -/

/-- The function has at least the code of a draft. -/
def Draft.Within (d : Draft) (f : Func) : Prop := ∀ b, d.code b <+: f.code b

/-- Control is where construction of a function stood: at the end of the current block. -/
structure At (f : Func) (d : Draft) (c : Config) : Prop where
  func : c.frame.func = f
  block : c.frame.block = d.current
  code : f.code d.current = d.code d.current ++ c.frame.code

/-- One step of an activation that is not yet where construction stood. -/
def Toward (p : Program) (f : Func) (d : Draft) (c c' : Config) : Prop :=
  ¬At f d c ∧ NextInFrame p c c'

/-- The first configuration of an activation in which control is where construction stood. -/
structure Reaches (p : Program) (f : Func) (d : Draft) (c c' : Config) : Prop where
  path : Relation.ReflTransGen (Toward p f d) c c'
  arrives : At f d c'

theorem Reaches.unique {p : Program} {f : Func} {d : Draft} {c c1 c2 : Config}
    (h1 : Reaches p f d c c1) (h2 : Reaches p f d c c2) : c1 = c2 := by
  obtain ⟨path, harrives⟩ := h1
  induction path using Relation.ReflTransGen.head_induction_on with
  | refl =>
    rcases Relation.ReflTransGen.cases_head h2.path with heq | ⟨_, hnext, -⟩
    · exact heq
    · exact absurd harrives hnext.1
  | head hnext _ ih =>
    rcases Relation.ReflTransGen.cases_head h2.path with heq | ⟨x, hnext', hpath'⟩
    · exact absurd (heq ▸ h2.arrives) hnext.1
    · obtain rfl := hnext.2.unique hnext'.2
      exact ih ⟨hpath', h2.arrives⟩

theorem at_addReg {f : Func} {d : Draft} {hint : String} {c : Config} :
    At f (d.addReg hint) c ↔ At f d c :=
  ⟨fun h => ⟨h.func, h.block, h.code⟩, fun h => ⟨h.func, h.block, h.code⟩⟩

section Emit

variable {p : Program} {f : Func} {d : Draft} {i : Instr} {c c' : Config}

/-- At the place of a draft the instruction is next that the draft is continued with. -/
theorem At.code_emit (hc : At f d c) (hd : d.current < d.size) (hf : (d.emit i).Within f) :
    ∃ rest, c.frame.code = i :: rest := by
  obtain ⟨rest, hrest⟩ := hf d.current
  rw [d.code_emit hd, if_pos rfl, append_assoc] at hrest
  exact ⟨rest, (append_cancel_left (hrest.trans hc.code)).symm⟩

theorem At.not_emit (hc : At f d c) (hd : d.current < d.size) : ¬At f (d.emit i) c := by
  intro hat
  have hcode := hat.code
  change f.code d.current = (d.emit i).code d.current ++ _ at hcode
  rw [hc.code, d.code_emit hd, if_pos rfl, append_assoc] at hcode
  have hlen := congrArg List.length (append_cancel_left hcode)
  simp at hlen

theorem At.behind {rest : List Instr} {m : Machine} {fr : Frame} {dst : Option Operand} (hc : At f d c)
    (hd : d.current < d.size) (hcode : c.frame.code = i :: rest)
    (hkeeps : Keeps dst { c.frame with code := rest } fr) : At f (d.emit i) ⟨m, fr, c.callers⟩ := by
  refine ⟨hkeeps.func.trans hc.func, hkeeps.block.trans hc.block, ?_⟩
  change f.code d.current = (d.emit i).code d.current ++ fr.code
  rw [hkeeps.code, d.code_emit hd, if_pos rfl, hc.code, hcode, append_assoc]
  rfl

theorem Reaches.emit (h : Reaches p f (d.emit i) c c') (hc : At f d c) (hd : d.current < d.size)
    (hf : (d.emit i).Within f) (hi : IsSimple i) :
    ∃ m fr rest, c.frame.code = i :: rest ∧ c' = ⟨m, fr, c.callers⟩ ∧
      compute c.machine { c.frame with code := rest } i = .ok (m, fr) := by
  obtain ⟨rest, hrest⟩ := hc.code_emit hd hf
  rcases Relation.ReflTransGen.cases_head h.path with heq | ⟨e, hnext, hpath⟩
  · exact absurd (heq ▸ h.arrives) (hc.not_emit hd)
  · obtain ⟨m, fr, hcompute, rfl⟩ := hnext.2.compute hrest hi
    refine ⟨m, fr, rest, hrest, ?_, hcompute⟩
    rcases Relation.ReflTransGen.cases_head hpath with heq | ⟨_, hnext', -⟩
    · exact heq.symm
    · exact absurd (hc.behind hd hrest (compute_keeps hi hcompute)) hnext'.1

theorem At.reaches (hc : At f d c) (hd : d.current < d.size) (hf : (d.emit i).Within f)
    (hi : IsSimple i) (h : Interp.step p c = .running c') : Reaches p f (d.emit i) c c' := by
  obtain ⟨rest, hrest⟩ := hc.code_emit hd hf
  obtain ⟨m, fr, hcompute, rfl⟩ := step_compute hrest hi h
  exact ⟨.single ⟨hc.not_emit hd, .back h rfl⟩, hc.behind hd hrest (compute_keeps hi hcompute)⟩

end Emit

/-! ## Regions -/

/-- The code between the places of two drafts: control that enters it leaves it only at its end. -/
structure Region (names : List String) (d d' : Draft) : Prop extends
    Confines ⟨true, names, []⟩ d d' where
  start : d.current < d.size
  starts : Status true (d.code d.current)
  ends : ∀ b, b < d'.size → b ≠ d'.current → b = d.current ∨ d.size ≤ b → EndsOnce (d'.code b)
  inRange : ∀ b, ∀ i ∈ d'.code b, ∀ t ∈ i.successors, t < d'.size

theorem lt_blocks_of_within {K : Known} {i : Instr} (h : i.Within K) {t : BlockId}
    (ht : t ∈ i.successors) : t < K.blocks := by
  cases i with
  | jump b =>
    rw [mem_singleton.1 ht]
    exact h.1
  | branch cond l r t' e =>
    rw [Instr.successors] at ht
    split at ht
    · rw [mem_singleton.1 ht]
      exact h.2.2.1.1
    · rcases mem_cons.1 ht with rfl | ht
      · exact h.2.2.1.1
      · rw [mem_singleton.1 ht]
        exact h.2.2.2.1
  | _ => cases ht

theorem Extends.region {env : Env} {P : Pending} {names : List String} {s s' : Sketch} {b : Bool}
    (h : Extends env ⟨b, names, []⟩ P true s s') (hs : Sound env P true s) :
    Region names s.toDraft s'.toDraft where
  toConfines := h.confines.mono ⟨nofun, List.Subset.refl _, fun _ => .inr⟩
  start := hs.current
  starts := hs.here
  ends := by
    intro b hb hne hregion
    refine h.sound.ended b hb hne fun hpending => ?_
    obtain ⟨x, hx, rfl⟩ := mem_map.1 hpending
    -- What was pending is neither the current block nor a new one.
    rcases hregion with heq | hle
    · exact (hs.pending x hx).2.1 heq
    · exact absurd (hs.pending x hx).1.1 (Nat.not_lt.2 hle)
  inRange := by
    intro b i hi t ht
    obtain ⟨E, hwithin⟩ := (h.sound.grounded b).exists_within hi
    exact lt_blocks_of_within hwithin ht

/-- A frame in a region: some of the code that was added to its block is left, unless that is the last
block. -/
structure Inside (d d' : Draft) (f : Func) (fr : Frame) : Prop where
  func : fr.func = f
  block : fr.block = d.current ∨ d.size ≤ fr.block
  inRange : fr.block < d'.size
  code : ∃ pre rest later, d'.code fr.block = d.code fr.block ++ (pre ++ rest) ∧
    f.code fr.block = d'.code fr.block ++ later ∧ fr.code = rest ++ later ∧
    (fr.block ≠ d'.current → rest ≠ [])

namespace Region

variable {names : List String} {d d' : Draft} {f : Func} {p : Program} {c c' : Config}

/-- Code without transfers of control has more after it in a block that is ended. -/
theorem new_ne_nil {code new : List Instr} (hcode : Status true code) (hends : EndsOnce (code ++ new)) :
    new ≠ [] := by
  rintro rfl
  obtain ⟨⟨i, hi, hterm⟩, -⟩ := hends
  rw [append_nil] at hi
  have hplain := hcode i (mem_of_mem_getLast? hi)
  rw [hterm] at hplain
  cases hplain

theorem inside_of_at (h : Region names d d') (hf : d'.Within f) (hc : At f d c) :
    Inside d d' f c.frame where
  func := hc.func
  block := .inl hc.block
  inRange := by
    rw [hc.block]
    exact Nat.lt_of_lt_of_le h.start h.size
  code := by
    obtain ⟨new, hnew, -⟩ := h.added d.current
    obtain ⟨later, hlater⟩ := hf d.current
    rw [hc.block]
    refine ⟨[], new, later, hnew, hlater.symm, ?_, fun hne => ?_⟩
    · have hcode := hc.code
      rw [← hlater, hnew, append_assoc] at hcode
      exact (append_cancel_left hcode).symm
    · have hends := h.ends d.current (Nat.lt_of_lt_of_le h.start h.size) hne (.inl rfl)
      rw [hnew] at hends
      exact new_ne_nil h.starts hends

theorem at_of_rest_nil {fr : Frame} {m : Machine} {k : List Caller} (hfunc : fr.func = f)
    (hblock : fr.block = d'.current) (hcode : f.code fr.block = d'.code fr.block ++ fr.code) :
    At f d' ⟨m, fr, k⟩ := by
  rw [hblock] at hcode
  exact ⟨hfunc, hblock, hcode⟩

/-- One step inside a region. It leaves the registers alone that the region does. -/
theorem step (h : Region names d d') (hf : d'.Within f) (hin : Inside d d' f c.frame)
    (hnext : Toward p f d' c c') :
    Inside d d' f c'.frame ∧ ∀ v, v < d.regs → (∀ name ∈ names, d.register? name ≠ some v) →
      c'.frame.reg v = c.frame.reg v := by
  obtain ⟨pre, rest, later, hd', hlater, hcode, hleft⟩ := hin.code
  cases rest with
  | nil =>
    -- Nothing is left only at the end, which control has not reached.
    have hblock : c.frame.block = d'.current := by
      by_contra hne
      exact hleft hne rfl
    rw [nil_append] at hcode
    rw [← hcode] at hlater
    exact absurd (at_of_rest_nil hin.func hblock hlater) hnext.1
  | cons i rest =>
    have hadmits : d.Admits ⟨true, names, []⟩ i := by
      obtain ⟨new, hnew, hall⟩ := h.added c.frame.block
      rw [hd'] at hnew
      obtain rfl := append_cancel_left hnew
      exact hall i (mem_append_right _ mem_cons_self)
    cases hi : i.isTerminator with
    | false =>
      have hkeeps := hnext.2.keeps hcode hi
      have hblock : c'.frame.block = c.frame.block := hkeeps.block
      refine ⟨⟨hkeeps.func.trans hin.func, hblock ▸ hin.block, hblock ▸ hin.inRange, ?_⟩, ?_⟩
      · rw [hblock]
        refine ⟨pre ++ [i], rest, later, ?_, hlater, hkeeps.code, fun hne hnil => ?_⟩
        · rw [hd', append_assoc pre]
          rfl
        · -- The last instruction of another block of the region ends the block.
          obtain ⟨init, last, hsplit, hterm, -⟩ := (h.ends _ hin.inRange hne hin.block).split
          rw [hd', hnil, ← append_assoc] at hsplit
          obtain ⟨-, hlast⟩ := append_inj' hsplit rfl
          obtain rfl : i = last := (List.cons.inj hlast).1
          rw [hi] at hterm
          cases hterm
      · intro v hv hnames
        refine (hkeeps.regs v fun hdst => ?_).trans rfl
        rcases hadmits.writes v hdst with hle | ⟨name, hname, hreg⟩
        · exact absurd hv (Nat.not_lt.2 hle)
        · exact hnames name hname hreg
    | true =>
      obtain ⟨t, ht, hgoto⟩ := hnext.2.goto hcode hi hadmits.stays
      have hnew : d.size ≤ t := by
        rcases hadmits.goes t ht with hle | hmem
        · exact hle
        · cases hmem
      have hmem : i ∈ d'.code c.frame.block := by
        rw [hd']
        exact mem_append_right _ (mem_append_right _ mem_cons_self)
      have hrange : t < d'.size := h.inRange _ i hmem t ht
      obtain ⟨later', hlater'⟩ := hf t
      have hempty : d.code t = [] := d.func.code_eq_nil hnew
      rw [hgoto]
      refine ⟨⟨hin.func, .inr hnew, hrange, [], d'.code t, later', ?_, hlater'.symm, ?_, ?_⟩,
        fun v _ _ => rfl⟩
      · change d'.code t = d.code t ++ ([] ++ d'.code t)
        rw [hempty]
        rfl
      · change c.frame.func.code t = _
        rw [hin.func]
        exact hlater'.symm
      · intro hne
        have hends : EndsOnce ([] ++ d'.code t) := h.ends t hrange hne (.inr hnew)
        exact new_ne_nil (fun i hi => absurd hi not_mem_nil) hends

theorem run (h : Region names d d') (hf : d'.Within f) (hc : At f d c)
    (hpath : Relation.ReflTransGen (Toward p f d') c c') :
    Inside d d' f c'.frame ∧ ∀ v, v < d.regs → (∀ name ∈ names, d.register? name ≠ some v) →
      c'.frame.reg v = c.frame.reg v := by
  induction hpath with
  | refl => exact ⟨h.inside_of_at hf hc, fun _ _ _ => rfl⟩
  | tail _ hnext ih =>
    obtain ⟨hin, hregs⟩ := ih
    obtain ⟨hin', hregs'⟩ := h.step hf hin hnext
    exact ⟨hin', fun v hv hnames => (hregs' v hv hnames).trans (hregs v hv hnames)⟩

theorem reg_eq (h : Region names d d') (hf : d'.Within f) (hc : At f d c)
    (hreach : Reaches p f d' c c') {v : VReg} (hv : v < d.regs)
    (hnames : ∀ name ∈ names, d.register? name ≠ some v) : c'.frame.reg v = c.frame.reg v :=
  (h.run hf hc hreach.path).2 v hv hnames

/-- Control that is inside a region, and at a place that comes after it, is at its end. -/
theorem at_of_inside {d'' : Draft} (hin : Inside d d' f c.frame)
    (hle : ∀ b, d'.code b <+: d''.code b) (hat : At f d'' c) : At f d' c := by
  obtain ⟨pre, rest, later, hd', hlater, hcode, hleft⟩ := hin.code
  have hlen : (d'.code c.frame.block).length ≤ (d''.code c.frame.block).length :=
    (hle c.frame.block).length_le
  have hrest : rest = [] := by
    have hcode'' := hat.code
    rw [← hat.block, hlater, hcode] at hcode''
    have hsum := congrArg List.length hcode''
    simp only [length_append] at hsum
    exact eq_nil_of_length_eq_zero (by omega)
  have hblock : c.frame.block = d'.current := by
    by_contra hne
    exact hleft hne hrest
  rw [hrest, nil_append] at hcode
  rw [← hcode] at hlater
  exact at_of_rest_nil hin.func hblock hlater

/-- A run to a place after a region goes through the end of the region. -/
theorem through (h : Region names d d') (hf : d'.Within f) {d'' : Draft}
    (hle : ∀ b, d'.code b <+: d''.code b) (hc : At f d c) (hreach : Reaches p f d'' c c') :
    ∃ c1, Reaches p f d' c c1 ∧ Reaches p f d'' c1 c' := by
  obtain ⟨hpath, harrives⟩ := hreach
  -- The induction is on the run; control is inside the region until it reaches the end.
  have hin := h.inside_of_at hf hc
  clear hc
  induction hpath using Relation.ReflTransGen.head_induction_on with
  | refl => exact ⟨c', ⟨.refl, at_of_inside hin hle harrives⟩, .refl, harrives⟩
  | head hnext hpath ih =>
    next x y =>
    by_cases hat : At f d' x
    · exact ⟨x, ⟨.refl, hat⟩, .head hnext hpath, harrives⟩
    · obtain ⟨c1, hfirst, hsecond⟩ := ih (h.step hf hin ⟨hat, hnext.2⟩).1
      exact ⟨c1, ⟨.head ⟨hat, hnext.2⟩ hfirst.path, hfirst.arrives⟩, hsecond⟩

end Region

end MxStar.Lowering
