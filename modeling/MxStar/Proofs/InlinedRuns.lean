import MxStar.Proofs.PortableCode
import MxStar.Proofs.Splices

/-!
Runs of a program in which one call is inlined.

A frame of the function called and that of the caller below it become one frame. `Shape` lists the ways a
frame stands for others. The next instruction is the call that was inlined (`answers_site`), a return from the
copy (`answers_copyReturn`), or an instruction whose image is next (`AtImage`).
-/
namespace MxStar.Pass

open IR Interp Alloc List

variable {t : BlockId → BlockId} {fr fr' : Frame} {own : List Caller} {base : VReg}
  {regs : Array (Option Word)}

/-! ## The program with a call inlined -/

/-- The program `q` is `p` with a call inlined, where all code of `p` is portable. -/
structure PortableSplice (p q : Program) (s : Site) (g : Func) (fid : FuncId) : Prop
    extends SplicedIn p q s g fid where
  portable : PortableProgram p

section Splicing

variable {p q : Program} {s : Site} {g : Func} {fid : FuncId}

namespace PortableSplice

variable (h : PortableSplice p q s g fid)
include h

theorem callerPortable : PortableFunc p s.caller :=
  h.portable _ (Array.mem_of_getElem? h.caller)

theorem calleePortable : PortableFunc p s.callee :=
  h.portable _ (Array.mem_of_getElem? h.callee)

theorem site : Portable p (.call s.dst (.func s.id) s.args s.stackArgs) := by
  apply h.callerPortable.instrs s.block
  rw [s.code]
  exact mem_append_right _ mem_cons_self

theorem after : ∀ i ∈ s.after, Portable p i := by
  intro i hi
  apply h.callerPortable.instrs s.block
  rw [s.code]
  exact mem_append_right _ (mem_cons_of_mem _ hi)

theorem call : s.args.length = s.callee.params.length ∧ (s.dst.isSome → GivesValues s.callee) := by
  obtain ⟨f, hf, hlen, hgives⟩ := h.site.calls _ _ _ _ rfl
  obtain rfl : s.callee = f := Option.some.inj (h.callee.symm.trans hf)
  exact ⟨hlen, hgives⟩

end PortableSplice

/-! ## Frames that stand for others -/

def image (base : VReg) (t : BlockId → BlockId) (i : Instr) : Instr :=
  (i.mapOperands (shift base)).mapTargets t

theorem image_zero (i : Instr) : image 0 id i = i := by
  have hsame : i.mapOperands (shift 0) = i := mapOperands_eq_self fun o _ => shift_zero o
  rw [image, hsame]
  cases i <;> rfl

/-- Code of the caller, and the code that it becomes. -/
inductive CutCode (s : Site) : List Instr → List Instr → Prop
  | same (code : List Instr) : CutCode s code code
  | site (pre : List Instr) :
    CutCode s (pre ++ .call s.dst (.func s.id) s.args s.stackArgs :: s.after)
      (pre ++ s.copy.enter s.args)

/-- The caller waits for the call that is inlined, in a frame that has its registers. -/
structure Waits (s : Site) (cl : Caller) (fr' : Frame) : Prop where
  func : cl.frame.func = s.caller
  code : cl.frame.code = s.after
  dst : cl.dst = s.dst
  size : cl.frame.regs.size = s.caller.vregCount
  holds : Holds 0 cl.frame fr'

/-- The ways in which one frame stands for another and perhaps its caller: where its registers
start, what its blocks have become, the frame, its caller and the frame that stands for them. -/
inductive Shape (s : Site) (g : Func) :
    VReg → (BlockId → BlockId) → Frame → List Caller → Frame → Prop
  | kept {fr fr' : Frame} (func : fr'.func = fr.func) (code : fr'.code = fr.code) :
    Shape s g 0 id fr [] fr'
  | cut {fr fr' : Frame} (func : fr.func = s.caller) (func' : fr'.func = g)
    (code : CutCode s fr.code fr'.code) (size : fr.regs.size = s.caller.vregCount)
    (size' : fr'.regs.size = g.vregCount) : Shape s g 0 id fr [] fr'
  | copied {fr fr' : Frame} {cl : Caller} (func : fr.func = s.callee) (func' : fr'.func = g)
    (code : fr'.code = fr.code.flatMap (s.copy.instr s.dst))
    (rets : s.dst.isSome → .ret none ∉ fr.code) (waits : Waits s cl fr')
    (size' : fr'.regs.size = g.vregCount) :
    Shape s g s.caller.vregCount s.copy.target fr [cl] fr'

/-- A frame that stands for another has its registers, and the code is portable. -/
structure Stands (p : Program) (s : Site) (g : Func) (base : VReg) (t : BlockId → BlockId)
    (fr : Frame) (own : List Caller) (fr' : Frame) : Prop where
  shape : Shape s g base t fr own fr'
  holds : Holds base fr fr'
  func : PortableFunc p fr.func
  code : ∀ i ∈ fr.code, Portable p i

/-- The callers of the one program, and those of the other that stand for them. -/
inductive Suspended (p : Program) (s : Site) (g : Func) : List Caller → List Caller → Prop
  | nil : Suspended p s g [] []
  | cons {base : VReg} {t : BlockId → BlockId} {cl cl' : Caller} {own k k' : List Caller}
    (stands : Stands p s g base t cl.frame own cl'.frame) (dst : ∀ d ∈ cl.dst, NoPhys d)
    (dst' : cl'.dst = cl.dst.map (shift base)) (rest : Suspended p s g k k') :
    Suspended p s g (cl :: (own ++ k)) (cl' :: k')

theorem Suspended.length_le {k k' : List Caller} (h : Suspended p s g k k') :
    k'.length ≤ k.length := by
  induction h with
  | nil => exact Nat.le_refl _
  | cons _ _ _ _ ih =>
    simp only [length_cons, length_append]
    omega

/-- Related configurations. The first one may also be at the end of a block without a transfer of
control, from where it cannot go on. -/
def Inlined (p : Program) (s : Site) (g : Func) (c d : Config) : Prop :=
  c.frame.code = [] ∨ ∃ base t own k, c.callers = own ++ k ∧
    d.machine = c.machine.withRegs d.machine.regs ∧ Stands p s g base t c.frame own d.frame ∧
    Suspended p s g k d.callers

/-! ## Keeping the shape -/

/-- What is written to the registers of the frame is not seen by its caller. -/
theorem Holds.kept {n : VReg} (h : Holds 0 fr fr') (hsize : fr.regs.size ≤ n)
    (hk : Kept n fr'.regs regs) : Holds 0 fr { fr' with regs := regs } := by
  refine ⟨by simpa [hk.size] using h.size, ?_, h.pushed, h.pushed'⟩
  intro v w hv
  have hlt : v < fr.regs.size := by
    by_contra hge
    rw [Frame.reg, Array.getElem?_eq_none (Nat.le_of_not_lt hge)] at hv
    cases hv
  have hsame := h.regs v w hv
  rw [Nat.zero_add] at hsame ⊢
  exact (hk.same v (Nat.lt_of_lt_of_le hlt hsize)).trans hsame

theorem Shape.withRegs (h : Shape s g base t fr own fr') {regs' : Array (Option Word)}
    (hsize : regs.size = fr.regs.size) (hk : Kept base fr'.regs regs') :
    Shape s g base t { fr with regs := regs } own { fr' with regs := regs' } := by
  cases h with
  | kept func code => exact .kept func code
  | cut func func' code size size' =>
    exact .cut func func' code (hsize.trans size) (hk.size.trans size')
  | copied func func' code rets waits size' =>
    refine .copied func func' code rets ?_ (hk.size.trans size')
    exact { waits with holds := waits.holds.kept (Nat.le_of_eq waits.size) hk }

/-- The block that a frame goes to is where the frame that stands for it goes, unless there is no
such block. -/
theorem Shape.goto (h : PortableSplice p q s g fid) (hs : Shape s g base t fr own fr')
    (b : BlockId) : fr.func.code b = [] ∨ Shape s g base t (fr.goto b) own (fr'.goto (t b)) := by
  cases hs with
  | kept func code =>
    refine .inr (.kept func ?_)
    change fr'.func.code b = fr.func.code b
    rw [func]
  | cut func func' code size size' =>
    by_cases hb : b < s.caller.blocks.size
    · refine .inr (.cut func func' ?_ size size')
      change CutCode s (fr.func.code b) (fr'.func.code b)
      rw [func, func']
      by_cases hsite : b = s.block
      · rw [hsite, h.spliced.head, s.code]
        exact .site s.before
      · rw [h.spliced.other b hb hsite]
        exact .same _
    · rw [func]
      exact .inl (s.caller.code_eq_nil (Nat.le_of_not_lt hb))
  | copied func func' code rets waits size' =>
    by_cases hb : b < s.callee.blocks.size
    · refine .inr (.copied func func' ?_ ?_ ?_ size')
      · change fr'.func.code (s.copy.target b) = (fr.func.code b).flatMap (s.copy.instr s.dst)
        rw [func, func']
        exact h.spliced.copied b (s.copy.mem_order hb)
      · intro hdst
        change .ret none ∉ fr.func.code b
        rw [func]
        exact h.call.2 hdst b
      · exact { waits with holds := { waits.holds with } }
    · rw [func]
      exact .inl (s.callee.code_eq_nil (Nat.le_of_not_lt hb))

theorem Stands.goto (h : PortableSplice p q s g fid) (hs : Stands p s g base t fr own fr')
    (b : BlockId) :
    (fr.goto b).code = [] ∨ Stands p s g base t (fr.goto b) own (fr'.goto (t b)) := by
  obtain hnil | hshape := hs.shape.goto h b
  · exact .inl hnil
  · exact .inr ⟨hshape, { hs.holds with }, hs.func, hs.func.instrs b⟩

/-! ## The next instruction -/

theorem operand_copy : s.copy.operand = shift s.caller.vregCount := by
  funext o
  cases o <;> rfl

theorem instr_copy {i : Instr} (hi : ∀ v, i ≠ .ret v) :
    s.copy.instr s.dst i = [image s.caller.vregCount s.copy.target i] := by
  rw [Copy.instr, operand_copy, ← image]
  cases i with
  | ret v => exact absurd rfl (hi v)
  | _ => rfl

/-- The next instruction is the image of that of the frame, and the rest stands for the rest. -/
structure AtImage (s : Site) (g : Func) (base : VReg) (t : BlockId → BlockId) (fr : Frame)
    (own : List Caller) (fr' : Frame) (i : Instr) (rest rest' : List Instr) : Prop where
  code' : fr'.code = image base t i :: rest'
  rest : Shape s g base t { fr with code := rest } own { fr' with code := rest' }
  ret : ∀ v, i = .ret v → own = []

/-- The next instruction is the call that is inlined, or returns from the copy, or it is found as its
image. -/
theorem Shape.next (h : Shape s g base t fr own fr') {i : Instr} {rest : List Instr}
    (hcode : fr.code = i :: rest) :
    (fr.func = s.caller ∧ fr'.func = g ∧ own = [] ∧ base = 0 ∧
      i = .call s.dst (.func s.id) s.args s.stackArgs ∧ rest = s.after ∧
      fr'.code = s.copy.enter s.args ∧ fr.regs.size = s.caller.vregCount ∧
      fr'.regs.size = g.vregCount) ∨
    (∃ v cl, i = .ret v ∧ own = [cl] ∧ base = s.caller.vregCount ∧ fr'.func = g ∧ Waits s cl fr' ∧
      (∃ rest', fr'.code = s.copy.instr s.dst (.ret v) ++ rest') ∧ (s.dst.isSome → v ≠ none) ∧
      fr'.regs.size = g.vregCount) ∨
    ∃ rest', AtImage s g base t fr own fr' i rest rest' := by
  cases h with
  | kept func code =>
    refine .inr (.inr ⟨rest, ?_, .kept func rfl, fun _ _ => rfl⟩)
    rw [code, hcode, image_zero]
  | cut func func' code size size' =>
    generalize hc' : fr'.code = code' at code
    rw [hcode] at code
    generalize hc : i :: rest = c at code
    cases code with
    | same =>
      subst hc
      refine .inr (.inr ⟨rest, ?_, .cut func func' (.same _) size size', fun _ _ => rfl⟩)
      rw [hc', image_zero]
    | site pre =>
      cases pre with
      | nil =>
        cases hc
        exact .inl ⟨func, func', rfl, rfl, rfl, rfl, rfl, size, size'⟩
      | cons j pre =>
        cases hc
        refine .inr (.inr ⟨pre ++ s.copy.enter s.args, ?_, ?_, fun _ _ => rfl⟩)
        · rw [hc', image_zero]
          rfl
        · exact .cut func func' (.site pre) size size'
  | copied func func' code rets waits size' =>
    rename_i cl
    rw [hcode, flatMap_cons] at code
    by_cases hi : ∃ v, i = .ret v
    · obtain ⟨v, rfl⟩ := hi
      refine .inr (.inl ⟨v, cl, rfl, rfl, rfl, func', waits, ⟨_, code⟩, ?_, size'⟩)
      intro hdst hnone
      apply rets hdst
      rw [hcode, hnone]
      exact mem_cons_self
    · have hne : ∀ v, i ≠ .ret v := fun v hv => hi ⟨v, hv⟩
      rw [instr_copy hne] at code
      refine .inr (.inr ⟨_, code, ?_, fun v hv => absurd hv (hne v)⟩)
      refine .copied func func' rfl ?_ { waits with holds := { waits.holds with } } size'
      intro hdst hmem
      apply rets hdst
      rw [hcode]
      exact mem_cons_of_mem _ hmem

/-! ## Instructions that have an image -/

section Steps

variable {base : VReg} {t : BlockId → BlockId} {fr fr' : Frame} {own k k' : List Caller}
  {m m' : Machine} {i : Instr} {rest rest' : List Instr} {vs : List Word}

theorem Stands.portable (hst : Stands p s g base t fr own fr') (hcode : fr.code = i :: rest) :
    Portable p i :=
  hst.code i (hcode ▸ mem_cons_self)

theorem Stands.reads (hst : Stands p s g base t fr own fr') (hcode : fr.code = i :: rest)
    (hm : m' = m.withRegs m'.regs) (hreads : Reads m fr i.sources vs) :
    Reads m' fr' (i.sources.map (shift base)) vs :=
  hst.holds.reads hm (fun o ho => (hst.portable hcode).noPhys o (mem_operands_of_source ho)) hreads

theorem Stands.next (hst : Stands p s g base t fr own fr') (hcode : fr.code = i :: rest)
    (hat : AtImage s g base t fr own fr' i rest rest') :
    Stands p s g base t { fr with code := rest } own { fr' with code := rest' } := by
  refine ⟨hat.rest, { hst.holds with }, hst.func, fun j hj => hst.code j ?_⟩
  rw [hcode]
  exact mem_cons_of_mem _ hj

theorem Stands.withRegs (hst : Stands p s g base t fr own fr') {regs' : Array (Option Word)}
    (hsize : regs.size = fr.regs.size)
    (hholds : Holds base { fr with regs := regs } { fr' with regs := regs' })
    (hk : Kept base fr'.regs regs') :
    Stands p s g base t { fr with regs := regs } own { fr' with regs := regs' } :=
  ⟨hst.shape.withRegs hsize hk, hholds, hst.func, hst.code⟩

/-- A call that ends goes on in the frame that stands for the caller. -/
theorem answers_finishCall_image (cl cl' : Caller) (hst : Stands p s g base t cl.frame own cl'.frame)
    (hdst : ∀ d ∈ cl.dst, NoPhys d) (hdst' : cl'.dst = cl.dst.map (shift base))
    (hm : m' = m.withRegs m'.regs) (hk : Suspended p s g k k') (w : Word) {d : Config}
    (hd : step q d = .ofExcept (do
      let (m1, fr1) ← finishCall m' cl'.frame cl'.dst w
      return ⟨m1, fr1, k'⟩))
    (hok : ∀ e, Progress.ofExcept (do
      let (m1, fr1) ← finishCall m cl.frame cl.dst w
      return ⟨m1, fr1, own ++ k⟩) ≠ .failed e) :
    Answers q (Inlined p s g) d (.ofExcept (do
      let (m1, fr1) ← finishCall m cl.frame cl.dst w
      return ⟨m1, fr1, own ++ k⟩)) := by
  obtain ⟨c, hc⟩ := Progress.ofExcept_ok hok
  obtain ⟨⟨m1, fr1⟩, hfinish, hc'⟩ := Except.bind_eq_ok.1 hc
  cases hc'
  obtain ⟨m1', regs, regs', hfinish', hm1, rfl, hsize, hholds, hkept⟩ :=
    finishCall_shift hm hst.holds hdst hfinish
  rw [hdst', hfinish'] at hd
  rw [hc]
  exact ⟨_, Steps.one hd, .inr ⟨base, t, own, k, rfl, hm1, hst.withRegs hsize hholds hkept, hk⟩⟩

/-- A function that is entered has its frame stood for by one of what has become of it. -/
theorem inlined_enter (h : PortableSplice p q s g fid) {id : FuncId} {f : Func}
    (hf : p.functions[id]? = some f) : ∃ f', q.functions[id]? = some f' ∧
      ∀ (vs : List Word) (m m' : Machine) (k k' : List Caller), m' = m.withRegs m'.regs →
        Suspended p s g k k' → Inlined p s g ⟨m, .enter f vs, k⟩ ⟨m', .enter f' vs, k'⟩ := by
  have hportable := h.portable f (Array.mem_of_getElem? hf)
  by_cases hid : id = fid
  · subst hid
    obtain rfl : f = s.caller := Option.some.inj (hf.symm.trans h.caller)
    refine ⟨g, (h.functions id).trans (if_pos rfl), fun vs m m' k k' hm hk => ?_⟩
    -- Only the sizes of the two register files differ.
    have hsize : (Frame.enter s.caller vs).regs.size = s.caller.vregCount :=
      (size_foldl_set _ _ _).trans Array.size_replicate
    have hsize' : (Frame.enter g vs).regs.size = g.vregCount :=
      (size_foldl_set _ _ _).trans Array.size_replicate
    have hle : s.caller.vregCount ≤ g.vregCount := by
      rw [h.spliced.vregs]
      exact Nat.le_add_right _ _
    have hholds : Holds 0 (.enter s.caller vs) (.enter g vs) := by
      refine ⟨by rw [Nat.zero_add, hsize, hsize']; exact hle, fun v w hv => ?_, rfl, rfl⟩
      rw [Nat.zero_add]
      change ((setParams vs g.params.zipIdx (Array.replicate g.vregCount none))[v]?).join = some w
      rw [h.spliced.params]
      refine setParams_mono (fun _ => rfl) _ (by simpa using hle) (fun u y hy => ?_) v w hv
      rw [join_replicate_none] at hy
      cases hy
    by_cases hnil : s.caller.code s.caller.entry = []
    · exact .inl hnil
    · have hcut : Shape s g 0 (fun b => b) (.enter s.caller vs) [] (.enter g vs) := by
        have hsame : Shape s g 0 (fun b => b) { Frame.enter s.caller vs with code := [] } []
            { Frame.enter g vs with code := [] } := .cut rfl rfl (.same _) hsize hsize'
        have hgoto := (hsame.goto h s.caller.entry).resolve_left hnil
        have hentry : (Frame.enter g vs) =
            ({ Frame.enter g vs with code := [] } : Frame).goto s.caller.entry := by
          rw [← h.spliced.entry]
          rfl
        rw [hentry]
        exact hgoto
      exact .inr ⟨0, _, [], k, rfl, hm, ⟨hcut, hholds, hportable, hportable.instrs _⟩, hk⟩
  · refine ⟨f, ((h.functions id).trans (if_neg hid)).trans hf, fun vs m m' k k' hm hk => ?_⟩
    refine .inr ⟨0, _, [], k, rfl, hm, ⟨.kept rfl rfl, ?_, hportable, hportable.instrs _⟩, hk⟩
    exact ⟨by rw [Nat.zero_add], fun v w hv => by rwa [Nat.zero_add], rfl, rfl⟩

theorem answers_return {v : Option Operand} (hst : Stands p s g base t fr [] fr')
    (hcode : fr.code = .ret v :: rest) (hat : AtImage s g base t fr [] fr' (.ret v) rest rest')
    (hm : m' = m.withRegs m'.regs) (hk : Suspended p s g k k') (hreads : Reads m fr v.toList vs)
    (hok : ∀ e, step p ⟨m, fr, k⟩ ≠ .failed e) :
    Answers q (Inlined p s g) ⟨m', fr', k'⟩ (step p ⟨m, fr, k⟩) := by
  have hreads' : Reads m' fr' (v.map (shift base)).toList vs := by
    have hread := hst.reads hcode hm hreads
    cases v <;> exact hread
  have hstep := step_ret (p := q) (k := k') hat.code' hreads'
  rw [step_ret hcode hreads] at hok ⊢
  cases hk with
  | nil =>
    refine ⟨_, m', .refl, hstep, ?_⟩
    rw [hm]
    rfl
  | cons stands dst dst' rest =>
    refine answers_finishCall_image _ _ stands dst dst' ?_ rest _ hstep hok
    rw [hm]
    rfl

section Image

variable (hst : Stands p s g base t fr own fr') (hm : m' = m.withRegs m'.regs) (hk : Suspended p s g k k')
include hst hm hk

theorem answers_simple (hcode : fr.code = i :: rest) (hat : AtImage s g base t fr own fr' i rest rest')
    (hi : IsSimple i) (hreads : Reads m fr i.sources vs) (hok : ∀ e, step p ⟨m, fr, own ++ k⟩ ≠ .failed e) :
    Answers q (Inlined p s g) ⟨m', fr', k'⟩ (step p ⟨m, fr, own ++ k⟩) := by
  have himage : image base t i = i.mapOperands (shift base) := by
    cases i with
    | jump | branch => exact absurd hi.1 Bool.true_eq_false_eq_False
    | _ => rfl
  have hcode' := hat.code'
  rw [himage] at hcode'
  have hreads' := hst.reads hcode hm hreads
  rw [← sources_mapOperands] at hreads'
  have hstep := step_simple (p := q) (k := k') hcode' ((isSimple_mapOperands _ _).2 hi) hreads'
  rw [step_simple hcode hi hreads] at hok ⊢
  obtain ⟨c, hc⟩ := Progress.ofExcept_ok hok
  obtain ⟨a, ha, hc'⟩ := Except.bind_eq_ok.1 hc
  obtain ⟨⟨m1, fr1⟩, happly, hc''⟩ := Except.bind_eq_ok.1 hc'
  cases hc''
  have hnext := hst.next hcode hat
  obtain ⟨m1', regs, regs', happly', hm1, rfl, hsize, hholds, hkept⟩ :=
    apply_shift hm hnext.holds (act_virtual (hst.portable hcode) ha) happly
  rw [act_shift hm fr' (hst.portable hcode).noStack (shift base) ha] at hstep
  simp only [Except.ok_bind, happly'] at hstep
  rw [hc]
  exact ⟨_, Steps.one hstep, .inr ⟨base, t, own, k, rfl, hm1, hnext.withRegs hsize hholds hkept, hk⟩⟩

variable (h : PortableSplice p q s g fid)
include h

/-- A frame goes to a block, and the frame that stands for it to what the block has become. -/
theorem inlined_goto (b : BlockId) : Inlined p s g ⟨m, fr.goto b, own ++ k⟩ ⟨m', fr'.goto (t b), k'⟩ := by
  obtain hnil | hgoto := hst.goto h b
  · exact .inl hnil
  · exact .inr ⟨base, t, own, k, rfl, hm, hgoto, hk⟩

theorem answers_jump {b : BlockId} (hcode : fr.code = .jump b :: rest)
    (hat : AtImage s g base t fr own fr' (.jump b) rest rest') :
    Answers q (Inlined p s g) ⟨m', fr', k'⟩ (step p ⟨m, fr, own ++ k⟩) := by
  rw [step_jump hcode]
  exact ⟨_, Steps.one (step_jump hat.code'), inlined_goto hst hm hk h b⟩

theorem answers_branch {cond : CmpOp} {lhs rhs : Operand} {b e : BlockId}
    (hcode : fr.code = .branch cond lhs rhs b e :: rest)
    (hat : AtImage s g base t fr own fr' (.branch cond lhs rhs b e) rest rest')
    (hreads : Reads m fr [lhs, rhs] vs) :
    Answers q (Inlined p s g) ⟨m', fr', k'⟩ (step p ⟨m, fr, own ++ k⟩) := by
  obtain ⟨l, r, hl, hr, rfl⟩ := reads_two.1 hreads
  obtain ⟨_, _, hl', hr', heq⟩ := reads_two.1 (hst.reads hcode hm hreads)
  cases heq
  rw [step_branch hcode hl hr]
  refine ⟨_, Steps.one (step_branch hat.code' hl' hr'), ?_⟩
  have hgoto := inlined_goto hst hm hk h (if cond.eval l r then b else e)
  rwa [apply_ite t] at hgoto

theorem answers_call {dst : Option Operand} {callee : Callee} {args : List Operand} {n : Nat}
    (hcode : fr.code = .call dst callee args n :: rest)
    (hat : AtImage s g base t fr own fr' (.call dst callee args n) rest rest')
    (hreads : Reads m fr args vs) (hok : ∀ e, step p ⟨m, fr, own ++ k⟩ ≠ .failed e) :
    Answers q (Inlined p s g) ⟨m', fr', k'⟩ (step p ⟨m, fr, own ++ k⟩) := by
  have hreads' : Reads m' fr' (args.map (shift base)) vs := hst.reads hcode hm hreads
  have hcode' : fr'.code = .call (dst.map (shift base)) callee (args.map (shift base)) n :: rest' :=
    hat.code'
  have hdst := (forall_operands_call.1 (hst.portable hcode).noPhys).1
  -- Nothing has been pushed, so the caller waits as it is.
  have hwaits : Stands p s g base t { fr with code := rest, pushed := [] } own
      { fr' with code := rest', pushed := [] } := by
    have hnext := hst.next hcode hat
    rwa [hst.holds.pushed, hst.holds.pushed'] at hnext
  cases callee with
  | builtin b =>
    have hstep := step_call_builtin (p := q) (k := k') hcode' hreads'
    rw [hst.holds.pushed', append_nil, hm, callBuiltin_withRegs] at hstep
    rw [step_call_builtin hcode hreads, hst.holds.pushed, append_nil] at hok ⊢
    cases hb : m.callBuiltin b vs with
    | error e =>
      rw [hb] at hok
      exact absurd rfl (hok e)
    | ok x =>
      obtain ⟨w, m1⟩ := x
      rw [hb] at hstep hok
      rw [hm]
      exact answers_finishCall_image ⟨_, dst, []⟩ ⟨_, dst.map (shift base), []⟩ hwaits hdst rfl rfl hk
        w hstep hok
  | func id =>
    have hstep := step_call_func (p := q) (k := k') hcode' hreads'
    rw [step_call_func hcode hreads] at hok ⊢
    split at hok
    · exact absurd rfl (hok _)
    · next hdepth =>
      rw [if_neg hdepth]
      cases hf : p.functions[id]? with
      | none =>
        rw [hf] at hok
        exact absurd rfl (hok _)
      | some f =>
        obtain ⟨f', hf', henter⟩ := inlined_enter h hf
        have hdepth' : ¬maxDepth ≤ k'.length + 1 := by
          have hle := hk.length_le
          rw [length_append] at hdepth
          omega
        rw [if_neg hdepth', hf', hst.holds.pushed', append_nil] at hstep
        rw [hst.holds.pushed, append_nil]
        refine ⟨_, Steps.one hstep, henter vs _ _ _ _ ?_ ?_⟩
        · rw [hm]
          rfl
        · exact .cons hwaits hdst rfl hk

end Image

/-! ## Entering and leaving the copy -/

theorem setParams_zipIdx {params : List VReg} {vs : List Word} (hlen : vs.length = params.length)
    (regs : Array (Option Word)) : setParams vs params.zipIdx regs =
      (params.zip vs).foldl (fun regs x => regs.setIfInBounds x.1 (some x.2)) regs := by
  have hzip : params.zipIdx.map (fun x => (x.1, vs.getD x.2 0)) = params.zip vs := by
    apply ext_getElem
    · simp [hlen]
    · intro i hi hi'
      have hvs : i < vs.length := by
        rw [length_zip, hlen] at hi'
        omega
      simp [getElem?_eq_getElem hvs]
  rw [← hzip, foldl_map]
  rfl

/-- Moving arguments to the parameters of a copy sets them, and nothing below the base. -/
theorem steps_enter {params : List VReg} {args : List Operand}
    (hcode : fr.code = (params.zip args).map (fun (v, a) => .move (.vreg (base + v)) a) ++ rest)
    (hparams : ∀ v ∈ params, base + v < fr.regs.size) (hargs : ∀ a ∈ args, Below base a)
    (hreads : Reads m fr args vs) (hlen : args.length = params.length) (regs : Array (Option Word))
    (hregs : ∀ (v : VReg) w, (regs[v]?).join = some w → fr.reg (base + v) = some w) :
    ∃ regs', Steps q ⟨m, fr, k⟩ ⟨m, fr.after regs' rest, k⟩ ∧ Kept base fr.regs regs' ∧
      ∀ (v : VReg) w, (((params.zip vs).foldl
        (fun regs x => regs.setIfInBounds x.1 (some x.2)) regs)[v]?).join = some w →
          (regs'[base + v]?).join = some w := by
  induction params generalizing args vs fr regs with
  | nil =>
    have hself : fr.after fr.regs rest = fr := Frame.after_self hcode
    refine ⟨fr.regs, ?_, .refl _ _, hregs⟩
    rw [hself]
  | cons u params ih =>
    cases hreads with
    | nil => cases hlen
    | cons hx hreads =>
      rename_i a x args ws
      obtain ⟨hu, hparams⟩ := forall_mem_cons.1 hparams
      obtain ⟨ha, hargs⟩ := forall_mem_cons.1 hargs
      let regs1 := fr.regs.setIfInBounds (base + u) (some x)
      have hkept : Kept base fr.regs regs1 := .set (Nat.le_add_right _ _) x _
      let fr1 := fr.after regs1
        ((params.zip args).map (fun (v, a) => Instr.move (.vreg (base + v)) a) ++ rest)
      have hregs1 : ∀ (v : VReg) w, ((regs.setIfInBounds u (some x))[v]?).join = some w →
          fr1.reg (base + v) = some w := by
        intro v w hv
        change ((fr.regs.setIfInBounds (base + u) (some x))[base + v]?).join = some w
        rw [join_setIfInBounds _ _ _ _ hu]
        rw [Array.getElem?_setIfInBounds] at hv
        by_cases huv : u = v
        · rw [if_pos huv] at hv
          rw [if_pos (congrArg (base + ·) huv)]
          split at hv
          · exact hv
          · cases hv
        · rw [if_neg huv] at hv
          rw [if_neg fun heq => huv (Nat.add_left_cancel heq)]
          exact hregs v w hv
      obtain ⟨regs', hsteps, hkept', hset⟩ := @ih fr1 ws args rfl
        (fun v hv => by rw [show fr1.regs.size = _ from hkept.size]; exact hparams v hv) hargs
        (Reads.imp hreads fun o ho w hw => value_kept hkept (hargs o ho) hw) (Nat.succ.inj hlen)
        _ hregs1
      exact ⟨regs', Steps.cons (step_move hcode hx hu) hsteps, hkept.trans hkept', hset⟩

/-- **Entering the copy.** The call that is inlined has become moves of its arguments and a jump. -/
theorem answers_site (h : PortableSplice p q s g fid) (hst : Stands p s g 0 t fr [] fr')
    (hcode : fr.code = .call s.dst (.func s.id) s.args s.stackArgs :: s.after)
    (hfunc : fr.func = s.caller) (hfunc' : fr'.func = g) (hcode' : fr'.code = s.copy.enter s.args)
    (hsize : fr.regs.size = s.caller.vregCount) (hsize' : fr'.regs.size = g.vregCount)
    (hm : m' = m.withRegs m'.regs) (hk : Suspended p s g k k') (hreads : Reads m fr s.args vs)
    (hok : ∀ e, step p ⟨m, fr, k⟩ ≠ .failed e) :
    Answers q (Inlined p s g) ⟨m', fr', k'⟩ (step p ⟨m, fr, k⟩) := by
  have hlen := h.call.1
  have hportable := h.calleePortable
  rw [step_call_func hcode hreads, h.callee, hst.holds.pushed, append_nil] at hok ⊢
  split at hok
  · exact absurd rfl (hok _)
  next hdepth =>
  rw [if_neg hdepth]
  -- The arguments are in registers of the caller, which the moves do not write.
  have hbelow : ∀ a ∈ s.args, Below s.caller.vregCount a := by
    intro a ha v hv
    obtain ⟨w, hw⟩ := hreads.exists_value ha
    rw [hv, value_vreg] at hw
    by_contra hge
    rw [Frame.reg, Array.getElem?_eq_none (by rw [hsize]; exact Nat.le_of_not_lt hge)] at hw
    cases hw
  have hreads' : Reads m' fr' s.args vs := by
    have hread := hst.reads hcode hm hreads
    rwa [map_eq_self fun a _ => shift_zero a] at hread
  have hparams : ∀ v ∈ s.callee.params, s.caller.vregCount + v < fr'.regs.size := by
    intro v hv
    rw [hsize', h.spliced.vregs]
    exact Nat.add_lt_add_left (hportable.params v hv) _
  obtain ⟨regs, hsteps, hkept, hset⟩ := steps_enter (q := q) (k := k') hcode' hparams hbelow hreads'
    hlen (Array.replicate s.callee.vregCount none)
    (fun v w hv => by rw [join_replicate_none] at hv; cases hv)
  have hvs : vs.length = s.callee.params.length := by
    rw [← hlen, List.Forall₂.length_eq hreads]
  have hregs : (Frame.enter s.callee vs).regs =
      (s.callee.params.zip vs).foldl (fun regs x => regs.setIfInBounds x.1 (some x.2))
        (Array.replicate s.callee.vregCount none) := setParams_zipIdx hvs _
  have hsizes : (Frame.enter s.callee vs).regs.size = s.callee.vregCount :=
    (size_foldl_set _ _ _).trans Array.size_replicate
  refine ⟨_, hsteps.tail (step_jump rfl), ?_⟩
  by_cases hb : s.callee.entry < s.callee.blocks.size
  · refine .inr ⟨s.caller.vregCount, s.copy.target, [_], k, rfl, ?_, ⟨.copied rfl hfunc' ?_ ?_ ?_ ?_,
      ⟨?_, fun v w hv => hset v w (hregs ▸ hv), rfl, hst.holds.pushed'⟩, hportable,
      hportable.instrs _⟩, hk⟩
    · rw [hm]
      rfl
    · change fr'.func.code _ = _
      rw [hfunc']
      exact h.spliced.copied _ (s.copy.mem_order hb)
    · exact fun hdst => h.call.2 hdst _
    · refine ⟨hfunc, rfl, rfl, hsize, ?_⟩
      have hkeep := hst.holds.kept (Nat.le_of_eq hsize) hkept
      exact { hkeep with pushed := rfl }
    · exact hkept.size.trans hsize'
    · change _ ≤ regs.size
      rw [hsizes, hkept.size, hsize', h.spliced.vregs]
  · exact .inl (s.callee.code_eq_nil (Nat.le_of_not_lt hb))

/-- **Leaving the copy.** A return has become a move of its value, where it is wanted, and a jump to
the join. -/
theorem answers_copyReturn (h : PortableSplice p q s g fid) {v : Option Operand} {cl : Caller}
    (hst : Stands p s g s.caller.vregCount t fr [cl] fr') (hcode : fr.code = .ret v :: rest)
    (hfunc' : fr'.func = g) (hw : Waits s cl fr')
    (hcode' : fr'.code = s.copy.instr s.dst (.ret v) ++ rest') (hv : s.dst.isSome → v ≠ none)
    (hsize' : fr'.regs.size = g.vregCount) (hm : m' = m.withRegs m'.regs)
    (hk : Suspended p s g k k') (hreads : Reads m fr v.toList vs)
    (hok : ∀ e, step p ⟨m, fr, [cl] ++ k⟩ ≠ .failed e) :
    Answers q (Inlined p s g) ⟨m', fr', k'⟩ (step p ⟨m, fr, [cl] ++ k⟩) := by
  have hreads' := hst.reads hcode hm hreads
  -- The code after the join is that of the caller after the call.
  have hjoin : ∀ (m1 m1' : Machine) (regs regs' : Array (Option Word)) (code : List Instr),
      m1' = m1.withRegs m1'.regs → regs.size = cl.frame.regs.size → regs'.size = fr'.regs.size →
      Holds 0 { cl.frame with regs := regs } { fr' with regs := regs' } →
      Inlined p s g ⟨m1, { cl.frame with regs := regs }, k⟩
        ⟨m1', (fr'.after regs' code).goto s.copy.join, k'⟩ := by
    intro m1 m1' regs regs' code hm1 hsize hsize1 hholds
    have hafter : fr'.func.code s.copy.join = cl.frame.code := by
      rw [hfunc', h.spliced.joined, hw.code]
    refine .inr ⟨0, id, [], k, rfl, hm1, ⟨.cut hw.func hfunc' ?_ (hsize.trans hw.size)
      (hsize1.trans hsize'), { hholds with }, ?_, ?_⟩, hk⟩
    · change CutCode s cl.frame.code (fr'.func.code s.copy.join)
      rw [hafter]
      exact .same _
    · change PortableFunc p cl.frame.func
      rw [hw.func]
      exact h.callerPortable
    · change ∀ i ∈ cl.frame.code, Portable p i
      rw [hw.code]
      exact h.after
  rw [step_ret hcode hreads] at hok ⊢
  obtain ⟨c, hc⟩ := Progress.ofExcept_ok hok
  obtain ⟨⟨m1, fr1⟩, hfinish, hc'⟩ := Except.bind_eq_ok.1 hc
  cases hc'
  refine (congrArg (Answers q _ _) (congrArg Progress.ofExcept hc)).mpr ?_
  rw [hw.dst] at hfinish
  cases hdst : s.dst with
  | none =>
    have hjump : fr'.code = .jump s.copy.join :: rest' := by
      rw [hcode', hdst]
      rfl
    rw [hdst] at hfinish
    cases hfinish
    exact ⟨_, Steps.one (step_jump hjump), hjoin _ m' _ fr'.regs fr'.code hm rfl rfl hw.holds⟩
  | some d =>
    cases v with
    | none => exact absurd rfl (hv (by rw [hdst]; rfl))
    | some o =>
      have hmove : fr'.code =
          .move d (shift s.caller.vregCount o) :: .jump s.copy.join :: rest' := by
        rw [hcode', hdst, ← operand_copy]
        rfl
      obtain ⟨w, -, rfl⟩ := reads_one.1 hreads
      rw [hdst] at hfinish
      have hnoPhys : NoPhys d := (forall_operands_call.1 h.site.noPhys).1 d hdst
      have hholds : Holds 0 cl.frame { fr' with code := .jump s.copy.join :: rest' } :=
        { hw.holds with }
      obtain ⟨m1', regs, regs', happly, hm1, rfl, hsize, hholds', hkept⟩ :=
        apply_shift (m := returned { m with regs := m.regs.setMany cl.saved } w) (a := .write d w)
          hm hholds hnoPhys hfinish
      have hstep := step_simple (p := q) (k := k') hmove ⟨rfl, rfl⟩ hreads'
      rw [Action.mapDst, shift_zero] at happly
      simp only [act, Except.ok_bind, getD_cons_zero, happly] at hstep
      exact ⟨_, (Steps.one hstep).tail (step_jump rfl),
        hjoin _ m1' regs regs' _ hm1 hsize hkept.size { hholds' with }⟩

end Steps

/-! ## The simulation -/

/-- **Inlining one call** is followed as long as the program does not fail. -/
theorem follows_spliced (h : PortableSplice p q s g fid) : Follows p q (Inlined p s g) := by
  intro ⟨m, fr, callers⟩ ⟨m', fr', k'⟩ hr hok
  cases hcode : fr.code with
  | nil =>
    have hstep : step p ⟨m, fr, callers⟩ = .failed (.unsupported (.unterminated fr.block)) := by
      simp only [step, hcode]
    exact absurd hstep (hok _)
  | cons i rest =>
    obtain ⟨base, t, own, k, rfl, hm, hst, hk⟩ := hr.resolve_left (by simp [hcode])
    obtain ⟨vs, hreads⟩ | ⟨e, he, -⟩ := reads_or_failed (p := p) (m := m) (k := own ++ k) hcode
    swap
    · exact absurd he (hok e)
    obtain ⟨hfunc, hfunc', rfl, rfl, rfl, rfl, hcode', hsize, hsize'⟩ |
      ⟨v, cl, rfl, rfl, rfl, hfunc', hw, ⟨rest', hcode'⟩, hv, hsize'⟩ | ⟨rest', hat⟩ :=
        hst.shape.next hcode
    · exact answers_site h hst hcode hfunc hfunc' hcode' hsize hsize' hm hk hreads hok
    · exact answers_copyReturn h hst hcode hfunc' hw hcode' hv hsize' hm hk hreads hok
    · cases i with
      | jump b => exact answers_jump hst hm hk h hcode hat
      | branch cond lhs rhs b e => exact answers_branch hst hm hk h hcode hat hreads
      | call dst callee args n => exact answers_call hst hm hk h hcode hat hreads hok
      | ret v =>
        obtain rfl := hat.ret v rfl
        exact answers_return hst hcode hat hm hk hreads hok
      | _ => exact answers_simple hst hm hk hcode hat ⟨rfl, rfl⟩ hreads hok

/-- **A call keeps its results** when a call within the program is inlined. -/
theorem keepsResults_spliced (h : PortableSplice p q s g fid) : KeepsResults p q := by
  intro id args input o hcall
  obtain ⟨f, hf⟩ := hcall.function_exists trivial
  obtain ⟨f', hf', henter⟩ := inlined_enter h hf
  rw [callEnds_iff hf] at hcall
  rw [callEnds_iff hf']
  refine (follows_spliced h).ends (henter args _ _ [] [] ?_ .nil) hcall
  rw [Machine.start, Machine.start, h.statics]
  rfl

end Splicing

end MxStar.Pass
