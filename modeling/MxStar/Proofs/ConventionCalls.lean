import MxStar.Proofs.ConventionRuns

/-!
Calls where the calling convention is explicit.

A function first takes its arguments over from where they arrive (`steps_opening`). A caller pushes what
does not fit registers, with a word of padding if needed, and moves the rest (`AtInstr.steps_pass`); when
the call ends, one more move brings the result to its place (`lifts_finishCall`).
-/
namespace MxStar.Alloc

open IR Interp List

variable {dst : Option Operand} {args : List Operand} {i n : Nat} {callee : Callee}

/-! ## Taking arguments over -/

/-- The registers with the parameters set. -/
def setParams (args : List Word) (params : List (VReg × Nat)) (regs : Array (Option Word)) :
    Array (Option Word) :=
  params.foldl (fun regs (v, i) => regs.setIfInBounds v (some (args.getD i 0))) regs

theorem setParams_mono {args args' : List Word} (hargs : ∀ i, args'.getD i 0 = args.getD i 0)
    (params : List (VReg × Nat)) {regs regs' : Array (Option Word)} (hsize : regs.size ≤ regs'.size)
    (h : ∀ (v : VReg) w, (regs[v]?).join = some w → (regs'[v]?).join = some w) (v : VReg) (w : Word)
    (hv : ((setParams args params regs)[v]?).join = some w) :
    ((setParams args' params regs')[v]?).join = some w := by
  induction params generalizing regs regs' with
  | nil => exact h v w hv
  | cons x params ih =>
    obtain ⟨u, i⟩ := x
    have hsize' : (regs.setIfInBounds u (some (args.getD i 0))).size ≤
        (regs'.setIfInBounds u (some (args'.getD i 0))).size := by
      simpa using hsize
    refine ih hsize' (fun t y hy => ?_) hv
    change ((regs'.setIfInBounds u (some (args'.getD i 0)))[t]?).join = some y
    rw [hargs i]
    by_cases hu : u < regs.size
    · rw [join_setIfInBounds _ _ _ _ hu] at hy
      rw [join_setIfInBounds _ _ _ _ (Nat.lt_of_lt_of_le hu hsize)]
      split at hy
      · next heq => rwa [if_pos heq]
      · next hne =>
        rw [if_neg hne]
        exact h t y hy
    · -- Nothing is written to the first registers, which have no register `u`.
      rw [Array.setIfInBounds_eq_of_size_le (Nat.le_of_not_lt hu)] at hy
      have hne : u ≠ t := by
        rintro rfl
        rw [Array.getElem?_eq_none (Nat.le_of_not_lt hu)] at hy
        cases hy
      rw [Array.getElem?_setIfInBounds_ne hne]
      exact h t y hy

theorem getElem?_eq_getD {args : List Word} (hi : i < args.length) :
    args[i]? = some (args.getD i 0) := by
  rw [getD_eq_getElem?_getD, getElem?_eq_getElem hi]
  rfl

theorem get_passArgs_getElem (m : Machine) {args : List Word} {r : PhysReg}
    (hr : PhysReg.params[i]? = some r) (hi : i < args.length) :
    (m.passArgs args).regs.get r = some (args.getD i 0) := by
  have hnd : ((PhysReg.params.zip (args.map some)).map (·.1)).Nodup := by
    rw [zip_eq_zip_take_min, map_fst_zip (by simp)]
    exact List.Nodup.sublist (take_sublist _ _) (by decide)
  refine RegFile.get_setMany_of_mem _ hnd (mem_of_getElem? (i := i) ?_)
  rw [getElem?_zip_eq_some, getElem?_map, getElem?_eq_getD hi]
  exact ⟨hr, rfl⟩

section Opening

variable {q : Program} {m : Machine} {fr : Frame} {k : List Caller} {args : List Word}

theorem step_bindParam {v : VReg} {rest : List Instr} (hcode : fr.code = bindParam v i :: rest)
    (hv : v < fr.regs.size) (hi : i < args.length)
    (hin : fr.incoming = args.drop PhysReg.params.length) :
    step q ⟨m.passArgs args, fr, k⟩ = .running ⟨m.passArgs args,
      fr.after (fr.regs.setIfInBounds v (some (args.getD i 0))) rest, k⟩ := by
  unfold bindParam at hcode
  split at hcode
  · next r hr => exact step_move hcode (value_phys.2 (get_passArgs_getElem m hr hi)) hv
  · next hr =>
    have hle : PhysReg.params.length ≤ i := List.getElem?_eq_none_iff.1 hr
    have harg : fr.incoming[i - PhysReg.params.length]? = some (args.getD i 0) := by
      rw [hin, getElem?_drop, Nat.add_sub_cancel' hle, getElem?_eq_getD hi]
    rw [step_simple hcode ⟨rfl, rfl⟩ (reads_nil.2 rfl)]
    simp only [act, actLoad, harg, Except.ok_bind, Action.apply, assign, if_pos hv]
    rfl

theorem steps_bindings {params : List (VReg × Nat)} {rest : List Instr}
    (hcode : fr.code = bindings params ++ rest)
    (hparams : ∀ x ∈ params, x.1 < fr.regs.size ∧ x.2 < args.length)
    (hin : fr.incoming = args.drop PhysReg.params.length) :
    Steps q ⟨m.passArgs args, fr, k⟩
      ⟨m.passArgs args, fr.after (setParams args params fr.regs) rest, k⟩ := by
  induction params generalizing fr with
  | nil =>
    have hself : fr.after fr.regs rest = fr := Frame.after_self hcode
    change Steps q _ ⟨_, fr.after fr.regs rest, k⟩
    rw [hself]
  | cons x params ih =>
    obtain ⟨hx, hparams⟩ := forall_mem_cons.1 hparams
    let fr1 := fr.after (fr.regs.setIfInBounds x.1 (some (args.getD x.2 0))) (bindings params ++ rest)
    have hparams1 : ∀ y ∈ params, y.1 < fr1.regs.size ∧ y.2 < args.length := by
      intro y hy
      simpa [fr1] using hparams y hy
    exact Steps.cons (step_bindParam hcode hx.1 hx.2 hin) (@ih fr1 rfl hparams1 hin)

/-- **Opening.** A function takes its arguments over and is then at the start of the function that
it comes from. What is passed may have more words than there are parameters. -/
theorem steps_opening {p : Program} {f g : Func} (hf : f.WellFormed p) (hfg : Conventional f g)
    {vs : List Word} (hlen : f.params.length ≤ args.length)
    (hargs : ∀ i, args.getD i 0 = vs.getD i 0) :
    ∃ fr', Steps q ⟨m.passArgs args, .enter g args, k⟩ ⟨m.passArgs args, fr', k⟩ ∧
      Aligned f g (.enter f vs) fr' := by
  have hcode : (Frame.enter g args).code = bindings f.params.zipIdx ++ [.jump f.entry] :=
    hfg.opening
  have hsize : (Frame.enter g args).regs.size = g.vregCount :=
    (size_foldl_set _ _ _).trans Array.size_replicate
  have hparams : ∀ x ∈ f.params.zipIdx,
      x.1 < (Frame.enter g args).regs.size ∧ x.2 < args.length := by
    rintro ⟨v, i⟩ hx
    obtain ⟨hi, hv⟩ := mem_zipIdx' hx
    refine ⟨?_, Nat.lt_of_lt_of_le hi hlen⟩
    rw [hsize, hv]
    exact Nat.lt_of_lt_of_le (hf.params _ (getElem_mem hi)) hfg.vregs
  have hsteps := steps_bindings (q := q) (m := m) (k := k) hcode hparams rfl
  have hentry : f.entry ∈ g.layout := by
    refine hfg.shaped.targets _ hfg.shaped.entry _ ?_
    rw [EndsOnce.targets hfg.opening rfl]
    exact mem_singleton.2 rfl
  refine ⟨_, hsteps.tail (step_jump rfl), ?_⟩
  exact {
    func := rfl
    func' := rfl
    layout := hentry
    inner := hfg.start
    suffix := suffix_refl _
    code := hfg.code _ hentry hfg.start
    size := (size_foldl_set _ _ _).trans Array.size_replicate
    size' := (size_foldl_set _ _ _).trans hsize
    regs := by
      intro v w hw
      refine setParams_mono hargs f.params.zipIdx ?_ ?_ v w hw
      · rw [Array.size_replicate, hsize]
        exact hfg.vregs
      · intro u y hy
        rw [join_replicate_none] at hy
        cases hy
    pushed := rfl
    pushed' := rfl }

end Opening

/-! ## Ending calls -/

section Simulation

variable {p q : Program} {f g : Func} {fr fr' : Frame} {m m' : Machine} {k k' : List Caller}
  {rest rest' : List Instr} {vs : List Word}

def returned (m : Machine) (w : Word) : Machine := m.withRegs (afterCall m.regs w)

theorem get_returned (m : Machine) (w : Word) : (returned m w).regs.get .rax = some w :=
  (RegFile.get_set ..).trans (if_pos rfl)

/-- Once a call has ended, the result goes from its register to its place. -/
theorem lifts_finishCall {cl cl' : Caller} (hcl : Awaiting p cl cl') (hm : m' = m.withRegs m'.regs)
    (hk : List.Forall₂ (Awaiting p) k k') (w : Word) :
    Lifts (fun x y => ∃ d, Steps q ⟨y.1, y.2, k'⟩ d ∧ ConfigAligned p ⟨x.1, x.2, k⟩ d)
      (finishCall m cl.frame cl.dst w) (finishCall m' cl'.frame cl'.dst w) := by
  obtain ⟨f, g, rest, hf, hfg, hdst, hnone, hcode, hal⟩ := hcl
  have hm1 : returned m' w = (returned m w).withRegs (returned m' w).regs := by
    rw [hm]
    rfl
  rw [hnone]
  cases hdst' : cl.dst with
  | none =>
    rw [hdst'] at hcode
    have hself : { cl'.frame with code := rest } = cl'.frame := by
      rw [← (show cl'.frame.code = rest from hcode)]
    rw [hself] at hal
    exact .ok ⟨_, .refl, f, g, hf, hfg, hal, hm1, hk⟩
  | some o =>
    rw [hdst'] at hcode
    have hcode' : cl'.frame.code = .move o (.phys .rax) :: rest := hcode
    have hrax : value (returned m' w) cl'.frame (.phys .rax) = .ok w :=
      value_phys.2 (get_returned m' w)
    have hstep := step_simple (p := q) (k := k') hcode' ⟨rfl, rfl⟩ (reads_one.2 ⟨w, hrax, rfl⟩)
    refine .of_void (fun e he => Action.apply_error (a := .write o w) he) fun x hx => ?_
    obtain ⟨hx1, fr1, hassign, hal1⟩ :=
      hal.assign (m := returned m w) hfg (hdst o hdst') hx (returned m' w)
    simp only [act, Except.ok_bind, Action.apply, getD_cons_zero, hassign] at hstep
    refine ⟨_, rfl, _, Steps.one hstep, f, g, hf, hfg, hal1, ?_, hk⟩
    rw [hx1]
    exact hm1

theorem answers_ret {v v' : Option Operand} {ws : List Word} (hcode : fr.code = .ret v :: rest)
    (hreads : Reads m fr v.toList vs) (hcode' : fr'.code = .ret v' :: rest')
    (hreads' : Reads m' fr' v'.toList ws) (hword : ws.getD 0 0 = vs.getD 0 0)
    (hm : m' = m.withRegs m'.regs) (hk : List.Forall₂ (Awaiting p) k k') :
    Answers q (ConfigAligned p) ⟨m', fr', k'⟩ (step p ⟨m, fr, k⟩) := by
  refine .later (.ret hcode hreads hcode' hreads' hword (congrArg Machine.output hm :) hk ?_)
  exact fun cl cl' k k' hcl hk => lifts_finishCall hcl (by rw [hm]; rfl) hk _

/-! ## Passing arguments -/

theorem getD_append_zeros (vs : List Word) {pad : List Word} (hpad : ∀ x ∈ pad, x = 0) (i : Nat) :
    (vs ++ pad).getD i 0 = vs.getD i 0 := by
  rw [getD_eq_getElem?_getD, getD_eq_getElem?_getD, getElem?_append]
  split
  · rfl
  · next hi =>
    rw [getElem?_eq_none (Nat.le_of_not_lt hi)]
    cases hx : pad[i - vs.length]? with
    | none => rfl
    | some x => exact hpad x (mem_of_getElem? hx)

/-- A routine of the runtime looks at single arguments alone. -/
theorem callBuiltin_congr {args args' : List Word} (h : ∀ i, args'.getD i 0 = args.getD i 0)
    (m : Machine) (b : Builtin) : m.callBuiltin b args' = m.callBuiltin b args := by
  unfold Machine.callBuiltin
  simp only [h]

theorem steps_padding {stack : List Operand} (hcode : fr.code = padding stack ++ rest)
    (hpushed : fr.pushed = []) : ∃ pad, (∀ x ∈ pad, x = 0) ∧
      Steps q ⟨m, fr, k⟩ ⟨m, { fr with pushed := pad, code := rest }, k⟩ := by
  unfold padding at hcode
  split at hcode
  · refine ⟨[0], by simp, Steps.one ?_⟩
    rw [step_push hcode rfl, hpushed]
    rfl
  · refine ⟨[], by simp, ?_⟩
    have hself : { fr with pushed := [], code := rest } = fr := by
      rw [← hpushed, ← (show fr.code = rest from hcode)]
    rw [hself]

theorem reads_setMany {rs : List PhysReg} (hnd : rs.Nodup) {ws : List Word}
    (hlen : rs.length = ws.length) (m : Machine) (fr : Frame) :
    Reads (m.withRegs (m.regs.setMany (rs.zip (ws.map some)))) fr (rs.map .phys) ws := by
  refine forall₂_iff_zip.2 ⟨by simpa using hlen, fun {o w} how => ?_⟩
  rw [zip_map_left, mem_map] at how
  obtain ⟨⟨r, x⟩, hmem, heq⟩ := how
  cases heq
  refine value_phys.2 (RegFile.get_setMany_of_mem _ ?_ ?_)
  · rw [map_fst_zip (by simp [hlen])]
    exact hnd
  · rw [zip_map_right]
    exact mem_map.2 ⟨(r, x), hmem, rfl⟩

/-- The first frame of a caller waits with its result to place, the second one with it to move. -/
theorem AtInstr.awaiting {new : List Instr}
    (h : AtInstr p f g (.call dst callee args n) new rest rest' ⟨m, fr, k⟩ ⟨m', fr', k'⟩)
    {regs : Array (Option Word)} (hkept : Kept f.vregCount fr'.regs regs)
    (saved saved' : List (PhysReg × Option Word)) :
    Awaiting p ⟨{ fr with code := rest, pushed := [] }, dst, saved⟩
      ⟨{ fr'.after regs (resultMoves dst ++ rest') with pushed := [] }, none, saved'⟩ := by
  refine ⟨f, g, rest', h.function, h.conventional, ?_, rfl, rfl, ?_⟩
  · intro d hd
    exact (forall_operands_call.1 h.sourced.noPhys).1 d hd
  · have hnext := h.aligned.next h.code h.rest hkept
    exact { hnext with pushed := rfl, pushed' := rfl }

section Call

variable {n' : Nat} {pushes : List Instr}
  (h : AtInstr p f g (.call dst callee args n)
    (padding (args.drop PhysReg.params.length) ++ pushes ++ argMoves (PhysReg.params.zip args) ++
      .call none callee ((PhysReg.params.zip args).map fun (r, _) => .phys r) n' ::
        resultMoves dst) rest rest' ⟨m, fr, k⟩ ⟨m', fr', k'⟩)
  (hpushes : Pushes g.vregCount f.vregCount (args.drop PhysReg.params.length).reverse pushes)
  (hreads : Reads m fr args vs)

include h hpushes hreads

/-- **Passing arguments.** Before the call, the first arguments are in their registers and the others
have been pushed, on top of padding. -/
theorem AtInstr.steps_pass :
    ∃ regs r pad, Kept f.vregCount fr'.regs regs ∧ (∀ x ∈ pad, x = 0) ∧
      (let fr1 : Frame := { fr'.after regs (.call none callee
          ((PhysReg.params.zip args).map fun (r, _) => .phys r) n' :: (resultMoves dst ++ rest'))
            with pushed := vs.drop PhysReg.params.length ++ pad }
      Steps q ⟨m', fr', k'⟩ ⟨m'.withRegs r, fr1, k'⟩ ∧
        Reads (m'.withRegs r) fr1 ((PhysReg.params.zip args).map fun (r, _) => .phys r)
          (vs.take PhysReg.params.length)) := by
  have hcode := h.code'
  simp only [append_assoc, cons_append] at hcode
  have hno : ∀ a ∈ args, NoPhys a := (forall_operands_call.1 h.sourced.noPhys).2
  have hbelow : ∀ a ∈ args, Below f.vregCount a := (forall_operands_call.1 h.sourced.below).2
  have hreads' : Reads m' fr' args vs := h.aligned.reads_eq h.machine hno hreads
  obtain ⟨pad, hpad, hsteps1⟩ := steps_padding (q := q) (m := m') (k := k') hcode h.aligned.pushed'
  -- The arguments for the stack are pushed, the last one first.
  let fr1 : Frame := { fr' with pushed := pad, code := pushes ++ (argMoves (PhysReg.params.zip args) ++
    .call none callee ((PhysReg.params.zip args).map fun (r, _) => .phys r) n' ::
      (resultMoves dst ++ rest')) }
  have hstack : Reads m' fr1 (args.drop PhysReg.params.length).reverse
      (vs.drop PhysReg.params.length).reverse :=
    rel_reverse (forall₂_drop _ hreads')
  have hcode1 : fr1.code = pushes ++ _ := rfl
  have hsize1 : g.vregCount ≤ fr1.regs.size := h.aligned.size'.ge
  obtain ⟨regs, hsteps2, hkept⟩ := steps_pushes (q := q) (k := k') hpushes
    (fun a ha => hbelow a (mem_of_mem_drop (mem_reverse.1 ha))) hsize1 hstack hcode1
  rw [reverse_reverse] at hsteps2
  -- The others are moved to their registers.
  have hfst : (PhysReg.params.zip args).map (·.1) = PhysReg.params.take args.length := by
    rw [zip_eq_zip_take_min, map_fst_zip (by simp)]
    simp [Nat.min_comm]
  have hsnd : (PhysReg.params.zip args).map (·.2) = args.take PhysReg.params.length := by
    rw [zip_eq_zip_take_min, map_snd_zip (by simp)]
    simp
  have hphys : ((PhysReg.params.zip args).map fun (r, _) => Operand.phys r) =
      (PhysReg.params.take args.length).map .phys := by
    rw [← hfst, map_map]
    rfl
  let fr2 : Frame := { fr1.after regs (argMoves (PhysReg.params.zip args) ++
    .call none callee ((PhysReg.params.zip args).map fun (r, _) => .phys r) n' ::
      (resultMoves dst ++ rest')) with pushed := vs.drop PhysReg.params.length ++ pad }
  have hmoved : Reads m' fr2 ((PhysReg.params.zip args).map (·.2))
      (vs.take PhysReg.params.length) := by
    rw [hsnd]
    exact Reads.imp (forall₂_take _ hreads') fun a ha x hx =>
      value_kept hkept (hbelow a (mem_of_mem_take ha)) hx
  have hcode2 : fr2.code = argMoves (PhysReg.params.zip args) ++ _ := rfl
  have hsteps3 := steps_argMoves (q := q) (k := k')
    (fun x hx => hno x.2 (of_mem_zip hx).2) hmoved hcode2
  refine ⟨regs, _, pad, hkept, hpad, (hsteps1.trans hsteps2).trans hsteps3, ?_⟩
  rw [hphys, hfst]
  refine reads_setMany (List.Nodup.sublist (take_sublist _ _) (by decide)) ?_ _ _
  rw [length_take, length_take, List.Forall₂.length_eq hreads, Nat.min_comm]

theorem AtInstr.call (hp : p.WellFormed)
    (hq : ∀ (id : FuncId) (f : Func), p.functions[id]? = some f →
      ∃ g, q.functions[id]? = some g ∧ Conventional f g) :
    Answers q (ConfigAligned p) ⟨m', fr', k'⟩ (step p ⟨m, fr, k⟩) := by
  obtain ⟨regs, r, pad, hkept, hpad, hsteps, hgiven⟩ := h.steps_pass (q := q) hpushes hreads
  have hall : vs.take PhysReg.params.length ++ (vs.drop PhysReg.params.length ++ pad) = vs ++ pad := by
    rw [← append_assoc, take_append_drop]
  have hcode : fr.code = .call dst callee args n :: rest := h.code
  have hpushed : fr.pushed = [] := h.aligned.pushed
  have hargs := getD_append_zeros vs hpad
  have hm : m'.withRegs r = m.withRegs r := by
    rw [(show m' = m.withRegs m'.regs from h.machine)]
    rfl
  refine .of_steps hsteps (.later ?_)
  cases callee with
  | builtin b =>
    refine .builtin hcode hreads rfl hgiven (T := (·.withRegs r)) ?_ fun w m1 =>
      lifts_finishCall (h.awaiting hkept [] []) rfl h.callers w
    dsimp only
    rw [hall, callBuiltin_congr hargs, hm, callBuiltin_withRegs, hpushed, append_nil]
  | func id =>
    refine .call hcode hreads rfl hgiven h.callers.length_eq.symm fun f1 hf1 => ?_
    obtain ⟨f2, hf2, hlen⟩ := h.sourced.calls dst id args n rfl
    obtain rfl := Option.some.inj (hf2.symm.trans hf1)
    obtain ⟨g1, hg1, hfg1⟩ := hq id _ hf1
    have hparams : f2.params.length ≤ (vs ++ pad).length := by
      rw [← hlen, List.Forall₂.length_eq hreads, length_append]
      exact Nat.le_add_right ..
    obtain ⟨fr1, hopen, hal⟩ := steps_opening (q := q) (m := m'.withRegs r)
      (hp _ (Array.mem_of_getElem? hf1)) hfg1 hparams hargs
    dsimp only
    rw [hall, hpushed, append_nil]
    refine ⟨g1, hg1, _, hopen, f2, g1, ⟨id, hf1⟩, hfg1, hal, ?_,
      .cons (h.awaiting hkept _ _) h.callers⟩
    rw [hm]
    rfl

end Call

/-! ## The simulation -/

variable (hp : p.WellFormed) (hno : NoPhysRegs p) (hst : NoStackUse p)
  (hq : ∀ (id : FuncId) (f : Func), p.functions[id]? = some f →
    ∃ g, q.functions[id]? = some g ∧ Conventional f g)

include hp hno hst hq

omit hq in
theorem ConfigAligned.exists_atInstr {c d : Config} (h : ConfigAligned p c d) {i : Instr}
    (hcode : c.frame.code = i :: rest) : ∃ f g new rest',
      AtInstr p f g i new rest rest' c d ∧ Conforms f.vregCount g.vregCount i new := by
  obtain ⟨f, g, ⟨id, hf⟩, hfg, hal, hm, hk⟩ := h
  have hsrc := sourced hp hno hst hf hfg hal hcode
  have hreplaced := hal.code
  rw [hcode] at hreplaced
  generalize hcode' : d.frame.code = code' at hreplaced
  cases hreplaced with
  | cons hconf hrest =>
    exact ⟨f, g, _, _, ⟨⟨id, hf⟩, hfg, hsrc, hal, hcode, hcode', hrest, hm, hk⟩, hconf⟩

omit hq in
/-- At a call, the values of the arguments past the sixth get on the stack. -/
theorem ConfigAligned.steps_pushed {c d : Config} (h : ConfigAligned p c d) {n : Nat}
    (hcode : c.frame.code = .call dst callee args n :: rest)
    (hreads : Reads c.machine c.frame args vs) :
    ∃ d' pad dst' args' n' rest', Steps q d d' ∧ (∀ x ∈ pad, x = 0) ∧
      d'.frame.code = .call dst' callee args' n' :: rest' ∧
      d'.frame.pushed = vs.drop PhysReg.params.length ++ pad := by
  obtain ⟨f, g, new, rest', hat, hconf⟩ := h.exists_atInstr hp hno hst hcode
  cases hconf with
  | call hpushes =>
    obtain ⟨regs, r, pad, -, hpad, hsteps, -⟩ := hat.steps_pass (q := q) hpushes hreads
    exact ⟨_, pad, _, _, _, _, hsteps, hpad, rfl, rfl⟩
  | same hsame => rcases hsame with ⟨_, _, h⟩ | ⟨_, h⟩ | ⟨_, h⟩ | h <;> cases h

/-- **Making the convention explicit keeps every step.** -/
theorem simulates_conventional : Simulates p q (ConfigAligned p) := by
  rintro ⟨m, fr, k⟩ ⟨m', fr', k'⟩ haligned
  refine .of_reads fun i rest vs hcode hreads => ?_
  obtain ⟨f, g, new, rest', hat, hconf⟩ := haligned.exists_atInstr hp hno hst hcode
  have hsrc := hat.sourced
  have hcode' : fr'.code = new ++ rest' := hat.code'
  have hm : m' = m.withRegs m'.regs := hat.machine
  have hk : List.Forall₂ (Awaiting p) k k' := hat.callers
  cases hconf with
  | divide hop hrhs => exact hat.divide hop hrhs hreads
  | shiftBy hop => exact hat.shiftBy hop hreads
  | shift hop => exact hat.shift hop hreads
  | binary hop hlo hhi hl hr => exact hat.binary ⟨hop.1, hop.2.1⟩ hlo hhi hl hr hreads
  | unary hs => exact hat.unary hs hreads
  | compare hc => exact hat.compare hc hreads
  | branch hc => exact hat.branch hp hc hreads
  | load ha => exact hat.load ha hreads
  | store hlo hhi hs ha => exact hat.store hlo hhi hs ha hreads
  | call hpushes => exact hat.call hpushes hreads hp hq
  | ret =>
    rename_i v
    obtain ⟨w, hw, rfl⟩ := reads_one.1 hreads
    have hw' := hat.value_eq (by simp [Instr.sources]) hw
    refine .of_steps (Steps.one (step_move_phys hcode' hw')) ?_
    refine answers_ret hcode hreads rfl (reads_one.2 ⟨w, value_phys.2 ?_, rfl⟩) rfl ?_ hk
    · exact (RegFile.get_set ..).trans (if_pos rfl)
    · rw [hm]
      rfl
  | same hsame =>
    rcases hsame with ⟨d, s, rfl⟩ | ⟨s, rfl⟩ | ⟨t, rfl⟩ | rfl
    · exact hat.move hreads
    · exact absurd rfl (hsrc.noStack.push s)
    · exact hat.jump hp
    · exact answers_ret hcode hreads hcode' (reads_nil.2 rfl) (by rw [reads_nil.1 hreads]) hm hk

/-- Without slots, an end that is not for want of meaning or fuel is the program's own. -/
theorem definite_of_aligned {c d : Config} (hr : ConfigAligned p c d)
    {o : Except RunError Outcome} (h : Ends p c o) (ho : ∀ e, o = .error e → ¬e.Void) :
    Definite o := by
  cases o with
  | ok x => exact trivial
  | error e =>
    obtain hvoid | ⟨⟨m, fr, k⟩, d', ⟨f, g, ⟨id, hf⟩, hfg, hal, -, -⟩, hfail⟩ :=
      (simulates_conventional hp hno hst hq).failed hr h
    · exact absurd hvoid (ho e rfl)
    obtain hd | hvoid | ⟨-, dst, s, rest, hcode⟩ := step_failed hfail
    · exact hd.1
    · exact absurd hvoid (ho e rfl)
    · exact absurd rfl ((sourced hp hno hst hf hfg hal hcode).noStack.slot s)

end Simulation

end MxStar.Alloc
