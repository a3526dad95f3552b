import MxStar.Proofs.ChosenInstrs
import MxStar.Proofs.Compilations

/-!
How many words are on the stack at each line of a body.

`Leveled P n lines` says that on every way through the lines the same number of words are on the stack, with
`n` of them at the start: a push adds one, the code after a call takes all of them off, and at a label or a
jump there are none. What is selected for a function with balanced blocks that keeps to the stack
(`KeepsStack`) is leveled (`leveled_body`), and cleaning up keeps it so.
-/
namespace MxStar.Alloc

open IR

variable {f g : Func} {i : Instr} {slots : Slots}

/-! ## Register code -/

/-- A call takes an even number of words off the stack, and what is stored in a frame with a number of
slots is stored in one of them. -/
def KeepsStack (slots : Nat) : Instr → Prop
  | .call _ _ _ n => n % 2 = 0
  | .store (.slot k) _ => k < slots
  | .store (.incoming _) _ => False
  | _ => True

theorem keepsStack_mapOperands (σ : Operand → Operand) {slots slots' : Nat}
    (hslots : slots ≤ slots') (h : KeepsStack slots i) : KeepsStack slots' (i.mapOperands σ) := by
  cases i with
  | call => exact h
  | store a src =>
    cases a with
    | slot k => exact Nat.lt_of_lt_of_le h hslots
    | incoming => cases h
    | base | static => trivial
  | _ => trivial

theorem stackWords_even (stack : List Operand) : stackWords stack % 2 = 0 := by
  rw [stackWords]
  omega

/-- The code that stands for an instruction takes whole pairs of words off, and stores nothing in the
frame. -/
theorem Part.keepsStack {slots : Nat} {K : Known} {j : Instr} (h : Part i j) (hi : i.Within K) :
    KeepsStack slots j := by
  cases h with
  | setup h => cases h <;> trivial
  | store heq ha _ =>
    subst heq
    cases ha with
    | base => trivial
    | same _ =>
      rename_i a _ _
      cases a with
      | base | static => trivial
      | slot | incoming => cases hi.1
  | call => exact stackWords_even _
  | same hi => rcases hi with ⟨s, rfl⟩ | ⟨t, rfl⟩ | rfl <;> trivial
  | _ => trivial

theorem Conventional.keepsStack (h : Conventional f g) {statics : Nat} {callable : FuncId → Prop}
    (hf : f.Intact statics callable) : g.Every (KeepsStack g.slots) := by
  refine h.every (fun v _ i _ => ?_) trivial fun b _ i hi new hnew j hj =>
    (hnew.part j hj).keepsStack (hf.within b i hi)
  rw [bindParam]
  split <;> trivial

theorem SpillsTo.keepsStack {lo hi m n : Nat} {new : List Instr} (h : SpillsTo slots lo hi i new)
    (hm : m ≤ n) (hslots : slots.base + slots.spilled.size ≤ n) (hi : KeepsStack m i) :
    ∀ j ∈ new, KeepsStack n j := by
  intro j hj
  obtain ⟨o, k, -, -, -, rfl⟩ | ⟨o, k, hk, -, -, rfl⟩ | ⟨τ, -, rfl⟩ := h.cases_mem hj
  · trivial
  · exact Nat.lt_of_lt_of_le hk hslots
  · exact keepsStack_mapOperands _ hm hi

theorem keepsStack_allocate {palette : List PhysReg} {stats : Stats} (hf : f.Shaped)
    (h : f.Every (KeepsStack f.slots)) (halloc : allocate palette f = .ok (g, stats)) :
    g.Every (KeepsStack g.slots) :=
  every_allocate SpillsTo.keepsStack (fun _ => keepsStack_mapOperands _ (Nat.le_refl _)) hf h halloc

end MxStar.Alloc

namespace MxStar.Asm

open List

open IR (Word PhysReg Func BlockId Operand)
open Alloc (Balanced KeepsStack)

variable {lines rest : List Line} {i j : Instr} {slots : Nat}

/-! ## Instructions that leave the pointers alone -/

def Instr.writes : Instr → List PhysReg
  | .mov (.reg d) _ | .lea d _ | .movzx d _ | .alu _ d _ | .shift _ d _ | .neg d | .not d
  | .set _ d => [d]
  | .push _ => [.rsp]
  | .pop d => [.rsp, d]
  | .cqo => [.rdx]
  | .idiv _ => [.rax, .rdx]
  | .mov _ _ | .cmp .. | .jmp _ | .jcc .. | .call _ | .ret => []

/-- An instruction of a body that is neither a push nor a call nor a jump: it leaves both pointers
alone, and what it stores in the frame goes to a slot. -/
structure Steady (slots : Nat) (i : Instr) : Prop where
  straight : i.isStraight = true
  stack : ∀ a, i ≠ .push a
  pointers : .rsp ∉ i.writes ∧ .rbp ∉ i.writes
  stores : ∀ m a, i = .mov (.mem m) a → m.uses .rbp = true → ∃ k < slots, m = slotPlace k

theorem steady_mov_reg {d : PhysReg} {a : Arg} (hd : d ≠ .rsp ∧ d ≠ .rbp) :
    Steady slots (.mov (.reg d) a) where
  straight := rfl
  stack := by simp
  pointers := by simp [Instr.writes, hd.1.symm, hd.2.symm]
  stores := by simp

theorem steady_of_writes {d : PhysReg} (hi : i.isStraight = true) (hwrites : i.writes = [d])
    (hd : d ≠ .rsp ∧ d ≠ .rbp) : Steady slots i where
  straight := hi
  stack := by
    rintro a rfl
    exact hd.1 (List.cons.inj hwrites).1.symm
  pointers := by simp [hwrites, hd.1.symm, hd.2.symm]
  stores := by
    rintro m a rfl
    cases hwrites

/-! ## Levels -/

/-- The lines have a number of words on the stack at each line, of which there are `n` at the first.
Instructions that do not concern the stack have a property. -/
inductive Leveled (P : Instr → Prop) : Nat → List Line → Prop
  | nil : Leveled P 0 []
  | label {rest : List Line} (name : String) (h : Leveled P 0 rest) :
      Leveled P 0 (.label name :: rest)
  | push {n : Nat} {rest : List Line} (a : Arg) (comment : Option String)
      (h : Leveled P (n + 1) rest) : Leveled P n (.instr (.push a) comment :: rest)
  | call {n : Nat} {rest : List Line} (target : String) (comment : Option String) (hn : n % 2 = 0)
      (h : Leveled P n rest) : Leveled P n (.instr (.call target) comment :: rest)
  | release {n : Nat} {rest : List Line} (comment : Option String) (h : Leveled P 0 rest) :
      Leveled P n (.instr (.alu .add .rsp (.imm (Int64.ofNat n * 8))) comment :: rest)
  | jump {i : Instr} {rest : List Line} (comment : Option String) (hi : i.branchTarget?.isSome = true)
      (h : Leveled P 0 rest) : Leveled P 0 (.instr i comment :: rest)
  | other {n : Nat} {i : Instr} {rest : List Line} (comment : Option String) (hi : P i)
      (h : Leveled P n rest) : Leveled P n (.instr i comment :: rest)

namespace Leveled

variable {P Q : Instr → Prop} {n : Nat} {lines rest : List Line}

theorem mono (h : Leveled P n lines) (hPQ : ∀ i ∈ instrsOf lines, P i → Q i) :
    Leveled Q n lines := by
  induction h with
  | nil => exact .nil
  | label name _ ih => exact .label name (ih hPQ)
  | push a comment _ ih => exact .push a comment (ih fun i hi => hPQ i (mem_cons_of_mem _ hi))
  | call target comment hn _ ih =>
    exact .call target comment hn (ih fun i hi => hPQ i (mem_cons_of_mem _ hi))
  | release comment _ ih => exact .release comment (ih fun i hi => hPQ i (mem_cons_of_mem _ hi))
  | jump comment hi _ ih => exact .jump comment hi (ih fun i hi => hPQ i (mem_cons_of_mem _ hi))
  | other comment hi _ ih =>
    exact .other comment (hPQ _ mem_cons_self hi)
      (ih fun i hi => hPQ i (mem_cons_of_mem _ hi))

/-- Lines that do not concern the stack, with jumps among them if nothing is on it. -/
theorem append_other (hlines : ∀ a ∈ lines, ∃ j comment, a = .instr j comment ∧
    (P j ∨ n = 0 ∧ j.branchTarget?.isSome = true)) (h : Leveled P n rest) :
    Leveled P n (lines ++ rest) := by
  induction lines with
  | nil => exact h
  | cons a lines ih =>
    obtain ⟨ha, hrest⟩ := forall_mem_cons.1 hlines
    obtain ⟨j, comment, rfl, hj | ⟨rfl, hj⟩⟩ := ha
    · exact .other comment hj (ih hrest)
    · exact .jump comment hj (ih hrest)

end Leveled

/-! ## Selection -/

section Selection

variable {syms : Symbols} {f : Func}

theorem selectMem_uses_rbp {a : IR.Address} {m : Mem} (hm : selectMem syms a = .ok m)
    (hbase : ∀ b offset, a = .base b offset → b ≠ .phys .rbp) (huses : m.uses .rbp = true) :
    (∃ k, a = .slot k ∧ m = slotPlace k) ∨ ∃ k, a = .incoming k := by
  cases a with
  | base b offset =>
    obtain ⟨r, hr, hm⟩ := Except.bind_eq_ok.1 hm
    cases hm
    obtain rfl := selectReg_eq_ok hr
    exact absurd (congrArg Operand.phys (of_decide_eq_true huses)) (hbase _ _ rfl)
  | static s =>
    obtain ⟨label, -, hm⟩ := Except.bind_eq_ok.1 hm
    cases hm
    cases huses
  | slot k =>
    cases hm
    exact .inl ⟨k, rfl, rfl⟩
  | incoming k => exact .inr ⟨k, rfl⟩

/-- What is chosen for an instruction that neither pushes nor calls is steady, or a jump at the end of
a block. -/
theorem Chosen.steady {i : IR.Instr} (h : Chosen syms f i j)
    (hregs : ∀ q, .phys q ∈ i.operands → q ≠ .rsp ∧ q ≠ .rbp) (hi : KeepsStack slots i)
    (hstack : Alloc.usesStack i = false) :
    Steady slots j ∨ i.isTerminator = true ∧ j.branchTarget?.isSome = true := by
  have hdst : ∀ d, i.dst? = some (.phys d) → d ≠ .rsp ∧ d ≠ .rbp := fun d hd =>
    hregs d (Alloc.mem_operands_of_dst hd)
  cases h with
  | copy hd => exact .inl (steady_mov_reg (hdst _ hd))
  | load => exact .inl (steady_mov_reg (hdst _ rfl))
  | neg hd => exact .inl (steady_of_writes rfl rfl (hdst _ hd))
  | address | alu | not | shift | set | movzx => exact .inl (steady_of_writes rfl rfl (hdst _ rfl))
  | cqo | idiv | compare | test => exact .inl ⟨rfl, by simp, by simp [Instr.writes], by simp⟩
  | store hm ha =>
    rename_i addr src m a
    refine .inl ⟨rfl, by simp, by simp [Instr.writes], ?_⟩
    rintro m' a' heq huses
    cases heq
    have hbase : ∀ b offset, addr = .base b offset → b ≠ .phys .rbp := by
      rintro b offset rfl rfl
      exact (hregs .rbp mem_cons_self).2 rfl
    obtain ⟨k, rfl, rfl⟩ | ⟨k, rfl⟩ := selectMem_uses_rbp hm hbase huses
    · exact ⟨k, hi, rfl⟩
    · cases hi
  | call | release | push => cases hstack
  | jump | taken | other | leave => exact .inr ⟨rfl, rfl⟩

/-- The lines of an instruction lead from one level to the next. -/
theorem leveled_selectInstr {next : Option BlockId} {i : IR.Instr} {code : List IR.Instr} {n : Nat}
    (h : selectInstr syms f next i = .ok lines)
    (hregs : ∀ q, .phys q ∈ i.operands → q ≠ .rsp ∧ q ≠ .rbp) (hi : KeepsStack slots i)
    (hterm : i.isTerminator = true → code = []) (hbal : Balanced n (i :: code))
    (hrest : ∀ m, Balanced m code → Leveled (Steady slots) m rest) :
    Leveled (Steady slots) n (lines ++ rest) := by
  by_cases hstack : Alloc.usesStack i = false
  · have hcode := (Alloc.balanced_cons hstack).1 hbal
    refine .append_other (fun a ha => ?_) (hrest n hcode)
    obtain ⟨j, comment, rfl, hj⟩ := chosen_selectInstr h a ha
    refine ⟨j, comment, rfl, (hj.steady hregs hi hstack).imp_right fun ⟨hlast, hjump⟩ => ⟨?_, hjump⟩⟩
    rw [hterm hlast] at hcode
    exact hcode
  · cases i with
    | push src =>
      obtain ⟨a, -, h⟩ := Except.bind_eq_ok.1 h
      cases h
      exact .push a none (hrest (n + 1) hbal)
    | call dst callee args k =>
      obtain ⟨rfl, hcode⟩ := hbal
      obtain ⟨target, -, h⟩ := Except.bind_eq_ok.1 h
      cases h
      refine .call target none hi ?_
      split
      · rename_i hk
        subst hk
        exact hrest 0 hcode
      · exact .release _ (hrest 0 hcode)
    | _ => exact absurd rfl hstack

variable {slots : Nat}

theorem leveled_selectCode {next : Option BlockId} {code : List IR.Instr} {n : Nat}
    (h : selectCode syms f next code = .ok lines)
    (hregs : ∀ i ∈ code, ∀ q, .phys q ∈ i.operands → q ≠ .rsp ∧ q ≠ .rbp)
    (hkeeps : ∀ i ∈ code, KeepsStack slots i)
    (hterm : ∀ i post, i :: post <:+ code → i.isTerminator = true → post = [])
    (hbal : Balanced n code) (hrest : Leveled (Steady slots) 0 rest) :
    Leveled (Steady slots) n (lines ++ rest) := by
  induction code generalizing lines n with
  | nil =>
    cases h
    obtain rfl : n = 0 := hbal
    exact hrest
  | cons i code ih =>
    obtain ⟨first, hfirst, h⟩ := Except.bind_eq_ok.1 h
    obtain ⟨others, hothers, h⟩ := Except.bind_eq_ok.1 h
    cases h
    rw [append_assoc]
    refine leveled_selectInstr hfirst (hregs i mem_cons_self) (hkeeps i mem_cons_self)
      (hterm i code (suffix_refl _)) hbal fun m hm => ?_
    exact ih hothers (fun j hj => hregs j (mem_cons_of_mem _ hj))
      (fun j hj => hkeeps j (mem_cons_of_mem _ hj))
      (fun j post hs => hterm j post (hs.trans (suffix_cons i code))) hm

theorem leveled_selectBlocks {layout : List BlockId} (h : selectBlocks syms f layout = .ok lines)
    (hregs : ∀ b ∈ layout, ∀ i ∈ f.code b, ∀ q, .phys q ∈ i.operands → q ≠ .rsp ∧ q ≠ .rbp)
    (hkeeps : ∀ b ∈ layout, ∀ i ∈ f.code b, KeepsStack slots i)
    (hends : ∀ b ∈ layout, IR.EndsOnce (f.code b)) (hbal : ∀ b ∈ layout, Balanced 0 (f.code b)) :
    Leveled (Steady slots) 0 lines := by
  induction layout generalizing lines with
  | nil =>
    cases h
    exact .nil
  | cons b layout ih =>
    obtain ⟨code, hcode, h⟩ := Except.bind_eq_ok.1 h
    obtain ⟨rest, hrest, h⟩ := Except.bind_eq_ok.1 h
    cases h
    have hothers := ih hrest (fun c hc => hregs c (mem_cons_of_mem _ hc))
      (fun c hc => hkeeps c (mem_cons_of_mem _ hc))
      (fun c hc => hends c (mem_cons_of_mem _ hc))
      (fun c hc => hbal c (mem_cons_of_mem _ hc))
    have hblock : Leveled (Steady slots) 0 (code ++ rest) :=
      leveled_selectCode hcode (hregs b mem_cons_self) (hkeeps b mem_cons_self)
        (fun i post hs => ((hends b mem_cons_self).of_suffix hs).1) (hbal b mem_cons_self)
        hothers
    rw [append_assoc, labelLine]
    split
    · exact hblock
    · exact .label _ hblock

/-- **The body of an allocated function is leveled.** -/
theorem leveled_body (hf : Alloc.Emittable f) (hkeeps : f.Every (KeepsStack f.slots))
    {body : List Line} (h : selectBody syms f = .ok body) : Leveled (Steady f.slots) 0 body :=
  leveled_selectBlocks h hf.regs hkeeps hf.stacked.shaped.ends hf.stacked.balanced

end Selection

/-! ## Cleaning up -/

section Cleaning

variable {P : Instr → Prop} {n : Nat}

theorem Leveled.of_label {name : String} (h : Leveled P n (.label name :: rest)) :
    Leveled P n rest := by
  cases h with
  | label _ h => exact h

theorem Leveled.of_jmp {name : String} {comment : Option String} (hP : ¬P (.jmp name))
    (h : Leveled P n (.instr (.jmp name) comment :: rest)) : Leveled P n rest := by
  cases h with
  | jump _ _ h => exact h
  | other _ hi => exact absurd hi hP

theorem Leveled.of_mov {d a : Arg} {comment : Option String}
    (h : Leveled P n (.instr (.mov d a) comment :: rest)) : P (.mov d a) ∧ Leveled P n rest := by
  cases h with
  | jump _ hi => cases hi
  | other _ hi h => exact ⟨hi, h⟩

theorem Leveled.of_cons {a : Line} {rest' : List Line} (h : Leveled P n (a :: rest))
    (hrest : ∀ m, Leveled P m rest → Leveled P m rest') : Leveled P n (a :: rest') := by
  cases h with
  | label name h => exact .label name (hrest 0 h)
  | push a comment h => exact .push a comment (hrest _ h)
  | call target comment hn h => exact .call target comment hn (hrest _ h)
  | release comment h => exact .release comment (hrest 0 h)
  | jump comment hi h => exact .jump comment hi (hrest 0 h)
  | other comment hi h => exact .other comment hi (hrest _ h)

theorem Thinned.leveled {D : Line → List Line → Prop} {code code' : List Line}
    (h : Thinned D code code')
    (hD : ∀ a rest, D a rest → (∃ name, a = .label name) ∨ (∃ name comment, a = .instr (.jmp name) comment) ∨
      ∃ d s comment, a = .instr (.mov d s) comment)
    (hP : ∀ name, ¬P (.jmp name)) (hcode : Leveled P n code) : Leveled P n code' := by
  induction h generalizing n with
  | nil => exact hcode
  | keep a _ ih => exact hcode.of_cons fun m hm => ih hm
  | drop ha _ ih =>
    obtain ⟨name, rfl⟩ | ⟨name, comment, rfl⟩ | ⟨d, s, comment, rfl⟩ := hD _ _ ha
    · exact ih hcode.of_label
    · exact ih (hcode.of_jmp (hP name))
    · exact ih hcode.of_mov.2

/-- Leaving out moves, and replacing them by others to the same register. -/
theorem Tidied.leveled {change : Instr → Instr → Change} {before : Option Instr}
    {code code' : List Line} (h : Tidied change before code code') (hchange : ChangesMoves change)
    (hP : ∀ d a b, P (.mov (.reg d) a) → P (.mov (.reg d) b)) (hcode : Leveled P n code) :
    Leveled P n code' := by
  induction h generalizing n with
  | nil => exact hcode
  | keep a _ ih => exact hcode.of_cons fun m hm => ih hm
  | drop hc _ ih =>
    obtain ⟨d, s, rfl⟩ := hchange.drop _ _ hc
    exact ih hcode.of_mov.2
  | replace hc _ ih =>
    obtain ⟨d, s, a, -, rfl, rfl⟩ := hchange.replace _ _ _ hc
    obtain ⟨hmov, hrest⟩ := hcode.of_mov
    exact .other none (hP d a (.reg s) hmov) (ih hrest)

variable {body : List Line} (hjmp : ∀ name, ¬P (.jmp name))
  (hmov : ∀ d a b, P (.mov (.reg d) a) → P (.mov (.reg d) b))

include hjmp hmov in
theorem Leveled.cleanMoves (h : Leveled P n body) : Leveled P n (cleanMoves body) := by
  have hself : Leveled P n (body.filter fun a => !a.instr?.any isSelfMove) := by
    have hthin : Thinned (fun a _ => a.instr?.any isSelfMove = true) (body ++ [])
        (body.filter (fun a => !a.instr?.any isSelfMove) ++ []) :=
      Thinned.filter (fun a ha _ => by simpa using ha) body []
    rw [append_nil, append_nil] at hthin
    refine hthin.leveled (fun a rest ha => ?_) hjmp h
    cases a with
    | label name => exact .inl ⟨name, rfl⟩
    | instr i comment =>
      cases i with
      | mov d s => exact .inr (.inr ⟨d, s, comment, rfl⟩)
      | _ => cases ha
  have hinverse : Leveled P n (changePairs inverseMove
      (body.filter fun a => !a.instr?.any isSelfMove)) := by
    have htidied := Tidied.of_changePairs inverseMove
      (body.filter fun a => !a.instr?.any isSelfMove) [] none
    rw [append_nil, append_nil] at htidied
    exact htidied.leveled changesMoves_inverseMove hmov hself
  have htidied := Tidied.of_changePairs storeReload
    (changePairs inverseMove (body.filter fun a => !a.instr?.any isSelfMove)) [] none
  rw [append_nil, append_nil] at htidied
  exact htidied.leveled changesMoves_storeReload hmov hinverse

include hjmp in
theorem Leveled.fallThrough {r : Routine} (h : Leveled P n r.body) :
    Leveled P n (fallThrough r).body := by
  have hjumps : ∀ (a : Line) (next : Option Line), jumpsToNext a next = true →
      (∃ name, a = .label name) ∨ (∃ name comment, a = .instr (.jmp name) comment) ∨
        ∃ d s comment, a = .instr (.mov d s) comment := by
    intro a next ha
    obtain ⟨name, comment, rfl, -⟩ := jumpsToNext_eq_true ha
    exact .inr (.inl ⟨name, comment, rfl⟩)
  have hdrop : Leveled P n (dropJumps r.body) := by
    have hthin := thinned_dropJumps r.body []
    rw [append_nil, append_nil] at hthin
    exact hthin.leveled (fun a rest ha => hjumps a _ ha) hjmp h
  show Leveled P n (if _ then (dropJumps r.body).dropLast else dropJumps r.body)
  split
  · next hlast =>
    obtain ⟨a, ha, hnext⟩ := (Option.any_eq_true _ _).1 hlast
    obtain ⟨init, hinit⟩ := getLast?_eq_some_iff.1 ha
    rw [hinit] at hdrop ⊢
    have hthin : Thinned (fun b _ => jumpsToNext b r.epilogue.head? = true) (init ++ [a]) (init ++ []) :=
      Thinned.prepend (.drop hnext .nil) init
    rw [dropLast_concat]
    rw [append_nil] at hthin
    exact hthin.leveled (fun b rest hb => hjumps b _ hb) hjmp hdrop
  · exact hdrop

include hjmp hmov in
theorem Leveled.straightened {r : Routine} (h : Leveled P n r.body) :
    Leveled P n (straightened r).body :=
  Leveled.fallThrough hjmp (r := { r with body := Asm.cleanMoves r.body })
    (Leveled.cleanMoves hjmp hmov h)

include hjmp in
theorem Leveled.dropLabels (h : Leveled P n body) : Leveled P n (dropLabels body) := by
  have hthin : Thinned (fun a _ => isUsed ((instrsOf body).filterMap Instr.branchTarget?) a = false)
      (body ++ []) (Asm.dropLabels body ++ []) := Thinned.filter (fun _ h _ => h) body []
  rw [append_nil, append_nil] at hthin
  refine hthin.leveled (fun a rest ha => ?_) hjmp h
  cases a with
  | label name => exact .inl ⟨name, rfl⟩
  | instr => cases ha

end Cleaning

end MxStar.Asm
