/-
Bpfsnoop.Ebpf.Forward — programs whose jumps all go forward.

`exec` runs a stretch of code as a recursion over the list: a relative
jump becomes a number of instructions to skip, a jump to a label becomes
a search for the label. Both may leave the stretch pending (`Outcome.cont`),
which is what makes `exec_append` hold and lets the code of a compound
expression be analysed one fragment at a time.

`exits_of_exec` connects it to the machine: if no label stands before a
jump to it, whatever `exec` computes the machine with its program counter
computes too.
-/
import Bpfsnoop.Ebpf.Machine

namespace Bpfsnoop.Ebpf

/-- What is left of a jump: instructions to skip, or a label to find. -/
inductive Mode where
  | skip (n : Nat)
  | seek (l : String)
  deriving DecidableEq, Repr

/-- Normal execution. -/
abbrev Mode.run : Mode := .skip 0

inductive Outcome where
  | cont (m : Mode) (s : State)
  | exit (s : State)
  | stuck

/-- The mode behind an instruction that is jumped over, or `none` if the
instruction is executed. -/
def Mode.over (m : Mode) (i : Insn) : Option Mode :=
  match m with
  | .skip 0 => none
  | .skip (n + 1) => some (.skip n)
  | .seek l => if i.symbol = some l then none else some (.seek l)

def exec (K : Kernel) : List Insn → Mode → State → Outcome
  | [], m, s => .cont m s
  | i :: is, m, s =>
    match m.over i with
    | some m' => exec K is m' s
    | none =>
      match i.op.exec K s with
      | (s', .next) => exec K is .run s'
      | (s', .jump off) => if off.msb then .stuck else exec K is (.skip off.toNat) s'
      | (s', .label l) => exec K is (.seek l) s'
      | (s', .exit) => .exit s'

/-- Continue with the code behind. -/
def Outcome.andThen (K : Kernel) (o : Outcome) (is : List Insn) : Outcome :=
  match o with
  | .cont m s => exec K is m s
  | .exit s => .exit s
  | .stuck => .stuck

@[simp] theorem exec_nil (K : Kernel) (m : Mode) (s : State) : exec K [] m s = .cont m s := rfl

theorem exec_append (K : Kernel) (a b : List Insn) (m : Mode) (s : State) :
    exec K (a ++ b) m s = (exec K a m s).andThen K b := by
  induction a generalizing m s with
  | nil => rfl
  | cons i is ih =>
    simp only [List.cons_append, exec]
    cases m.over i with
    | some m' => exact ih m' s
    | none =>
      rcases i.op.exec K s with ⟨s', _ | off | l | _⟩
      · exact ih .run s'
      · by_cases h : off.msb
        · simp [h, Outcome.andThen]
        · simp only [h]
          exact ih _ s'
      · exact ih _ s'
      · rfl

/-- Code that falls through composes with the code behind it. -/
theorem exec_append_of_run {K : Kernel} {a : List Insn} {m : Mode} {s s' : State}
    (h : exec K a m s = .cont .run s') (b : List Insn) :
    exec K (a ++ b) m s = exec K b .run s' := by
  rw [exec_append, h]; rfl

/-- Code without the label is passed over by a search for it. -/
theorem exec_seek_of_not_mem {K : Kernel} {l : String} :
    ∀ {is : List Insn} {s : State}, (∀ i ∈ is, i.symbol ≠ some l) →
      exec K is (.seek l) s = .cont (.seek l) s
  | [], _, _ => rfl
  | i :: is, s, h => by
      have hi : i.symbol ≠ some l := h i (by simp)
      have his := exec_seek_of_not_mem (K := K) (s := s) fun j hj => h j (List.mem_cons_of_mem i hj)
      simpa [exec, Mode.over, hi] using his

/-- A search for a label that is found executes from there on. -/
theorem exec_seek_cons {K : Kernel} {l : String} {i : Insn} {is : List Insn} {s : State}
    (h : i.symbol = some l) : exec K (i :: is) (.seek l) s = exec K (i :: is) .run s := by
  simp [exec, Mode.over, h]

/-! ## Executing one instruction

One equation for each form, so that a fragment is executed by `simp`. -/

/-- A displacement below 2^15 is not negative. -/
theorem msb_of_lt {off : BitVec 16} (h : off.toNat < 2 ^ 15) : off.msb = false := by
  simpa [BitVec.msb_eq_decide] using h

section Equations

variable (K : Kernel) (sym : Option String) (is : List Insn) (s : State)

@[simp] theorem exec_skip_succ (i : Insn) (n : Nat) :
    exec K (i :: is) (.skip (n + 1)) s = exec K is (.skip n) s := rfl

@[simp] theorem exec_alu (op : AluOp) (dst : Reg) (src : Operand) :
    exec K (⟨.alu op dst src, sym⟩ :: is) .run s
      = exec K is .run (s.set dst (op.eval (s.regs dst) (src.eval s.regs))) := rfl

@[simp] theorem exec_ldx (size : Size) (dst src : Reg) (off : BitVec 16) :
    exec K (⟨.ldx size dst src off, sym⟩ :: is) .run s
      = exec K is .run (s.set dst (loadLE (if src = .RFP then s.stack else K.mem)
          (s.regs src + off.signExtend 64) size.bytes)) := rfl

@[simp] theorem exec_stx (size : Size) (dst src : Reg) (off : BitVec 16) :
    exec K (⟨.stx size dst off src, sym⟩ :: is) .run s
      = exec K is .run ((Op.stx size dst off src).exec K s).1 := rfl

@[simp] theorem exec_ja (off : BitVec 16) (h : off.toNat < 2 ^ 15) :
    exec K (⟨.ja off, sym⟩ :: is) .run s = exec K is (.skip off.toNat) s := by
  simp [exec, Mode.over, Op.exec, msb_of_lt h]

@[simp] theorem exec_jmp (op : JumpOp) (dst : Reg) (src : Operand) (off : BitVec 16)
    (h : off.toNat < 2 ^ 15) :
    exec K (⟨.jmp op dst src off, sym⟩ :: is) .run s
      = exec K is (.skip (if op.eval (s.regs dst) (src.eval s.regs) then off.toNat else 0)) s := by
  by_cases hc : op.eval (s.regs dst) (src.eval s.regs)
  · simp [exec, Mode.over, Op.exec, msb_of_lt h, hc]
  · simp [exec, Mode.over, Op.exec, hc]

@[simp] theorem exec_jmpTo (op : JumpOp) (dst : Reg) (src : Operand) (l : String) :
    exec K (⟨.jmpTo op dst src l, sym⟩ :: is) .run s
      = exec K is (if op.eval (s.regs dst) (src.eval s.regs) then .seek l else .run) s := by
  by_cases hc : op.eval (s.regs dst) (src.eval s.regs)
  · simp [exec, Mode.over, Op.exec, hc]
  · simp [exec, Mode.over, Op.exec, hc]

@[simp] theorem exec_call (fn : Helper) :
    exec K (⟨.call fn, sym⟩ :: is) .run s = exec K is .run (fn.exec K s) := rfl

@[simp] theorem exec_callKfunc (id : Nat) :
    exec K (⟨.callKfunc id, sym⟩ :: is) .run s
      = exec K is .run ((s.afterCall K K.fastcall).set .R0 (s.regs .R1)) := rfl

@[simp] theorem exec_exit : exec K (⟨.exit, sym⟩ :: is) .run s = .exit s := rfl

end Equations

/-! ## Agreement with the machine -/

/-- No instruction up to a jump to a label carries that label. -/
def LabelsForward (prog : List Insn) : Prop :=
  ∀ pre i suf l, prog = pre ++ i :: suf → i.op.label? = some l →
    ∀ j ∈ pre ++ [i], j.symbol ≠ some l

/-- Where the program counter stands when `m` is pending behind the
first `k` instructions of `prog`. -/
def Mode.Lands (m : Mode) (prog : List Insn) (k pc : Nat) : Prop :=
  match m with
  | .skip n => pc = k + n
  | .seek l => prog.findIdx? (fun j => j.symbol = some l) = some pc

theorem findIdx?_of_first {pre suf : List Insn} {i : Insn} {l : String}
    (hpre : ∀ j ∈ pre, j.symbol ≠ some l) (hi : i.symbol = some l) :
    (pre ++ i :: suf).findIdx? (fun j => j.symbol = some l) = some pre.length := by
  induction pre with
  | nil => simp [List.findIdx?_cons, hi]
  | cons j pre ih =>
    have hj : j.symbol ≠ some l := hpre j (by simp)
    have := ih fun j hj => hpre j (List.mem_cons_of_mem _ hj)
    simp [List.findIdx?_cons, hj, this]

theorem label_of_exec {K : Kernel} {op : Op} {s s' : State} {l : String}
    (h : op.exec K s = (s', .label l)) : op.label? = some l := by
  cases op with
  | jmpTo o dst src l' =>
    simp only [Op.exec, Prod.mk.injEq] at h
    by_cases hc : o.eval (s.regs dst) (src.eval s.regs)
    · simpa [hc, Op.label?] using h.2
    · simp [hc] at h
  | jmp o dst src off =>
    simp only [Op.exec, Prod.mk.injEq] at h
    by_cases hc : o.eval (s.regs dst) (src.eval s.regs) <;> simp [hc] at h
  | _ => simp [Op.exec] at h

/-- The induction is on the code still ahead; `pre` is what lies behind
the program counter. -/
theorem run_of_exec {K : Kernel} {prog : List Insn} (hfwd : LabelsForward prog) :
    ∀ (suf pre : List Insn) (m : Mode) (s s' : State), prog = pre ++ suf →
      (∀ l, m = .seek l → ∀ j ∈ pre, j.symbol ≠ some l) →
      exec K suf m s = .exit s' →
      ∃ pc, m.Lands prog pre.length pc ∧ ∃ n, run K prog n pc s = some s'
  | [], _, m, s, s', _, _, h => by simp at h
  | i :: suf, pre, m, s, s', hp, hm, h => by
      have hp' : prog = (pre ++ [i]) ++ suf := by simp [hp]
      have hget : prog[pre.length]? = some i := by simp [hp]
      simp only [exec] at h
      cases hover : m.over i with
      | some m' =>
        -- the instruction is jumped over
        rw [hover] at h
        have hm' : ∀ l, m' = .seek l → ∀ j ∈ pre ++ [i], j.symbol ≠ some l := by
          rintro l rfl j hj
          cases m with
          | skip n => cases n <;> simp [Mode.over] at hover
          | seek l' =>
            by_cases hi : i.symbol = some l'
            · simp [Mode.over, hi] at hover
            · simp only [Mode.over, hi, if_false, Option.some.injEq, Mode.seek.injEq] at hover
              subst hover
              rcases List.mem_append.mp hj with hj | hj
              · exact hm l' rfl j hj
              · simpa [List.mem_singleton.mp hj] using hi
        obtain ⟨pc, hpc, hrun⟩ := run_of_exec hfwd suf (pre ++ [i]) m' s s' hp' hm' h
        refine ⟨pc, ?_, hrun⟩
        cases m with
        | skip n =>
          cases n with
          | zero => simp [Mode.over] at hover
          | succ n =>
            simp only [Mode.over, Option.some.injEq] at hover
            subst hover
            simp only [Mode.Lands, List.length_append, List.length_singleton] at hpc ⊢
            omega
        | seek l =>
          by_cases hi : i.symbol = some l
          · simp [Mode.over, hi] at hover
          · simp only [Mode.over, hi, if_false, Option.some.injEq] at hover
            subst hover
            exact hpc
      | none =>
        rw [hover] at h
        refine ⟨pre.length, ?_, ?_⟩
        · cases m with
          | skip n =>
            cases n with
            | zero => simp [Mode.Lands]
            | succ n => simp [Mode.over] at hover
          | seek l =>
            by_cases hi : i.symbol = some l
            · rw [Mode.Lands, hp]
              exact findIdx?_of_first (hm l rfl) hi
            · simp [Mode.over, hi] at hover
        · -- executed here: the rest runs from where control goes
          rcases hop : i.op.exec K s with ⟨t, _ | off | l | _⟩
          · rw [hop] at h
            obtain ⟨pc, hpc, n, hn⟩ :=
              run_of_exec hfwd suf (pre ++ [i]) .run t s' hp' (by simp) h
            refine ⟨n + 1, ?_⟩
            have hpc' : pc = pre.length + 1 := by simpa [Mode.Lands] using hpc
            simp only [run, hget, hop]
            rw [← hpc']; exact hn
          · rw [hop] at h
            by_cases hneg : off.msb
            · simp [hneg] at h
            · simp only [hneg] at h
              obtain ⟨pc, hpc, n, hn⟩ :=
                run_of_exec hfwd suf (pre ++ [i]) (.skip off.toNat) t s' hp' (by simp) h
              refine ⟨n + 1, ?_⟩
              have hpc' : pc = pre.length + 1 + off.toNat := by simpa [Mode.Lands] using hpc
              have hint : (pre.length + 1 + off.toInt : Int) = Int.ofNat pc := by
                rw [BitVec.toInt_eq_toNat_of_msb (by simpa using hneg)]
                simp [hpc']
              simp only [run, hget, hop, hint]
              exact hn
          · rw [hop] at h
            have hlab := label_of_exec hop
            have hbefore := hfwd pre i suf l hp hlab
            obtain ⟨pc, hpc, n, hn⟩ :=
              run_of_exec hfwd suf (pre ++ [i]) (.seek l) t s' hp'
                (by rintro l' ⟨⟩; exact hbefore) h
            refine ⟨n + 1, ?_⟩
            have hpc' : prog.findIdx? (fun j => j.symbol = some l) = some pc := hpc
            simp only [run, hget, hop, hpc']
            exact hn
          · rw [hop] at h
            simp only [Outcome.exit.injEq] at h
            exact ⟨1, by simp [run, hget, hop, h]⟩

/-- Whatever the forward execution computes, the machine computes. -/
theorem exits_of_exec {K : Kernel} {prog : List Insn} {s s' : State}
    (hfwd : LabelsForward prog) (h : exec K prog .run s = .exit s') : Exits K prog s s' := by
  obtain ⟨pc, hpc, n, hn⟩ := run_of_exec hfwd prog [] .run s s' rfl (by simp) h
  have : pc = 0 := by simpa [Mode.Lands] using hpc
  exact ⟨n, this ▸ hn⟩

/-- A program without labels that is still running at its end never
exits. The induction is on the code still ahead. -/
theorem run_none_of_exec {K : Kernel} {prog : List Insn} (hsym : ∀ i ∈ prog, i.symbol = none) :
    ∀ (suf pre : List Insn) (k : Nat) (m : Mode) (s s' : State), prog = pre ++ suf →
      exec K suf (.skip k) s = .cont m s' → ∀ n, run K prog n (pre.length + k) s = none
  | _, _, _, _, _, _, _, _, 0 => rfl
  | [], pre, k, m, s, s', hp, _, n + 1 => by
      have hget : prog[pre.length + k]? = none := by
        rw [hp, List.append_nil]
        exact List.getElem?_eq_none (Nat.le_add_right _ _)
      simp only [run, hget]
  | i :: suf, pre, k + 1, m, s, s', hp, h, n + 1 => by
      have ih := run_none_of_exec hsym suf (pre ++ [i]) k m s s' (by simp [hp]) h (n + 1)
      rwa [List.length_append, List.length_singleton, Nat.add_assoc, Nat.add_comm 1 k] at ih
  | i :: suf, pre, 0, m, s, s', hp, h, n + 1 => by
      have hp' : prog = (pre ++ [i]) ++ suf := by simp [hp]
      have hget : prog[pre.length + 0]? = some i := by simp [hp]
      have hover : Mode.run.over i = none := rfl
      simp only [exec, hover] at h
      rcases hop : i.op.exec K s with ⟨t, _ | off | l | _⟩
      · rw [hop] at h
        have ih := run_none_of_exec hsym suf (pre ++ [i]) 0 m t s' hp' h n
        simp only [run, hget, hop]
        simpa using ih
      · rw [hop] at h
        by_cases hneg : off.msb
        · simp [hneg] at h
        · simp only [hneg] at h
          have ih := run_none_of_exec hsym suf (pre ++ [i]) off.toNat m t s' hp' h n
          have hint : (((pre.length + 0 : Nat) : Int) + 1 + off.toInt)
              = Int.ofNat ((pre ++ [i]).length + off.toNat) := by
            rw [BitVec.toInt_eq_toNat_of_msb (by simpa using hneg)]
            simp
          simp only [run, hget, hop, hint]
          exact ih
      · -- no instruction carries the label
        have hnone : prog.findIdx? (fun j => j.symbol = some l) = none := by
          refine List.findIdx?_eq_none_iff.mpr fun j hj => ?_
          simp [hsym j hj]
        simp only [run, hget, hop, hnone]
      · rw [hop] at h
        simp at h

theorem not_exits_of_exec {K : Kernel} {prog : List Insn} {m : Mode} {s s' t : State}
    (hsym : ∀ i ∈ prog, i.symbol = none) (h : exec K prog .run s = .cont m s') :
    ¬ Exits K prog s t := by
  rintro ⟨n, hn⟩
  have hrun := run_none_of_exec hsym prog [] 0 m s s' rfl h n
  rw [List.length_nil] at hrun
  rw [hrun] at hn
  exact absurd hn (by simp)

/-- Labels are forward when all jumps to labels come before all labels. -/
theorem labelsForward_of_split {body rest : List Insn} (hbody : ∀ i ∈ body, i.symbol = none)
    (hrest : ∀ i ∈ rest, i.op.label? = none) : LabelsForward (body ++ rest) := by
  intro pre i suf l hp hl j hj
  have hi : i ∉ rest := fun h => by simp [hrest i h] at hl
  -- so the jump, and everything before it, lies in `body`
  have hsub : pre ++ [i] ⊆ body := by
    rcases List.append_eq_append_iff.mp hp with ⟨x, hx, hx'⟩ | ⟨x, hx, hx'⟩
    · have : i ∈ rest := by
        rw [hx']
        simp
      exact absurd this hi
    · cases x with
      | nil =>
        simp only [List.nil_append] at hx'
        exact absurd (by rw [← hx']; simp) hi
      | cons y ys =>
        simp only [List.cons_append, List.cons.injEq] at hx'
        obtain ⟨rfl, -⟩ := hx'
        rw [hx]
        intro k hk
        simp only [List.mem_append, List.mem_cons] at hk ⊢
        tauto
  simp [hbody j (hsub hj)]

end Bpfsnoop.Ebpf
