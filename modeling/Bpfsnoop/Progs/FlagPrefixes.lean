/-
Bpfsnoop.Progs.FlagPrefixes — parsing the flags of programs and kernel
functions.

A flag begins with any number of options, each a letter in parentheses. The
loop that takes them off goes on while the text begins with a parenthesis,
and a round tries each letter once. So a text that begins with a parenthesis
but with no option keeps it running for ever. `flagPrefixes_iff` says that
this is the only such text, and that options may be repeated and stand in any
order.

Texts are lists of characters. A parser that does not return has no result
(`none`) for any number of rounds.
-/
import Bpfsnoop.Lib.Loops
import Bpfsnoop.Lib.Text
import Bpfsnoop.Progs.ProgFlags

namespace Bpfsnoop.Progs

open CC Lib

/-! ## Options -/

section Options

variable {σ : Type} (set : Char → σ → σ) (letters : List Char)

/-- `if strings.HasPrefix(p, "(g)") { …; p = p[3:] }`. -/
def tryPrefix (st : σ × List Char) (letter : Char) : σ × List Char :=
  match st.2 with
  | '(' :: c :: ')' :: rest => if c = letter then (set letter st.1, rest) else st
  | _ => st

/-- A round of the loop, or its end. -/
def prefixRound (st : σ × List Char) : Except (σ × List Char) (σ × List Char) :=
  if st.2.head? = some '(' then .ok (letters.foldl (tryPrefix set) st) else .error st

/-- The loop, and the code behind it. -/
def parsePrefixes {α : Type} (behind : σ → String → α) (fuel : Nat) (flag : σ) (text : String) : Option α :=
  match loop (prefixRound set letters) fuel (flag, text.toList) with
  | .ok _ => none
  | .error (flag, rest) => some (behind flag (String.ofList rest))

end Options

/-- The options of the command line. -/
structure CommandOptions where
  outputFuncInsns : Bool
  outputFuncGraph : Bool
  outputFuncStack : Bool
  outputLbr : Bool
  outputPkt : Bool
  /-- `hasModeEntry` and `hasModeExit`. -/
  modeEntry : Bool
  modeExit : Bool

/-- The options that both kinds of flags have. -/
def ProgFlagImmInfo.set (letter : Char) (imm : ProgFlagImmInfo) : ProgFlagImmInfo :=
  match letter with
  | 'g' => { imm with graph := true }
  | 's' => { imm with stack := true }
  | 'l' => { imm with lbr := true }
  | 'b' => { imm with both := true }
  | 'p' => { imm with pkt := true }
  | _ => imm

/-- `pf.graph = pf.graph || outputFuncGraph` and so on. -/
def ProgFlagImmInfo.withCommand (cmd : CommandOptions) (imm : ProgFlagImmInfo) : ProgFlagImmInfo :=
  { imm with
    graph := imm.graph || cmd.outputFuncGraph
    stack := imm.stack || cmd.outputFuncStack
    lbr := imm.lbr || cmd.outputLbr
    both := imm.both || (cmd.modeEntry && cmd.modeExit)
    pkt := imm.pkt || cmd.outputPkt }

/-! ## Texts -/

/-- `strings.Cut(s, ":")`. -/
def cutColon (s : String) : String × String × Bool :=
  match s.toList.span (· ≠ ':') with
  | (before, _ :: after) => (String.ofList before, String.ofList after, true)
  | (_, []) => (s, "", false)

/-- `strconv.ParseUint(s, 10, 32)`. -/
def parseUint32 (s : String) : Except GoError (BitVec 32) :=
  if s = "" then .error .errSyntax else (go s.toList 0).map (BitVec.ofNat 32)
where
  go : List Char → Nat → Except GoError Nat
    | [], n => .ok n
    | c :: cs, n =>
      match digit? 10 c with
      | none => .error .errSyntax
      | some d => if n * 10 + d < 2 ^ 32 then go cs (n * 10 + d) else .error .errRange

/-- `getTypeDescFrom`. -/
def getTypeDescFrom (s : String) : Except GoError String :=
  if s = "" ∨ s.toList.head? ≠ some '(' then .ok ""
  else if ')' ∈ s.toList.tail then .ok (String.ofList (s.toList.tail.takeWhile (· ≠ ')')))
  else .error (.errorf "failed to get type description from %s" [.text s])

/-! ## `parseProgFlag` -/

def progLetters : List Char := ['g', 's', 'l', 'b', 'p']

def ProgFlag.set (letter : Char) (pf : ProgFlag) : ProgFlag :=
  { pf with toProgFlagImmInfo := pf.toProgFlagImmInfo.set letter }

def ProgFlag.withCommand (cmd : CommandOptions) (pf : ProgFlag) : ProgFlag :=
  { pf with toProgFlagImmInfo := pf.toProgFlagImmInfo.withCommand cmd }

section Prog

variable (cmd : CommandOptions) (fileExists : String → Bool)

/-- The id of a program, behind the switch. -/
def parseProgID (pf : ProgFlag) (p id funcName : String) (ok : Bool) : Except GoError ProgFlag :=
  match parseUint32 id with
  | .error err => .error (.wrapf "failed to parse progID %s from %s: %w" [.text id, .text p] err)
  | .ok progID =>
    if ok then .ok { pf with descriptor := .id, progID := progID, funcName := funcName }
    else .ok { pf with descriptor := .id, progID := progID }

/-- The switch over the descriptor. -/
def parseDescriptor (pf : ProgFlag) (p : String) : Except GoError ProgFlag :=
  let (id, funcName, ok) := cutColon p
  if id ∈ ["i", "id"] then
    let (id, funcName, ok) := cutColon funcName
    parseProgID pf p id funcName ok
  else if id ∈ ["p", "pinned"] then
    let (pinned, funcName, _) := cutColon funcName
    if fileExists pinned then .ok { pf with descriptor := .pinned, pinned := pinned, funcName := funcName }
    else .error (.errorf "pinned file %s does not exist" [.text pinned])
  else if id ∈ ["t", "tag"] then
    let (tag, funcName, _) := cutColon funcName
    if tag = "" then .error (.errorf "tag must not be empty" [])
    else .ok { pf with descriptor := .tag, tag := tag, funcName := funcName }
  else if id ∈ ["n", "name"] then
    let (name, funcName, _) := cutColon funcName
    if name = "" then .error (.errorf "name must not be empty" [])
    else .ok { pf with descriptor := .name, name := name, funcName := funcName }
  else if id = "pid" then
    let (id, funcName', _) := cutColon funcName
    match parseUint32 id with
    | .error err => .error (.wrapf "failed to parse pid %s from %s: %w" [.text funcName, .text p] err)
    | .ok pid => .ok { pf with descriptor := .pid, pid := pid, funcName := funcName' }
  else parseProgID pf p id funcName ok

/-- `parseProgFlag` behind the loop. -/
def progFlagBehind (pf : ProgFlag) (p : String) : Except GoError ProgFlag :=
  let pf := pf.withCommand cmd
  if p = "*" then .ok { pf with all := true } else parseDescriptor fileExists pf p

/-- `parseProgFlag`, up to `fuel` rounds. -/
def parseProgFlag (fuel : Nat) (p : String) : Option (Except GoError ProgFlag) :=
  parsePrefixes ProgFlag.set progLetters (progFlagBehind cmd fileExists) fuel {} p

end Prog

/-! ## `parseKfuncFlag` -/

/-- `KfuncFlag`. -/
structure KfuncFlag extends ProgFlagImmInfo where
  name : String := ""
  arg : String := ""
  typ : String := ""
  insn : Bool := false
  deriving DecidableEq, Repr

def kfuncLetters : List Char := ['i', 'g', 's', 'l', 'b', 'p']

def KfuncFlag.set (letter : Char) (kf : KfuncFlag) : KfuncFlag :=
  if letter = 'i' then { kf with insn := true } else { kf with toProgFlagImmInfo := kf.toProgFlagImmInfo.set letter }

def KfuncFlag.withCommand (cmd : CommandOptions) (kf : KfuncFlag) : KfuncFlag :=
  { kf with
    insn := kf.insn || cmd.outputFuncInsns
    toProgFlagImmInfo := kf.toProgFlagImmInfo.withCommand cmd }

/-- The switch over the number of fields. -/
def parseFields (kf : KfuncFlag) (k : String) : Except GoError KfuncFlag :=
  match (k.toList.splitOn ':').map String.ofList with
  | [name] => .ok { kf with name := trimSpace name }
  | [name, arg] =>
    let arg := trimSpace arg
    if arg ≠ "" ∧ arg.toList.head? = some '(' then
      match getTypeDescFrom arg with
      | .error err => .error err
      | .ok typ =>
        .ok { kf with
          name := trimSpace name
          typ := trimSpace typ
          arg := trimSpace (String.ofList (arg.toList.drop (typ.length + 2))) }
    else .ok { kf with name := trimSpace name, arg := arg }
  | [name, arg, typ] => .ok { kf with name := trimSpace name, arg := trimSpace arg, typ := trimSpace typ }
  | _ => .error (.errorf "invalid kfunc flag: %s" [.text k])

section Kfunc

variable (cmd : CommandOptions)

/-- `parseKfuncFlag` behind the loop. -/
def kfuncFlagBehind (kf : KfuncFlag) (k : String) : Except GoError KfuncFlag :=
  let kf := kf.withCommand cmd
  if kf.insn && kf.graph then .error (.errorf "kfunc %s cannot be traced with both insn and graph" [.text k])
  else parseFields kf k

/-- `parseKfuncFlag`, up to `fuel` rounds. -/
def parseKfuncFlag (fuel : Nat) (k : String) : Option (Except GoError KfuncFlag) :=
  parsePrefixes KfuncFlag.set kfuncLetters (kfuncFlagBehind cmd) fuel {} k

end Kfunc

/-! ## The loop -/

/-- Options as text. -/
def encode (ls : List Char) : List Char := ls.flatMap fun l => ['(', l, ')']

@[simp] theorem encode_cons (l : Char) (ls : List Char) : encode (l :: ls) = '(' :: l :: ')' :: encode ls := rfl

/-- The options that a text begins with, and what is behind them. -/
def optionsOf (letters : List Char) : List Char → List Char × List Char
  | '(' :: c :: ')' :: rest =>
    if c ∈ letters then (c :: (optionsOf letters rest).1, (optionsOf letters rest).2)
    else ([], '(' :: c :: ')' :: rest)
  | text => ([], text)

/-- No option can be taken off. -/
def Stuck (letters rest : List Char) : Prop := ∀ l ∈ letters, ∀ r, rest ≠ '(' :: l :: ')' :: r

section Loop

variable {σ : Type} {letters rest : List Char} {flag : σ} (set : Char → σ → σ)

/-- A text is its options and a rest without. -/
theorem optionsOf_spec (letters text : List Char) :
    text = encode (optionsOf letters text).1 ++ (optionsOf letters text).2 ∧
      (∀ l ∈ (optionsOf letters text).1, l ∈ letters) ∧ Stuck letters (optionsOf letters text).2 := by
  fun_induction optionsOf letters text with
  | case1 c rest hc ih =>
    obtain ⟨htext, hls, hstuck⟩ := ih
    refine ⟨?_, ?_, hstuck⟩
    · rw [encode_cons, List.cons_append, List.cons_append, List.cons_append, ← htext]
    · intro l hl
      rcases List.mem_cons.mp hl with rfl | hl
      · exact hc
      · exact hls l hl
  | case2 c rest hc =>
    refine ⟨rfl, fun l hl => absurd hl List.not_mem_nil, ?_⟩
    intro l hl r heq
    obtain ⟨rfl, -⟩ := List.cons.inj (List.cons.inj heq).2
    exact hc hl
  | case3 text hnone =>
    refine ⟨rfl, fun l hl => absurd hl List.not_mem_nil, ?_⟩
    intro l _ r heq
    exact hnone l r heq

theorem stuck_of_head (hhead : rest.head? ≠ some '(') : Stuck letters rest := by
  intro l _ r heq
  rw [heq] at hhead
  exact hhead rfl

theorem tryPrefix_stuck {l : Char} (hstuck : Stuck letters rest) (hl : l ∈ letters) :
    tryPrefix set (flag, rest) l = (flag, rest) := by
  unfold tryPrefix
  split
  · rename_i c r heq
    rw [if_neg]
    rintro rfl
    exact hstuck c hl r heq
  · rfl

/-- A round takes some options off, and the first one if it knows it. -/
theorem foldl_tryPrefix (hstuck : Stuck letters rest) {todo : List Char} (htodo : ∀ l ∈ todo, l ∈ letters)
    (ls : List Char) (flag : σ) :
    ∃ taken left, ls = taken ++ left ∧
      todo.foldl (tryPrefix set) (flag, encode ls ++ rest)
        = (taken.foldl (fun flag l => set l flag) flag, encode left ++ rest) ∧
      ∀ l, ls.head? = some l → l ∈ todo → taken ≠ [] := by
  induction todo generalizing ls flag with
  | nil => exact ⟨[], ls, rfl, rfl, fun l _ hl => absurd hl List.not_mem_nil⟩
  | cons letter todo ih =>
    have htodo' : ∀ l ∈ todo, l ∈ letters := fun l hl => htodo l (List.mem_cons_of_mem _ hl)
    rw [List.foldl_cons]
    cases ls with
    | nil =>
      rw [show encode [] ++ rest = rest from rfl, tryPrefix_stuck set hstuck (htodo letter List.mem_cons_self)]
      obtain ⟨taken, left, hls, hfold, -⟩ := ih htodo' [] flag
      exact ⟨taken, left, hls, hfold, fun l hl => by cases hl⟩
    | cons l ls =>
      rw [encode_cons, List.cons_append, List.cons_append, List.cons_append]
      by_cases hl : l = letter
      · subst hl
        have htake : tryPrefix set (flag, '(' :: l :: ')' :: (encode ls ++ rest)) l = (set l flag, encode ls ++ rest) :=
          if_pos rfl
        obtain ⟨taken, left, hls, hfold, -⟩ := ih htodo' ls (set l flag)
        refine ⟨l :: taken, left, by rw [hls]; rfl, ?_, fun _ _ _ => List.cons_ne_nil _ _⟩
        rw [htake, hfold]
        rfl
      · have hkeep : tryPrefix set (flag, '(' :: l :: ')' :: (encode ls ++ rest)) letter
            = (flag, encode (l :: ls) ++ rest) := if_neg hl
        obtain ⟨taken, left, hls, hfold, hprogress⟩ := ih htodo' (l :: ls) flag
        refine ⟨taken, left, hls, ?_, ?_⟩
        · rw [hkeep, hfold]
        · intro l' hhead hmem
          rcases List.mem_cons.mp hmem with rfl | hmem
          · exact absurd (Option.some.inj hhead) hl
          · exact hprogress l' hhead hmem

/-- Behind options that it knows the loop ends. -/
theorem loop_returns (hhead : rest.head? ≠ some '(') {ls : List Char} (hls : ∀ l ∈ ls, l ∈ letters) (flag : σ) :
    ∃ fuel, loop (prefixRound set letters) fuel (flag, encode ls ++ rest)
      = .error (ls.foldl (fun flag l => set l flag) flag, rest) := by
  induction hlen : ls.length using Nat.strongRecOn generalizing ls flag with
  | ind n ih =>
    cases ls with
    | nil => exact ⟨1, loop_succ_of_error (if_neg hhead)⟩
    | cons l ls =>
      obtain ⟨taken, left, hsplit, hfold, hprogress⟩ :=
        foldl_tryPrefix set (stuck_of_head hhead : Stuck letters rest) (fun l hl => hl) (l :: ls) flag
      have hne := hprogress l rfl (hls l List.mem_cons_self)
      have hparen : (encode (l :: ls) ++ rest).head? = some '(' := rfl
      have hround : prefixRound set letters (flag, encode (l :: ls) ++ rest)
          = .ok (taken.foldl (fun flag l => set l flag) flag, encode left ++ rest) :=
        (if_pos hparen).trans (congrArg Except.ok hfold)
      have hshorter : left.length < n := by
        have htaken := List.length_pos_of_ne_nil hne
        have htotal := congrArg List.length hsplit
        rw [List.length_append] at htotal
        omega
      obtain ⟨fuel, hloop⟩ := ih _ hshorter (fun l hl => hls l (by rw [hsplit]; exact List.mem_append_right _ hl)) _ rfl
      refine ⟨fuel + 1, ?_⟩
      rw [loop_succ_of_ok hround, hloop, hsplit, List.foldl_append]

/-- In front of another parenthesis it does not. -/
theorem loop_stuck (hstuck : Stuck letters rest) (hhead : rest.head? = some '(') (ls : List Char) (flag : σ) (fuel : Nat) :
    ∃ st, loop (prefixRound set letters) fuel (flag, encode ls ++ rest) = .ok st := by
  refine loop_forever (I := fun st => ∃ flag ls, st = (flag, encode ls ++ rest)) ?_ ⟨flag, ls, rfl⟩ fuel
  intro st hst
  obtain ⟨flag, ls, rfl⟩ := hst
  obtain ⟨taken, left, -, hfold, -⟩ := foldl_tryPrefix set hstuck (fun l hl => hl) ls flag
  have hparen : (encode ls ++ rest).head? = some '(' := by
    cases ls with
    | nil => exact hhead
    | cons l ls => rfl
  exact ⟨_, if_pos hparen, _, left, hfold⟩

end Loop

/-! ## Parsers with options -/

/-- The parser returns, and for options and a rest without a parenthesis it
returns what it does for the rest, with the options. -/
def OptionsFirst {α : Type} (letters : List Char) (parse : Nat → String → Option α)
    (withOptions : List Char → String → α → α) (text : String) : Prop :=
  (∃ fuel, (parse fuel text).isSome) ∧
  ∀ (ls : List Char) (rest : String), text.toList = encode ls ++ rest.toList → (∀ l ∈ ls, l ∈ letters) →
    rest.toList.head? ≠ some '(' → ∀ fuel result, parse fuel text = some result →
      ∃ plain, parse 1 rest = some plain ∧ result = withOptions ls rest plain

theorem optionsFirst_iff {σ α : Type} {set : Char → σ → σ} {letters : List Char} {behind : σ → String → α} {flag : σ}
    {withOptions : List Char → String → α → α}
    (hbehind : ∀ ls rest, behind (ls.foldl (fun flag l => set l flag) flag) rest = withOptions ls rest (behind flag rest))
    (text : String) :
    OptionsFirst letters (fun fuel text => parsePrefixes set letters behind fuel flag text) withOptions text ↔
      (optionsOf letters text.toList).2.head? ≠ some '(' := by
  obtain ⟨htext, hallowed, hstuck⟩ := optionsOf_spec letters text.toList
  constructor
  · intro hparse hhead
    -- the loop does not end
    obtain ⟨fuel, hsome⟩ := hparse.1
    obtain ⟨st, hloop⟩ := loop_stuck set hstuck hhead (optionsOf letters text.toList).1 flag fuel
    dsimp only [parsePrefixes] at hsome
    rw [htext, hloop] at hsome
    cases hsome
  · intro hhead
    refine ⟨?_, ?_⟩
    · obtain ⟨fuel, hloop⟩ := loop_returns set hhead hallowed flag
      refine ⟨fuel, ?_⟩
      dsimp only [parsePrefixes]
      rw [htext, hloop]
      rfl
    · intro ls rest hrest hls hend fuel result hresult
      obtain ⟨fuel', hloop'⟩ := loop_returns set hend hls flag
      have hplain : parsePrefixes set letters behind 1 flag rest = some (behind flag rest) := by
        have hround : prefixRound set letters (flag, rest.toList) = .error (flag, rest.toList) := if_neg hend
        dsimp only [parsePrefixes]
        rw [loop_succ_of_error hround]
        dsimp only
        rw [String.ofList_toList]
      refine ⟨_, hplain, ?_⟩
      dsimp only [parsePrefixes] at hresult
      rw [hrest] at hresult
      cases hloop : loop (prefixRound set letters) fuel (flag, encode ls ++ rest.toList) with
      | ok st =>
        rw [hloop] at hresult
        cases hresult
      | error st =>
        rw [hloop] at hresult
        obtain rfl := loop_error_unique hloop hloop'
        rw [← Option.some.inj hresult, String.ofList_toList, hbehind]

/-! ## The options of a flag -/

/-- Options more. -/
def ProgFlagImmInfo.withLetters (ls : List Char) (imm : ProgFlagImmInfo) : ProgFlagImmInfo :=
  { imm with
    graph := imm.graph || decide ('g' ∈ ls)
    stack := imm.stack || decide ('s' ∈ ls)
    lbr := imm.lbr || decide ('l' ∈ ls)
    both := imm.both || decide ('b' ∈ ls)
    pkt := imm.pkt || decide ('p' ∈ ls) }

def ProgFlag.withLetters (ls : List Char) (pf : ProgFlag) : ProgFlag :=
  { pf with toProgFlagImmInfo := pf.toProgFlagImmInfo.withLetters ls }

def KfuncFlag.withLetters (ls : List Char) (kf : KfuncFlag) : KfuncFlag :=
  { kf with insn := kf.insn || decide ('i' ∈ ls), toProgFlagImmInfo := kf.toProgFlagImmInfo.withLetters ls }

theorem withLetters_nil (imm : ProgFlagImmInfo) : imm.withLetters [] = imm := by
  simp [ProgFlagImmInfo.withLetters]

/-- One option, then the others. -/
theorem set_withLetters (l : Char) (ls : List Char) (imm : ProgFlagImmInfo) :
    (imm.set l).withLetters ls = imm.withLetters (l :: ls) := by
  unfold ProgFlagImmInfo.set
  split
  · simp [ProgFlagImmInfo.withLetters]
  · simp [ProgFlagImmInfo.withLetters]
  · simp [ProgFlagImmInfo.withLetters]
  · simp [ProgFlagImmInfo.withLetters]
  · simp [ProgFlagImmInfo.withLetters]
  · rename_i hg hs hl hb hp
    simp [ProgFlagImmInfo.withLetters, Ne.symm hg, Ne.symm hs, Ne.symm hl, Ne.symm hb, Ne.symm hp]

theorem foldl_set_prog (ls : List Char) (pf : ProgFlag) :
    ls.foldl (fun pf l => ProgFlag.set l pf) pf = pf.withLetters ls := by
  induction ls generalizing pf with
  | nil => rw [ProgFlag.withLetters, withLetters_nil]; rfl
  | cons l ls ih =>
    rw [List.foldl_cons, ih, ProgFlag.withLetters, ProgFlag.withLetters, ← set_withLetters]
    rfl

theorem foldl_set_kfunc (ls : List Char) (kf : KfuncFlag) :
    ls.foldl (fun kf l => KfuncFlag.set l kf) kf = kf.withLetters ls := by
  induction ls generalizing kf with
  | nil =>
    rw [KfuncFlag.withLetters, withLetters_nil]
    simp
  | cons l ls ih =>
    rw [List.foldl_cons, ih, KfuncFlag.withLetters, KfuncFlag.withLetters, ← set_withLetters, KfuncFlag.set]
    by_cases hl : l = 'i'
    · subst hl
      simp [ProgFlagImmInfo.set]
    · simp [hl, Ne.symm hl]

theorem withCommand_withLetters (cmd : CommandOptions) (ls : List Char) (imm : ProgFlagImmInfo) :
    (imm.withLetters ls).withCommand cmd = (imm.withCommand cmd).withLetters ls := by
  simp [ProgFlagImmInfo.withLetters, ProgFlagImmInfo.withCommand, Bool.or_right_comm]

section Behind

variable (cmd : CommandOptions) (fileExists : String → Bool) (ls : List Char)

theorem parseProgID_withLetters (pf : ProgFlag) (p id funcName : String) (ok : Bool) :
    parseProgID (pf.withLetters ls) p id funcName ok
      = (parseProgID pf p id funcName ok).map (ProgFlag.withLetters ls) := by
  unfold parseProgID
  cases parseUint32 id with
  | error err => rfl
  | ok progID => cases ok <;> rfl

/-- The switch does not look at the options. -/
theorem parseDescriptor_withLetters (pf : ProgFlag) (p : String) :
    parseDescriptor fileExists (pf.withLetters ls) p
      = (parseDescriptor fileExists pf p).map (ProgFlag.withLetters ls) := by
  unfold parseDescriptor
  simp only [parseProgID_withLetters]
  generalize cutColon p = field
  generalize cutColon field.2.1 = rest
  split
  · rfl
  split
  · split <;> rfl
  split
  · split <;> rfl
  split
  · split <;> rfl
  split
  · split <;> rfl
  · rfl

theorem progFlagBehind_withLetters (pf : ProgFlag) (p : String) :
    progFlagBehind cmd fileExists (pf.withLetters ls) p
      = (progFlagBehind cmd fileExists pf p).map (ProgFlag.withLetters ls) := by
  have hcommand : (pf.withLetters ls).withCommand cmd = (pf.withCommand cmd).withLetters ls := by
    simp only [ProgFlag.withLetters, ProgFlag.withCommand, withCommand_withLetters]
  unfold progFlagBehind
  dsimp only
  rw [hcommand]
  split
  · rfl
  · exact parseDescriptor_withLetters fileExists ls _ p

theorem parseFields_withLetters (kf : KfuncFlag) (k : String) :
    parseFields (kf.withLetters ls) k = (parseFields kf k).map (KfuncFlag.withLetters ls) := by
  unfold parseFields
  split
  · rfl
  · dsimp only
    split
    · split <;> rfl
    · rfl
  · rfl
  · rfl

/-- What options do to the result for a kernel function. Both an `i` and a
`g`, here or on the command line, are refused. -/
def kfuncWithOptions (ls : List Char) (k : String) (plain : Except GoError KfuncFlag) : Except GoError KfuncFlag :=
  if ('i' ∈ ls ∨ cmd.outputFuncInsns) ∧ ('g' ∈ ls ∨ cmd.outputFuncGraph) then
    .error (.errorf "kfunc %s cannot be traced with both insn and graph" [.text k])
  else plain.map (KfuncFlag.withLetters ls)

theorem kfuncFlagBehind_withLetters (k : String) :
    kfuncFlagBehind cmd (KfuncFlag.withLetters ls {}) k = kfuncWithOptions cmd ls k (kfuncFlagBehind cmd {} k) := by
  have hcommand (kf : KfuncFlag) : (kf.withLetters ls).withCommand cmd = (kf.withCommand cmd).withLetters ls := by
    simp only [KfuncFlag.withLetters, KfuncFlag.withCommand, withCommand_withLetters, Bool.or_right_comm]
  -- both are refused with the options if they are without
  have hrefused : ((KfuncFlag.withCommand cmd {}).insn && (KfuncFlag.withCommand cmd {}).graph) = true →
      ('i' ∈ ls ∨ cmd.outputFuncInsns) ∧ ('g' ∈ ls ∨ cmd.outputFuncGraph) := by
    intro h
    have hboth : cmd.outputFuncInsns = true ∧ cmd.outputFuncGraph = true := by
      simpa [KfuncFlag.withCommand, ProgFlagImmInfo.withCommand] using h
    exact ⟨.inr hboth.1, .inr hboth.2⟩
  have hguard : (((KfuncFlag.withCommand cmd {}).withLetters ls).insn && ((KfuncFlag.withCommand cmd {}).withLetters ls).graph)
      = true ↔ ('i' ∈ ls ∨ cmd.outputFuncInsns) ∧ ('g' ∈ ls ∨ cmd.outputFuncGraph) := by
    simp [KfuncFlag.withCommand, KfuncFlag.withLetters, ProgFlagImmInfo.withCommand, ProgFlagImmInfo.withLetters, or_comm]
  unfold kfuncFlagBehind kfuncWithOptions
  dsimp only
  rw [hcommand]
  by_cases hboth : ('i' ∈ ls ∨ cmd.outputFuncInsns) ∧ ('g' ∈ ls ∨ cmd.outputFuncGraph)
  · rw [if_pos (hguard.mpr hboth), if_pos hboth]
  · rw [if_neg (fun h => hboth (hguard.mp h)), if_neg hboth, if_neg (fun h => hboth (hrefused h))]
    exact parseFields_withLetters ls _ k

end Behind

/-! ## The parsers -/

/-- What the parser of a program flag is to do. -/
def ProgPrefixes (cmd : CommandOptions) (fileExists : String → Bool) (p : String) : Prop :=
  OptionsFirst progLetters (parseProgFlag cmd fileExists) (fun ls _ plain => plain.map (ProgFlag.withLetters ls)) p

/-- And that of a kernel function. -/
def KfuncPrefixes (cmd : CommandOptions) (k : String) : Prop :=
  OptionsFirst kfuncLetters (parseKfuncFlag cmd) (kfuncWithOptions cmd) k

/-- **Options.** The parsers do so if and only if there is no parenthesis
behind the options. -/
theorem flagPrefixes_iff (cmd : CommandOptions) (fileExists : String → Bool) (text : String) :
    (ProgPrefixes cmd fileExists text ↔ (optionsOf progLetters text.toList).2.head? ≠ some '(') ∧
      (KfuncPrefixes cmd text ↔ (optionsOf kfuncLetters text.toList).2.head? ≠ some '(') := by
  constructor
  · refine optionsFirst_iff (fun ls rest => ?_) text
    rw [foldl_set_prog]
    exact progFlagBehind_withLetters cmd fileExists ls {} rest
  · refine optionsFirst_iff (fun ls rest => ?_) text
    rw [foldl_set_kfunc]
    exact kfuncFlagBehind_withLetters cmd ls rest

/-- A command line without options. -/
def noOptions : CommandOptions := ⟨false, false, false, false, false, false, false⟩

/-- A letter that is no option keeps the parsers running. -/
theorem unknown_option_hangs :
    (∀ fuel, parseProgFlag noOptions (fun _ => false) fuel "(x)foo" = none) ∧
      (∀ fuel, parseKfuncFlag noOptions fuel "(x)foo" = none) ∧
      ¬ ProgPrefixes noOptions (fun _ => false) "(x)foo" ∧ ¬ KfuncPrefixes noOptions "(x)foo" := by
  have hstuck {σ α : Type} {set : Char → σ → σ} {letters : List Char} {behind : σ → String → α} {flag : σ}
      (hx : 'x' ∉ letters) (fuel : Nat) : parsePrefixes set letters behind fuel flag "(x)foo" = none := by
    have hnone : Stuck letters "(x)foo".toList := by
      intro l hl r heq
      obtain ⟨rfl, -⟩ := List.cons.inj (List.cons.inj heq).2
      exact hx hl
    obtain ⟨st, hloop⟩ := loop_stuck set hnone rfl [] flag fuel
    change loop (prefixRound set letters) fuel (flag, "(x)foo".toList) = .ok st at hloop
    rw [parsePrefixes, hloop]
  have hprog (fuel : Nat) : parseProgFlag noOptions (fun _ => false) fuel "(x)foo" = none := hstuck (by decide) fuel
  have hkfunc (fuel : Nat) : parseKfuncFlag noOptions fuel "(x)foo" = none := hstuck (by decide) fuel
  refine ⟨hprog, hkfunc, fun h => ?_, fun h => ?_⟩
  · obtain ⟨fuel, hsome⟩ := h.1
    rw [hprog fuel] at hsome
    cases hsome
  · obtain ⟨fuel, hsome⟩ := h.1
    rw [hkfunc fuel] at hsome
    cases hsome

end Bpfsnoop.Progs
