import Technosphere.Shell.Theorems.Precedence

open AndOr (Op selects)
open Shell (CallsLocals calcCallsBody opType)

namespace Redirected

-- Of the blocks for the given modes, those that are left behind the one that takes a redirection.
def blocksAfter : List OpenMode → OpenMode → Option (List OpenMode)
  | [],      _    => none
  | m :: ms, mode => if mode = m then some ms else blocksAfter ms mode

-- The files that are opened for redirections of which the first ones meet the blocks `ms`. When no
-- block takes a redirection, its file is the name of another command.
def openedFrom (env : Environment) : List OpenMode → ℕ → List Redirection → List (String × OpenMode)
  | _,  _, []      => []
  | ms, n, r :: rs =>
    match blocksAfter ms r.mode with
    | some ms =>
      (if env.opens (n + 1) then [(r.file, r.mode)] else []) ++ openedFrom env ms (n + 2) rs
    | none    => openedFrom env modes (n + 2) rs

def Command.opened (env : Environment) (c : Command) (n : ℕ) : List (String × OpenMode) :=
  openedFrom env modes (n + c.argv.length) c.redirections

def openedBehind (env : Environment) : ℕ → List Command → List (String × OpenMode)
  | _, []      => []
  | n, c :: cs => c.opened env (n + 1) ++ openedBehind env (n + 1 + c.lexems.length) cs

def Pipeline.opened (env : Environment) (p : Pipeline) (n : ℕ) : List (String × OpenMode) :=
  p.first.opened env n ++ openedBehind env (n + p.first.lexems.length) p.rest

-- What `calcCalls_` does in a round before it looks for an operator.
def round (env : Environment) (lexems : List Lexem) (l : CallsLocals) : Option CallsLocals := do
  let s := { l.shell with readfd := l.shell.prevReadfd }
  let (call, idx, k) ← Call.new env lexems l.idx s.readfd s.writefd s.kernel
  let s := { s with kernel := k }
  if typeAt lexems idx = some .pipe then do
    let (s, status, idx) ← s.calcPipeline env call l.status lexems idx l.prevOp
    return { l with shell := s, status, idx }
  else
    let (s, status) := s.calcSingle env call l.status l.prevOp
    return { l with shell := s, status, idx }

def runs (s : Shell) : Option LexemType → Bool
  | none      => true
  | some .and => s.prevExitStatus.success
  | some .or  => !s.prevExitStatus.success
  | some _    => false

abbrev Rounds (env : Environment) (lexems : List Lexem) : CallsLocals → CallsLocals → Prop :=
  Relation.ReflTransGen fun l l' =>
    decide (l.idx < lexems.length) = true ∧ calcCallsBody env lexems l = some l'

variable {env : Environment} {lexems rest : List Lexem} {n : ℕ} {ms : List OpenMode}
  {rs : List Redirection} {r : Redirection} {l l₁ l₂ : CallsLocals} {s : Shell} {call : Call}
  {prevOp : Option LexemType}

theorem calcCallsBody_eq :
    calcCallsBody env lexems l = (round env lexems l).map (·.advance lexems) := by
  simp only [calcCallsBody, round, Option.bind_eq_bind, Option.map_bind]
  congr 1
  funext r
  simp only [Function.comp_apply]
  split_ifs
  · simp only [Option.map_bind]
    rfl
  · rfl

theorem calcCallsBody_of_round (h : round env lexems l = some l₁) :
    calcCallsBody env lexems l = some (l₁.advance lexems) := by
  rw [calcCallsBody_eq, h, Option.map_some]

theorem Rounds.of_round (hl : l.idx < lexems.length) (h : round env lexems l = some l₁) :
    Rounds env lexems l (l₁.advance lexems) :=
  .single ⟨by simpa using hl, calcCallsBody_of_round h⟩

theorem lt_of_drop_command {c : Command} (h : lexems.drop n = c.lexems ++ rest) :
    n < lexems.length := by
  have := congrArg List.length h
  simp [Command.lexems, Command.argv] at this
  omega

theorem taken_cons : taken ms (r :: rs) =
    (blocksAfter ms r.mode).elim [] (fun ms => r :: taken ms rs) := by
  induction ms with
  | nil => rfl
  | cons mode ms hi =>
    rw [taken, blocksAfter]
    split_ifs
    · rfl
    · exact hi

theorem openedFrom_eq : openedFrom env ms n rs = openedFiles env n (taken ms rs) ++
    openedFrom env [] (n + 2 * (taken ms rs).length) (rs.drop (taken ms rs).length) := by
  induction rs generalizing ms n with
  | nil => cases ms <;> rfl
  | cons r rs hi =>
    rw [openedFrom, taken_cons]
    cases hb : blocksAfter ms r.mode with
    | none => rfl
    | some ms' =>
      have hn : n + 2 + 2 * (taken ms' rs).length = n + 2 * ((taken ms' rs).length + 1) := by omega
      simp only [Option.elim_some, openedFiles, List.length_cons, List.drop_succ_cons]
      rw [hi, hn, List.append_assoc]

theorem runs_congr {s' : Shell} (h : s.prevExitStatus = s'.prevExitStatus) :
    runs s prevOp = runs s' prevOp := by
  cases prevOp with
  | none      => rfl
  | some type => cases type <;> simp [runs, h]

theorem runs_opType {op : Option Op} :
    runs s (opType op) = selects op s.prevExitStatus.success := by
  cases op with
  | none => rfl
  | some op => cases op <;> rfl

theorem calcSingle_runs {status : Option ℕ} : s.calcSingle env call status prevOp =
    if runs s prevOp then s.calcCommand env call else (s, status) := by
  cases prevOp with
  | none => rfl
  | some type =>
    cases type <;> rfl

theorem length_redirections (rs : List Redirection) :
    (rs.flatMap (·.lexems)).length = 2 * rs.length := by
  simp [Redirection.lexems, List.length_flatMap, mul_comm]

theorem advance_redirection
    (h : lexems.drop l.idx = (r :: rs).flatMap (·.lexems) ++ rest) : l.advance lexems =
      { l with idx := l.idx + 1, prevOp := some (opLexem r.mode).type } := by
  simp only [List.flatMap_cons, Redirection.lexems, List.cons_append, List.nil_append] at h
  rw [CallsLocals.advance, getElem?_of_drop h]

theorem not_runs_redirection (h : lexems.drop l.idx = (r :: rs).flatMap (·.lexems) ++ rest) :
    runs (l.advance lexems).shell (l.advance lexems).prevOp = false := by
  rw [advance_redirection h]
  cases r.mode <;> rfl

theorem drop_advance_redirection
    (h : lexems.drop l.idx = (r :: rs).flatMap (·.lexems) ++ rest) :
    lexems.drop (l.advance lexems).idx = (Command.mk r.file [] rs).lexems ++ rest := by
  rw [advance_redirection h]
  exact drop_succ h

theorem calcCalls_of_rounds (hne : lexems ≠ [])
    (hr : Rounds env lexems { shell := { s with prevExitStatus := ⟨0⟩ } } l)
    (hl : lexems.length ≤ l.idx) (hst : l.status.isSome) :
    ∃ status, l.status = some status ∧
      s.calcCalls env lexems = some (l.shell, wExitStatus status) := by
  obtain ⟨status, hstatus⟩ := Option.isSome_iff_exists.mp hst
  have hloop : s.calcCallsLoop env lexems lexems.length = some l :=
    whileLoop.of_steps (fun l => lexems.length - l.idx)
      (fun {l l'} hc hb => by
        have := of_decide_eq_true hc
        have := Shell.calcCallsBody_lt hb
        omega)
      hr (by simpa using hl) (Nat.sub_le ..)
  refine ⟨status, hstatus, ?_⟩
  simp only [Shell.calcCalls, List.isEmpty_iff, hne, ↓reduceIte, hloop, hstatus,
    Option.bind_eq_bind, Option.bind_some, Option.pure_def]

-- Two states of the loop at the same place, or at the end of the line, are the same.
theorem Rounds.eq_of_idx (h₁ : Rounds env lexems l l₁) (h₂ : Rounds env lexems l l₂)
    (hi : lexems.length - l₁.idx = lexems.length - l₂.idx) : l₁ = l₂ := by
  refine whileLoop.eq_of_steps (fun l => lexems.length - l.idx) (fun {l l'} hc hb => ?_) h₁ h₂ hi
  have := of_decide_eq_true hc
  have := Shell.calcCallsBody_lt hb
  omega

end Redirected
