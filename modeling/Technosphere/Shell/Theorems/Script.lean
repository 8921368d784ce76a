import Technosphere.Shell.Theorems.Reports

open Shell (CallsLocals calcCallsBody)
open Redirected (Rounds calcCalls_of_rounds calcSingle_runs)

namespace Shell

variable {env : Environment} {lexems : List Lexem} {l l' : CallsLocals} {s : Shell}

theorem calcCallsBody_status (h : calcCallsBody env lexems l = some l')
    (hs : l.status.isSome ∨ l.prevOp = none) : l'.status.isSome := by
  obtain ⟨⟨call, idx, k⟩, hr, h⟩ := Option.bind_eq_some_iff.mp h
  simp only at h
  split_ifs at h
  · obtain ⟨x, hx, h⟩ := Option.bind_eq_some_iff.mp h
    obtain rfl := Option.some.inj h
    obtain ⟨l₁, hl₁, hx'⟩ := Option.bind_eq_some_iff.mp hx
    rw [calcPipeline_eq hl₁] at hx
    obtain rfl := Option.some.inj hx
    rw [advance_status]
    rfl
  · obtain rfl := Option.some.inj h
    rw [advance_status, calcSingle_runs]
    split_ifs with hr
    · rw [calcCommand_eq]
      rfl
    · exact hs.resolve_right fun hn => hr (by rw [hn]; rfl)

theorem rounds_status (hne : lexems ≠ []) (h : Rounds env lexems { shell := s } l)
    (hl : lexems.length ≤ l.idx) : l.status.isSome := by
  have hp : l.status.isSome ∨ l.prevOp = none ∧ l.idx = 0 := by
    clear hl
    induction h with
    | refl         => exact .inr ⟨rfl, rfl⟩
    | tail _ hs ih => exact .inl (calcCallsBody_status hs.2 (ih.imp_right (·.1)))
  have := List.length_pos_of_ne_nil hne
  exact hp.resolve_right fun h => by omega

end Shell

namespace Session

-- What the shell does without processes in the background: it evaluates one line after another. Of
-- a line of the background it is only recorded with what its process is forked.
def runLine (x : Shell × List Launch) (line : String × Environment) :
    Option (Shell × List Launch) :=
  let lexems := (LexemParser.mk line.1 []).parse.get
  if inBackground lexems then some (x.1, x.2 ++ [⟨x.1, line.2, lexems⟩])
  else (x.1.calcCalls line.2 lexems).map fun r => (r.1, x.2)

def script (shell : Shell) (lines : List (String × Environment)) : Option (Shell × List Launch) :=
  lines.foldlM runLine (shell, [])

def lines (es : List Event) : List (String × Environment) :=
  es.filterMap fun
    | .line input env _ => some (input, env)
    | _                 => none

-- The line that is evaluated, in the shell `sh` and up to where the locals are `l`.
structure Evaluates (line : String × Environment) (sh : Shell) (env : Environment)
    (lexems : List Lexem) (l : CallsLocals) : Prop where
  given  : line.2 = env
  parsed : (LexemParser.mk line.1 []).parse.get = lexems
  front  : inBackground lexems = false
  nonnil : lexems ≠ []
  rounds : Rounds env lexems { shell := { sh with prevExitStatus := ⟨0⟩ } } l

-- How far the shell is in the lines that it has read. Processes in the background do not matter.
def Follows (shell : Shell) (lines : List (String × Environment)) (launches : List Launch) :
    Phase → Prop
  | .reading sh                                           =>
    script shell lines = some (sh, launches)
  | .calling env lexems l | .watching env lexems l _ _    => ∃ lines' line sh,
    lines = lines' ++ [line] ∧ script shell lines' = some (sh, launches) ∧
      Evaluates line sh env lexems l
  | .waiting .. | .done                                   =>
    ∃ sh, script shell lines = some (sh, launches)

-- The shell reads its next line, has come to its end, or waits for a process that runs.
inductive Rests (s : Session) : Prop
  | reading (h : s.phase = .reading sh)
  | done (h : s.phase = .done)
  | waiting (h : s.phase = .waiting statuses (pid :: pids)) (hc : s.child pid = some j)
      (hr : j.status = none)

def Event.reads : Event → Bool
  | line .. | eof => true
  | _             => false

def Event.advances : Event → Bool
  | advance => true
  | _       => false

variable {shell sh : Shell} {ls : List (String × Environment)} {line : String × Environment}
  {launches : List Launch} {s s' : Session} {e : Event} {env : Environment} {lexems : List Lexem}
  {l : CallsLocals} {pid : ℕ} {input : String}

theorem script_concat (h : script shell ls = some (sh, launches)) :
    script shell (ls ++ [line]) = runLine (sh, launches) line := by
  rw [script] at h ⊢
  rw [List.foldlM_append, h]
  simp

theorem Evaluates.finish (h : Evaluates line sh env lexems l) (hl : lexems.length ≤ l.idx) :
    runLine (sh, launches) line = some (l.shell, launches) := by
  obtain ⟨status, hs, hc⟩ := calcCalls_of_rounds h.nonnil h.rounds hl
    (Shell.rounds_status h.nonnil h.rounds hl)
  simp [runLine, h.parsed, h.front, h.given, hc]

theorem Follows.advance (h : Follows shell ls (s.jobs.map (·.toLaunch)) s.phase)
    (ha : Advances s s') : Follows shell ls (s'.jobs.map (·.toLaunch)) s'.phase := by
  have hr : ∀ pid, (s.reap pid).jobs.map (·.toLaunch) = s.jobs.map (·.toLaunch) := by
    simp [Session.reap, Job.reap]
  cases ha with
  | round hp hl hb   =>
    rw [hp] at h
    obtain ⟨ls', line, sh, rfl, hs, he⟩ := h
    exact ⟨ls', line, sh, rfl, hs, { he with rounds := he.rounds.tail ⟨by simpa using hl, hb⟩ }⟩
  | finish hp hl     =>
    rw [hp] at h
    obtain ⟨ls', line, sh, rfl, hs, he⟩ := h
    exact (script_concat hs).trans (he.finish hl)
  | watch hp _ _     =>
    rw [hp] at h
    rwa [hr]
  | passBy hp
  | erase hp
  | waitNone hp _
  | report hp        =>
    rw [hp] at h
    exact h
  | wait hp _ _      =>
    rw [hp] at h
    rwa [hr]

theorem Follows.readLine (h : Follows shell ls (s.jobs.map (·.toLaunch)) s.phase)
    (hp : s.phase = .reading sh) :
    Follows shell (ls ++ [(input, env)])
      ((s.readLine sh input env pid).jobs.map (·.toLaunch))
      (s.readLine sh input env pid).phase := by
  rw [hp] at h
  have hc := @script_concat _ _ _ (input, env) _ h
  rw [Session.readLine]
  split_ifs with hb hn
  · rw [runLine, if_pos hb] at hc
    simpa [Session.addSubprocess, hp, Follows] using hc
  · rw [hp]
    rw [runLine, if_neg hb] at hc
    simpa [Shell.calcCalls, hn, Follows] using hc
  · exact ⟨ls, (input, env), sh, rfl, h, rfl, rfl, by simpa using hb, by simpa using hn, .refl⟩

theorem Follows.step (h : Follows shell ls (s.jobs.map (·.toLaunch)) s.phase)
    (hs : Step s e s') :
    Follows shell (ls ++ lines [e]) (s'.jobs.map (·.toLaunch)) s'.phase := by
  cases hs with
  | line hp _      => exact h.readLine hp
  | eof hp         =>
    rw [hp] at h
    rw [show lines [.eof] = [] from rfl, List.append_nil]
    exact ⟨_, h⟩
  | advance ha     =>
    rw [show lines [.advance] = [] from rfl, List.append_nil]
    exact h.advance (advances ha)
  | ends hi _ _    =>
    rw [show lines [.ends _ _] = [] from rfl, List.append_nil, Job.map_set_of_eq hi (by rfl)]
    exact h

theorem Follows.run (r : Run Step (init shell) s) :
    Follows shell (lines r.events) (s.jobs.map (·.toLaunch)) s.phase := by
  induction r with
  | refl           => rfl
  | snoc r e hs ih =>
    rw [Run.events, lines, List.filterMap_append]
    exact ih.step hs

-- The shell goes on as long as the evaluation of its lines does not read past the end of one.
theorem Evaluates.body_isSome (h : Evaluates line sh env lexems l) (hl : l.idx < lexems.length)
    (hs : (runLine (sh, launches) line).isSome) : (calcCallsBody env lexems l).isSome := by
  have hc : (sh.calcCallsLoop env lexems lexems.length).isSome := by
    rw [runLine, h.parsed, h.front, if_neg Bool.false_ne_true, h.given, Option.isSome_map,
      Shell.calcCalls, if_neg (by simpa using h.nonnil)] at hs
    exact Option.isSome_of_isSome_bind hs
  apply whileLoop.body_isSome (fun l => lexems.length - l.idx) _ _ hc (Nat.sub_le ..) h.rounds
  · simpa using hl
  · intro l l' hc hb
    have := of_decide_eq_true hc
    have := Shell.calcCallsBody_lt hb
    omega
  · intro l hl
    simp only [decide_eq_false_iff_not]
    omega

theorem Follows.rests (h : Follows shell ls (s.jobs.map (·.toLaunch)) s.phase)
    (hs : (script shell ls).isSome) (ha : s.advance = none) : Rests s := by
  cases hp : s.phase with
  | reading sh                           => exact .reading hp
  | done                                 => exact .done hp
  | calling env lexems l                 =>
    rw [hp] at h
    obtain ⟨ls', line, sh, rfl, hsc, he⟩ := h
    rw [script_concat hsc] at hs
    simp only [Session.advance, hp] at ha
    split_ifs at ha with hl
    obtain ⟨l', hb⟩ := Option.isSome_iff_exists.mp (he.body_isSome hl hs)
    simp [hb] at ha
  | watching env lexems l pids erased    =>
    simp only [Session.advance, hp] at ha
    cases pids with
    | nil           => simp at ha
    | cons pid pids =>
      simp only at ha
      split at ha <;> simp at ha
  | waiting statuses pids                =>
    simp only [Session.advance, hp] at ha
    cases pids with
    | nil           => simp at ha
    | cons pid pids =>
      simp only at ha
      split at ha
      case h_1 j hc =>
        cases hs : j.status with
        | none        => exact .waiting hp hc hs
        | some status => simp [hs] at ha
      case h_2      => simp at ha

-- An upper bound on what the shell still does by itself.
def remaining (s : Session) : ℕ :=
  let keys := s.subprocesses.keys.length
  match s.phase with
  | .reading _ | .done              => 0
  | .calling _ lexems l             => (lexems.length - l.idx) * (keys + 3) + 1
  | .watching _ lexems l pids _     => (lexems.length - l.idx) * (keys + 3) + pids.length + 2
  | .waiting _ pids                 => pids.length + 1

theorem Advances.remaining_lt (h : Advances s s') : s'.remaining < s.remaining := by
  cases h with
  | @round _ lexems l l' hp hl hb =>
    have hlt := Shell.calcCallsBody_lt hb
    simp only [remaining, hp]
    calc (lexems.length - l'.idx) * (s.subprocesses.keys.length + 3) +
          s.subprocesses.keys.length + 2
      _ < (lexems.length - l'.idx + 1) * (s.subprocesses.keys.length + 3) + 1 := by
        rw [Nat.succ_mul]
        omega
      _ ≤ (lexems.length - l.idx) * (s.subprocesses.keys.length + 3) + 1 := by
        gcongr
        omega
  | finish hp hl     => simp [remaining, hp]
  | watch hp _ _     =>
    simp only [remaining, hp, Session.reap, List.length_cons]
    omega
  | passBy hp        =>
    simp only [remaining, hp, List.length_cons]
    omega
  | erase hp         =>
    simp only [remaining, hp, List.length_nil, add_zero]
    refine Nat.lt_of_le_of_lt (Nat.succ_le_succ (Nat.mul_le_mul_left _ ?_)) (Nat.lt_succ_self _)
    exact Nat.add_le_add_right SortedMap.keys_foldl_erase_sublist.length_le _
  | wait hp _ _      => simp [remaining, hp]
  | waitNone hp _    => simp [remaining, hp]
  | report hp        => simp [remaining, hp]

-- Whenever the shell reads a line, it is where the evaluation of the lines one after another leads,
-- and the processes in the background have been forked from where this has led. It gets there by
-- itself unless this evaluation fails, whatever becomes of the processes in the background.
structure Refines (shell : Shell) (ls : List (String × Environment)) (s : Session) : Prop where
  reading : ∀ sh, s.phase = .reading sh → script shell ls = some (sh, s.jobs.map (·.toLaunch))
  rests   : (script shell ls).isSome → s.advance = none → Rests s
  bounded : ∃ bound, ∀ s' (r : Run Step s s'), (∀ e ∈ r.events, e.reads = false) →
              r.events.countP (·.advances) ≤ bound

theorem Step.remaining_le (h : Step s e s') (he : e.reads = false) :
    s'.remaining + (if e.advances then 1 else 0) ≤ s.remaining := by
  cases h with
  | line _ _   => simp [Event.reads] at he
  | eof _      => simp [Event.reads] at he
  | advance ha => exact (advances ha).remaining_lt
  | ends _ _ _ => exact le_rfl

theorem run_remaining_le (r : Run Step s s') (hr : ∀ e ∈ r.events, e.reads = false) :
    s'.remaining + r.events.countP (·.advances) ≤ s.remaining := by
  induction r with
  | refl           => simp [Run.events]
  | snoc r e hs ih =>
    obtain ⟨hr, he⟩ := List.forall_mem_append.mp hr
    have hle := hs.remaining_le (he e (List.mem_singleton_self e))
    have hi := ih hr
    rw [Run.events, List.countP_append, List.countP_singleton]
    omega

theorem run_refines (r : Run Step (init shell) s) : Refines shell (lines r.events) s where
  reading := by
    intro sh hp
    have h := Follows.run r
    rwa [hp] at h
  rests   := (Follows.run r).rests
  bounded := ⟨s.remaining, fun s' r hr => by
    have := run_remaining_le r hr
    omega⟩

end Session
