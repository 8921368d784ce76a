import Technosphere.Lib.Run
import Technosphere.Lib.SortedMap
import Technosphere.Shell.Parser
import Technosphere.Shell.Theorems.ExitCode

-- A line of the background, with the shell from which its process is forked.
structure Launch where
  shell  : Shell
  env    : Environment
  lexems : List Lexem

-- A process in the background. Its status is there when it has ended, and it is gone when it has
-- been waited for.
structure Job extends Launch where
  pid    : ℕ
  status : Option WaitStatus := none
  reaped : Bool := false

inductive Message
  | spawned (pid : ℕ)
  | exited (pid code : ℕ)
deriving DecidableEq, Repr

def Message.pid : Message → ℕ
  | spawned pid | exited pid _ => pid

namespace Job

-- A process ends with `exit` for the result of `calcCalls_`, unless it is killed. What the child
-- does in `watchSubprocesses_` is left out: it is not the parent of the processes that it knows of.
inductive Ends (j : Job) : WaitStatus → Prop
  | exited (h : j.shell.calcCalls j.env j.lexems = some (s, code.val)) : Ends j (.exited code)
  | signaled (sig : Fin 126) (core : Bool) : Ends j (.signaled sig core)

def Alive (j : Job) (pid : ℕ) : Bool :=
  j.pid = pid && !j.reaped

def reap (j : Job) (pid : ℕ) : Job :=
  { j with reaped := j.reaped || j.pid = pid }

end Job

def Message.ended (e : ℕ × ℕ) : Message :=
  exited e.1 (wExitStatus e.2)

-- Where the shell is in `run`. A loop over `subprocesses_` has the processes that are left. In
-- `terminalWatchSubprocesses_`, a status is kept with the process that it is for.
inductive Phase
  | reading (shell : Shell)
  | calling (env : Environment) (lexems : List Lexem) (l : Shell.CallsLocals)
  | watching (env : Environment) (lexems : List Lexem) (l : Shell.CallsLocals)
      (pids erased : List ℕ)
  | waiting (statuses : List (ℕ × ℕ)) (pids : List ℕ)
  | done

instance (phase : Phase) : Decidable (∃ shell, phase = .reading shell) :=
  match phase with
  | .reading shell                                    => isTrue ⟨shell, rfl⟩
  | .calling .. | .watching .. | .waiting .. | .done  => isFalse (by simp)

structure Session where
  subprocesses : SortedSet ℕ
  cerr         : List Message
  jobs         : List Job
  phase        : Phase

namespace Session

def init (shell : Shell) : Session where
  subprocesses := ∅
  cerr         := []
  jobs         := []
  phase        := .reading shell

def child (s : Session) (pid : ℕ) : Option Job :=
  s.jobs.find? (·.Alive pid)

def reap (s : Session) (pid : ℕ) : Session :=
  { s with jobs := s.jobs.map (·.reap pid) }

def addSubprocess (s : Session) (job : Job) : Session :=
  { s with
    subprocesses := s.subprocesses.insert job.pid ()
    cerr         := s.cerr ++ [.spawned job.pid]
    jobs         := s.jobs ++ [job] }

def inBackground (lexems : List Lexem) : Bool :=
  lexems.getLast?.any (·.type = .subprocess)

-- What `run` does with a line, for which `fork` returns `pid` if it is called.
def readLine (s : Session) (shell : Shell) (input : String) (env : Environment) (pid : ℕ) :
    Session :=
  let lexems := (LexemParser.mk input []).parse.get
  if inBackground lexems then s.addSubprocess { shell, env, lexems, pid }
  else if lexems.isEmpty then s
  else { s with phase := .calling env lexems { shell := { shell with prevExitStatus := ⟨0⟩ } } }

-- How the shell goes on by itself. It does not when it reads a line or waits for a process that has
-- not ended.
def advance (s : Session) : Option Session :=
  match s.phase with
  | .reading _ | .done => none
  | .calling env lexems l =>
    if l.idx < lexems.length then do
      let l ← Shell.calcCallsBody env lexems l
      return { s with phase := .watching env lexems l s.subprocesses.keys [] }
    else some { s with phase := .reading l.shell }
  | .watching env lexems l (pid :: pids) erased =>
    match (s.child pid).bind (·.status) with
    | some status => some { s.reap pid with
        cerr  := s.cerr ++ [.ended (pid, status.toNat)]
        phase := .watching env lexems l pids (erased ++ [pid]) }
    | none        => some { s with phase := .watching env lexems l pids erased }
  | .watching env lexems l [] erased => some { s with
      subprocesses := erased.foldl (·.erase) s.subprocesses
      phase        := .calling env lexems l }
  | .waiting statuses (pid :: pids) =>
    match s.child pid with
    | some job => do
      let status ← job.status
      return { s.reap pid with phase := .waiting (statuses ++ [(pid, status.toNat)]) pids }
    | none     => some { s with phase := .waiting (statuses ++ [(pid, 0)]) pids }
  | .waiting statuses [] => some { s with
      subprocesses := ∅
      cerr         := s.cerr ++ statuses.map .ended
      phase        := .done }

inductive Event
  | line (input : String) (env : Environment) (pid : ℕ)
  | eof
  | advance
  | ends (i : ℕ) (status : WaitStatus)

-- `fork` returns an id that no process has, also none that has ended and not been waited for.
inductive Step (s : Session) : Event → Session → Prop
  | line (hr : s.phase = .reading shell) (hf : ∀ j ∈ s.jobs, !j.Alive pid) :
      Step s (.line input env pid) (s.readLine shell input env pid)
  | eof (hr : s.phase = .reading shell) :
      Step s .eof { s with phase := .waiting [] s.subprocesses.keys }
  | advance (h : s.advance = some s') : Step s .advance s'
  | ends (hi : s.jobs[i]? = some j) (hn : j.status = none) (he : j.Ends status) :
      Step s (.ends i status) { s with jobs := s.jobs.set i { j with status := some status } }

end Session
