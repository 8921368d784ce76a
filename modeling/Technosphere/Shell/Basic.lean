import Technosphere.Lib.Descriptors
import Technosphere.Lib.While

inductive LexemType
  | subprocess
  | pipe
  | and
  | or
  | input
  | output
  | argument
deriving DecidableEq, Repr

structure Lexem where
  lexem : String
  type  : LexemType
deriving DecidableEq, Repr

-- The flags that the shell opens files with: `O_RDONLY`, and `O_CREAT | O_TRUNC | O_APPEND |
-- O_WRONLY`.
inductive OpenMode
  | input
  | output
deriving DecidableEq, Repr

inductive PipeEnd
  | read
  | write
deriving DecidableEq, Repr

-- What a descriptor can refer to. Pipes are numbered in the order in which they are made.
inductive File
  | inherited (n : ℕ)
  | opened (path : String) (mode : OpenMode)
  | pipe (n : ℕ) (e : PipeEnd)
deriving DecidableEq, Repr

-- What the shell cannot decide: which `open` succeeds and with which wait status a process ends.
-- Both are given by the place in the line, of the lexem with the file name and of the command's
-- first lexem.
structure Environment where
  opens  : ℕ → Bool
  status : ℕ → ℕ

structure Child where
  pos  : ℕ
  argv : List String
  fds  : Descriptors File
deriving DecidableEq

-- What the system calls of the shell act on. The id of a process is its place in the list.
structure Kernel where
  fds      : Descriptors File
  pipes    : ℕ := 0
  opened   : List (String × OpenMode) := []
  children : List Child := []
deriving DecidableEq

namespace Kernel

def openFile (k : Kernel) (env : Environment) (pos : ℕ) (path : String) (mode : OpenMode) :
    ℤ × Kernel :=
  if env.opens pos then
    let (fd, fds) := k.fds.add (.opened path mode)
    (fd, { k with fds, opened := k.opened ++ [(path, mode)] })
  else (-1, k)

def pipe (k : Kernel) : (ℤ × ℤ) × Kernel :=
  let (r, fds) := k.fds.add (.pipe k.pipes .read)
  let (w, fds) := fds.add (.pipe k.pipes .write)
  ((r, w), { k with fds, pipes := k.pipes + 1 })

def close (k : Kernel) (fd : ℤ) : Kernel :=
  { k with fds := k.fds.close fd }

def waitpid (k : Kernel) (env : Environment) (pid : ℕ) : Option ℕ :=
  k.children[pid]?.map (env.status ·.pos)

end Kernel

-- `pos` is the place of the command in the line, by which the model names its process.
structure Call where
  readfd  : ℤ
  writefd : ℤ
  argv    : List String
  pos     : ℕ
deriving DecidableEq, Repr

def typeAt (lexems : List Lexem) (idx : ℕ) : Option LexemType :=
  lexems[idx]?.map (·.type)

namespace Call

-- `if (idx < lexems.size() && lexems[idx].type == type)`, with the body that opens the next lexem
-- in place of `fd`. Reading a lexem past the end is undefined, which is `none` here and below.
def redirect (env : Environment) (lexems : List Lexem) (type : LexemType) (mode : OpenMode)
    (idx : ℕ) (fd : ℤ) (k : Kernel) : Option (ℕ × ℤ × Kernel) :=
  if typeAt lexems idx = some type then do
    let file ← lexems[idx + 1]?
    let (fd, k) := k.openFile env (idx + 1) file.lexem mode
    return (idx + 2, fd, k)
  else return (idx, fd, k)

def argvEnd (lexems : List Lexem) (idx : ℕ) : ℕ :=
  idx + 1 + ((lexems.drop (idx + 1)).takeWhile (·.type = .argument)).length

-- The redirections of a command: `<` and `>` in this order, and `<` once more.
def redirects (env : Environment) (lexems : List Lexem) (idx : ℕ) (readfd writefd : ℤ)
    (k : Kernel) : Option (ℕ × ℤ × ℤ × Kernel) := do
  let (idx, readfd, k)  ← redirect env lexems .input .input idx readfd k
  let (idx, writefd, k) ← redirect env lexems .output .output idx writefd k
  let (idx, readfd, k)  ← redirect env lexems .input .input idx readfd k
  return (idx, readfd, writefd, k)

def new (env : Environment) (lexems : List Lexem) (idx : ℕ) (readfd writefd : ℤ) (k : Kernel) :
    Option (Call × ℕ × Kernel) := do
  let _ ← lexems[idx]?
  let j    := argvEnd lexems idx
  let argv := ((lexems.drop idx).take (j - idx)).map (·.lexem)
  let pos  := idx
  let idx  := if typeAt lexems j = some .subprocess then j + 1 else j
  let (idx, readfd, writefd, k) ← redirects env lexems idx readfd writefd k
  return ({ readfd, writefd, argv, pos }, idx, k)

def closeFd (call : Call) (k : Kernel) : Kernel :=
  let k := if call.readfd ≠ 0 then k.close call.readfd else k
  if call.writefd ≠ 1 then k.close call.writefd else k

def exec (call : Call) (fds : Descriptors File) : Child :=
  let fds := if call.readfd ≠ 0 then (fds.dup2 call.readfd 0).close call.readfd else fds
  let fds := if call.writefd ≠ 1 then (fds.dup2 call.writefd 1).close call.writefd else fds
  { pos := call.pos, argv := call.argv, fds }

end Call

def Kernel.fork (k : Kernel) (call : Call) : ℕ × Kernel :=
  (k.children.length, { k with children := k.children ++ [call.exec k.fds] })

structure ExitStat where
  exitStatus : ℕ := 0
deriving DecidableEq, Repr

def wIfExited (status : ℕ) : Bool :=
  status % 128 = 0

def wExitStatus (status : ℕ) : ℕ :=
  status / 256 % 256

def ExitStat.success (s : ExitStat) : Bool :=
  wIfExited s.exitStatus && wExitStatus s.exitStatus = 0

structure Shell where
  pipefd         : ℤ × ℤ := (0, 0)
  readfd         : ℤ := 0
  prevReadfd     : ℤ := 0
  writefd        : ℤ := 1
  prevExitStatus : ExitStat := {}
  kernel         : Kernel
deriving DecidableEq

namespace Shell

-- The `status` of the source is an uninitialized variable until a process has been waited for.
def calcCommand (s : Shell) (env : Environment) (call : Call) : Shell × Option ℕ :=
  let (pid, k) := s.kernel.fork call
  let k        := call.closeFd k
  let status   := k.waitpid env pid
  ({ s with kernel := k, prevExitStatus := ⟨status.getD 0⟩ }, status)

def calcAnd (s : Shell) (env : Environment) (call : Call) (status : Option ℕ) :
    Shell × Option ℕ :=
  if s.prevExitStatus.success then s.calcCommand env call else (s, status)

def calcOr (s : Shell) (env : Environment) (call : Call) (status : Option ℕ) :
    Shell × Option ℕ :=
  if !s.prevExitStatus.success then s.calcCommand env call else (s, status)

structure PipelineLocals where
  shell    : Shell
  call     : Call
  idx      : ℕ
  pipePids : List ℕ := []
  first    : Bool := true
deriving DecidableEq

-- The decision to pass over the first command of a pipeline.
def passes (s : Shell) (prevOp : Option LexemType) : Bool :=
  (prevOp = some .and && !s.prevExitStatus.success) ||
    (prevOp = some .or && s.prevExitStatus.success)

def pipelineBody (env : Environment) (lexems : List Lexem) (prevOp : Option LexemType)
    (l : PipelineLocals) : Option PipelineLocals := do
  let (pipefd, k)   := l.shell.kernel.pipe
  let call          := { l.call with writefd := pipefd.2 }
  let (pipePids, k) := if l.first && l.shell.passes prevOp then (l.pipePids, k) else
    let (pid, k) := k.fork call
    (l.pipePids ++ [pid], k)
  let k             := call.closeFd k
  let (call, idx, k) ← Call.new env lexems (l.idx + 1) pipefd.1 1 k
  return { shell := { l.shell with pipefd, prevReadfd := pipefd.1, kernel := k },
           call, idx, pipePids, first := false }

def pipelineLoop (env : Environment) (lexems : List Lexem) (prevOp : Option LexemType) :
    ℕ → PipelineLocals → Option PipelineLocals :=
  whileLoop (typeAt lexems ·.idx = some .pipe) (pipelineBody env lexems prevOp)

def calcPipeline (s : Shell) (env : Environment) (call : Call) (status : Option ℕ)
    (lexems : List Lexem) (idx : ℕ) (prevOp : Option LexemType) :
    Option (Shell × Option ℕ × ℕ) := do
  let l ← pipelineLoop env lexems prevOp lexems.length { shell := s, call, idx }
  let (pid, k) := l.shell.kernel.fork l.call
  let pipePids := l.pipePids ++ [pid]
  let k        := l.call.closeFd k
  let status   := (pipePids.getLast?.bind (k.waitpid env)).or status
  return ({ l.shell with kernel := k, prevExitStatus := ⟨status.getD 0⟩, prevReadfd := 0 },
          status, l.idx)

-- What the loop of `calcCalls_` changes. An empty `prev_op` is `none`.
structure CallsLocals where
  shell  : Shell
  idx    : ℕ := 0
  status : Option ℕ := none
  prevOp : Option LexemType := none
deriving DecidableEq

def calcSingle (s : Shell) (env : Environment) (call : Call) (status : Option ℕ) :
    Option LexemType → Shell × Option ℕ
  | none      => s.calcCommand env call
  | some .and => s.calcAnd env call status
  | some .or  => s.calcOr env call status
  | some _    => (s, status)

def CallsLocals.advance (lexems : List Lexem) (l : CallsLocals) : CallsLocals :=
  match lexems[l.idx]? with
  | some lexem => { l with idx := l.idx + 1, prevOp := some lexem.type }
  | none       => l

def calcCallsBody (env : Environment) (lexems : List Lexem) (l : CallsLocals) :
    Option CallsLocals := do
  let s := { l.shell with readfd := l.shell.prevReadfd }
  let (call, idx, k) ← Call.new env lexems l.idx s.readfd s.writefd s.kernel
  let s := { s with kernel := k }
  if typeAt lexems idx = some .pipe then do
    let (s, status, idx) ← s.calcPipeline env call l.status lexems idx l.prevOp
    return CallsLocals.advance lexems { l with shell := s, status, idx }
  else
    let (s, status) := s.calcSingle env call l.status l.prevOp
    return CallsLocals.advance lexems { l with shell := s, status, idx }

def calcCallsLoop (s : Shell) (env : Environment) (lexems : List Lexem) (n : ℕ) :
    Option CallsLocals :=
  whileLoop (·.idx < lexems.length) (calcCallsBody env lexems) n
    { shell := { s with prevExitStatus := ⟨0⟩ } }

def calcCalls (s : Shell) (env : Environment) (lexems : List Lexem) : Option (Shell × ℕ) :=
  if lexems.isEmpty then some (s, 0)
  else do
    let l ← s.calcCallsLoop env lexems lexems.length
    return (l.shell, wExitStatus (← l.status))

end Shell
