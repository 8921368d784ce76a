import Technosphere.Lib.AndOr
import Technosphere.Shell.Basic

-- Lines whose commands have any number of redirections, in any order.
namespace Redirected

structure Redirection where
  mode : OpenMode
  file : String
deriving DecidableEq, Repr

def opLexem : OpenMode → Lexem
  | .input  => ⟨"<", .input⟩
  | .output => ⟨">", .output⟩

def Redirection.lexems (r : Redirection) : List Lexem :=
  [opLexem r.mode, ⟨r.file, .argument⟩]

-- The last redirection of a mode, as the place and the name of its file. `n` is the place of the
-- first lexem of the redirections.
def last (mode : OpenMode) : ℕ → List Redirection → Option (ℕ × String)
  | _, []      => none
  | n, r :: rs => (last mode (n + 2) rs).or (if r.mode = mode then some (n + 1, r.file) else none)

def openedFile (env : Environment) (mode : OpenMode) (e : ℕ × String) : Option File :=
  if env.opens e.1 then some (.opened e.2 mode) else none

def overwritten (env : Environment) : ℕ → List Redirection → ℕ
  | _, []      => 0
  | n, r :: rs =>
    (env.opens (n + 1) && (last r.mode (n + 2) rs).isSome).toNat + overwritten env (n + 2) rs

structure Command where
  name         : String
  args         : List String := []
  redirections : List Redirection := []
deriving DecidableEq, Repr

namespace Command

def argv (c : Command) : List String :=
  c.name :: c.args

def lexems (c : Command) : List Lexem :=
  c.argv.map (⟨·, .argument⟩) ++ c.redirections.flatMap (·.lexems)

def last (c : Command) (mode : OpenMode) (n : ℕ) : Option (ℕ × String) :=
  Redirected.last mode (n + c.argv.length) c.redirections

def opens (env : Environment) (c : Command) (mode : OpenMode) (n : ℕ) : Bool :=
  (c.last mode n).any (env.opens ·.1)

-- The redirections that the constructor of a call takes.
def Handled (c : Command) : Prop :=
  (c.redirections.map (·.mode)).Sublist [.input, .output, .input]

instance (c : Command) : Decidable c.Handled :=
  inferInstanceAs (Decidable (List.Sublist _ _))

end Command

structure Pipeline where
  first : Command
  rest  : List Command := []
deriving DecidableEq, Repr

-- A command of a pipeline with its place in the line, and whether it stands behind and in front of
-- a pipe.
structure Stage where
  pos     : ℕ
  command : Command
  behind  : Bool
  before  : Bool
deriving DecidableEq, Repr

-- The number of descriptors that a command makes the shell lose, apart from those that it keeps
-- when it is not run.
def Stage.lost (env : Environment) (s : Stage) : ℕ :=
  (s.behind && (s.command.last .input s.pos).isSome).toNat +
    overwritten env (s.pos + s.command.argv.length) s.command.redirections +
    (s.before && s.command.opens env .output s.pos).toNat

namespace Pipeline

def pipeLexem : Lexem :=
  ⟨"|", .pipe⟩

def restLexems (cs : List Command) : List Lexem :=
  cs.flatMap (pipeLexem :: ·.lexems)

def lexems (p : Pipeline) : List Lexem :=
  p.first.lexems ++ restLexems p.rest

def stagesFrom (behind : Bool) (n : ℕ) (c : Command) : List Command → List Stage
  | []       => [⟨n, c, behind, false⟩]
  | c' :: cs => ⟨n, c, behind, true⟩ :: stagesFrom true (n + c.lexems.length + 1) c' cs

def stages (n : ℕ) (p : Pipeline) : List Stage :=
  stagesFrom false n p.first p.rest

end Pipeline

def joinLexem : AndOr.Op → Lexem
  | .and => ⟨"&&", .and⟩
  | .or  => ⟨"||", .or⟩

def joined (f : α → List Lexem) (as : List (AndOr.Op × α)) : List Lexem :=
  as.flatMap fun (op, a) => joinLexem op :: f a

def places (f : α → List Lexem) (n : ℕ) : List (AndOr.Op × α) → List (Option AndOr.Op × ℕ × α)
  | []            => []
  | (op, a) :: as => (some op, n + 1, a) :: places f (n + 1 + (f a).length) as

structure Line where
  first : Pipeline
  rest  : List (AndOr.Op × Pipeline) := []
deriving DecidableEq, Repr

namespace Line

def lexems (line : Line) : List Lexem :=
  line.first.lexems ++ joined Pipeline.lexems line.rest

def items (line : Line) : List (Option AndOr.Op × ℕ × Pipeline) :=
  (none, 0, line.first) :: places Pipeline.lexems line.first.lexems.length line.rest

def stages (line : Line) : List Stage :=
  line.items.flatMap fun (_, n, p) => p.stages n

def Handled (line : Line) : Prop :=
  ∀ s ∈ line.stages, s.command.Handled

instance (line : Line) : Decidable line.Handled :=
  inferInstanceAs (Decidable (∀ s ∈ line.stages, s.command.Handled))

section Semantics

variable (env : Environment)

theorem stages_ne_nil : Pipeline.stages n p ≠ [] := by
  rw [Pipeline.stages]
  cases p.rest <;> simp [Pipeline.stagesFrom]

def pipelineStatus (p : ℕ × Pipeline) : ExitStat :=
  ⟨env.status ((p.2.stages p.1).getLast stages_ne_nil).pos⟩

def selected (s : ExitStat) (items : List (Option AndOr.Op × ℕ × Pipeline)) :
    List (ℕ × Pipeline) :=
  AndOr.selected ExitStat.success (pipelineStatus env) s items

-- The pipelines with whether they are run, when the status of a pipeline of several commands counts
-- even where it is skipped.
def reached (s : ExitStat) : List (Option AndOr.Op × ℕ × Pipeline) → List (Bool × ℕ × Pipeline)
  | []               => []
  | (op, p) :: items =>
    let b := AndOr.selects op s.success
    (b, p) :: reached (if b || !p.2.rest.isEmpty then pipelineStatus env p else s) items

-- The commands that are started when of a skipped pipeline only the first command is passed over.
def launched (s : ExitStat) (items : List (Option AndOr.Op × ℕ × Pipeline)) : List Stage :=
  (reached env s items).flatMap fun (b, n, p) => if b then p.stages n else (p.stages n).tail

end Semantics

end Line

end Redirected
