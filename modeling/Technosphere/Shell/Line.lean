import Technosphere.Lib.AndOr
import Technosphere.Shell.Basic

-- The lines that the shell is made for, and what and-or evaluation does with them.

inductive Redirections
  | none
  | input (file : String)
  | output (file : String)
  | inputOutput (input output : String)
  | outputInput (output input : String)
deriving DecidableEq, Repr

namespace Redirections

def inputLexems (file : String) : List Lexem :=
  [⟨"<", .input⟩, ⟨file, .argument⟩]

def outputLexems (file : String) : List Lexem :=
  [⟨">", .output⟩, ⟨file, .argument⟩]

def lexems : Redirections → List Lexem
  | none            => []
  | input i         => inputLexems i
  | output o        => outputLexems o
  | inputOutput i o => inputLexems i ++ outputLexems o
  | outputInput o i => outputLexems o ++ inputLexems i

end Redirections

structure Command where
  name         : String
  args         : List String := []
  redirections : Redirections := .none
deriving DecidableEq, Repr

namespace Command

def argv (c : Command) : List String :=
  c.name :: c.args

def lexems (c : Command) : List Lexem :=
  c.argv.map (⟨·, .argument⟩) ++ c.redirections.lexems

end Command

structure Pipeline where
  first : Command
  rest  : List Command := []
deriving DecidableEq, Repr

namespace Pipeline

def pipeLexem : Lexem :=
  ⟨"|", .pipe⟩

def restLexems (cs : List Command) : List Lexem :=
  cs.flatMap (pipeLexem :: ·.lexems)

theorem restLexems_cons :
    restLexems (c :: cs) = pipeLexem :: (c.lexems ++ restLexems cs) := by
  simp [restLexems]

def lexems (p : Pipeline) : List Lexem :=
  p.first.lexems ++ restLexems p.rest

-- The commands of a pipeline in the order in which they are started, each with its place in the
-- line and its arguments. `pos` is the place of the first lexem.
def restStages (pos : ℕ) : List Command → List (ℕ × List String)
  | []      => []
  | c :: cs => (pos + 1, c.argv) :: restStages (pos + 1 + c.lexems.length) cs

def stages (pos : ℕ) (p : Pipeline) : List (ℕ × List String) :=
  (pos, p.first.argv) :: restStages (pos + p.first.lexems.length) p.rest

end Pipeline

structure Line where
  first      : Pipeline
  rest       : List (AndOr.Op × Pipeline) := []
  background : Bool := false

namespace Line

def opLexem : AndOr.Op → Lexem
  | .and => ⟨"&&", .and⟩
  | .or  => ⟨"||", .or⟩

def restLexems (ps : List (AndOr.Op × Pipeline)) : List Lexem :=
  ps.flatMap fun (op, p) => opLexem op :: p.lexems

theorem restLexems_cons :
    restLexems ((op, p) :: ps) = opLexem op :: (p.lexems ++ restLexems ps) := by
  simp [restLexems]

def endLexems (background : Bool) : List Lexem :=
  if background then [⟨"&", .subprocess⟩] else []

def lexems (line : Line) : List Lexem :=
  line.first.lexems ++ restLexems line.rest ++ endLexems line.background

def restItems (pos : ℕ) : List (AndOr.Op × Pipeline) → List (Option AndOr.Op × ℕ × Pipeline)
  | []            => []
  | (op, p) :: ps => (some op, pos + 1, p) :: restItems (pos + 1 + p.lexems.length) ps

def items (line : Line) : List (Option AndOr.Op × ℕ × Pipeline) :=
  (none, 0, line.first) :: restItems line.first.lexems.length line.rest

section Semantics

variable (env : Environment)

def pipelineStatus (p : ℕ × Pipeline) : ExitStat :=
  ⟨env.status ((p.2.stages p.1).getLast (List.cons_ne_nil _ _)).1⟩

-- The pipelines that and-or evaluation runs and skips from the status `s` on, and the status after
-- it.
def selected (s : ExitStat) (items : List (Option AndOr.Op × ℕ × Pipeline)) :
    List (ℕ × Pipeline) :=
  AndOr.selected ExitStat.success (pipelineStatus env) s items

def skipped (s : ExitStat) (items : List (Option AndOr.Op × ℕ × Pipeline)) :
    List (ℕ × Pipeline) :=
  AndOr.skipped ExitStat.success (pipelineStatus env) s items

def finalStatus (s : ExitStat) (items : List (Option AndOr.Op × ℕ × Pipeline)) : ExitStat :=
  AndOr.finalStatus ExitStat.success (pipelineStatus env) s items

def started (s : ExitStat) (items : List (Option AndOr.Op × ℕ × Pipeline)) :
    List (ℕ × List String) :=
  (selected env s items).flatMap fun (pos, p) => p.stages pos

variable {env} {s : ExitStat} {op : Option AndOr.Op} {n : ℕ} {p : Pipeline}
  {item : Option AndOr.Op × ℕ × Pipeline} {items : List (Option AndOr.Op × ℕ × Pipeline)}

@[simp]
theorem started_nil : started env s [] = [] :=
  rfl

@[simp]
theorem finalStatus_nil : finalStatus env s [] = s :=
  rfl

@[simp]
theorem skipped_nil : skipped env s [] = [] :=
  rfl

theorem started_single :
    started env s [(op, n, p)] = if AndOr.selects op s.success then p.stages n else [] := by
  cases h : AndOr.selects op s.success <;> simp [started, selected, AndOr.selected, h]

theorem skipped_single :
    skipped env s [(op, n, p)] = if AndOr.selects op s.success then [] else [(n, p)] := by
  cases h : AndOr.selects op s.success <;> simp [skipped, AndOr.skipped, h]

theorem finalStatus_single : finalStatus env s [(op, n, p)] =
    if AndOr.selects op s.success then pipelineStatus env (n, p) else s :=
  rfl

theorem started_cons : started env s (item :: items) =
    started env s [item] ++ started env (finalStatus env s [item]) items := by
  rw [started, selected, AndOr.selected_cons, List.flatMap_append]
  rfl

theorem skipped_cons : skipped env s (item :: items) =
    skipped env s [item] ++ skipped env (finalStatus env s [item]) items :=
  AndOr.skipped_cons

theorem finalStatus_cons :
    finalStatus env s (item :: items) = finalStatus env (finalStatus env s [item]) items :=
  AndOr.finalStatus_cons

theorem getLast?_stages :
    (p.stages n).getLast?.elim s (⟨env.status ·.1⟩) = pipelineStatus env (n, p) := by
  have hn : p.stages n ≠ [] := List.cons_ne_nil _ _
  rw [List.getLast?_eq_getLast_of_ne_nil hn]
  rfl

theorem finalStatus_eq :
    finalStatus env s items = (started env s items).getLast?.elim s (⟨env.status ·.1⟩) := by
  induction items generalizing s with
  | nil => rfl
  | cons item items hi =>
    obtain ⟨op, n, p⟩ := item
    rw [finalStatus_cons, hi, started_cons, started_single, finalStatus_single,
      List.getLast?_append]
    cases AndOr.selects op s.success with
    | false => simp
    | true =>
      simp only [↓reduceIte]
      rw [← getLast?_stages (s := s)]
      cases h : (started env _ items).getLast? <;> simp

end Semantics

structure PipeFree (line : Line) : Prop where
  first : line.first.rest = []
  rest  : ∀ p ∈ line.rest, p.2.rest = []

theorem mem_restItems {item : Option AndOr.Op × ℕ × Pipeline} (h : item ∈ restItems n ps) :
    ∃ op, (op, item.2.2) ∈ ps := by
  induction ps generalizing n with
  | nil => simp [restItems] at h
  | cons p ps hi =>
    cases List.mem_cons.mp h with
    | inl h => exact ⟨p.1, by simp [h]⟩
    | inr h =>
      have ⟨op, ho⟩ := hi h
      exact ⟨op, List.mem_cons_of_mem _ ho⟩

theorem PipeFree.items {line : Line} (h : line.PipeFree) : ∀ p ∈ line.items, p.2.2.rest = [] := by
  intro p hp
  cases List.mem_cons.mp hp with
  | inl hp => exact hp ▸ h.first
  | inr hp =>
    have ⟨op, ho⟩ := mem_restItems hp
    exact h.rest _ ho

end Line
