import Technosphere.Shell.Theorems.Launches

open AndOr (Op selects)
open Line (endLexems)

namespace Redirected

def failing (env : Environment) : ℕ → List Redirection → Bool
  | _, []      => false
  | n, _ :: rs => !env.opens (n + 1) || failing env (n + 2) rs

def Stage.fails (env : Environment) (s : Stage) : Bool :=
  failing env (s.pos + s.command.argv.length) s.command.redirections

-- The statuses with which a command whose redirections fail ends like one that calls
-- `exit(EXIT_FAILURE)`.
def refusing (env : Environment) (line : Line) : Environment where
  opens      := env.opens
  status pos := if line.stages.any fun s => s.pos = pos && s.fails env then 256 else env.status pos

def Refuses (env : Environment) (s : Shell) (line : Line) (background : Bool) : Prop :=
  ∃ s' r children, s.calcCalls env (line.lexems ++ endLexems background) = some (s', r) ∧
    s'.kernel.children = s.kernel.children ++ children ∧
    ∀ stage ∈ line.stages, (∃ child ∈ children, child.pos = stage.pos) ↔
      stage ∈ Line.launched (refusing env line) {} line.items ∧ stage.fails env = false

variable {env env' : Environment} {s : Shell} {line : Line} {st : ExitStat} {n : ℕ} {p : Pipeline}
  {op : Option Op} {items : List (Option Op × ℕ × Pipeline)} {stage : Stage}

theorem launched_cons : Line.launched env st ((op, n, p) :: items) =
    started (selects op st.success) n p ++ Line.launched env
      (((started (selects op st.success) n p).map (·.pos)).getLast?.elim st (⟨env.status ·⟩))
      items := by
  rw [getLast?_started]
  rfl

theorem launched_congr
    (h : ∀ stage ∈ Line.launched env st items, env'.status stage.pos = env.status stage.pos) :
    Line.launched env' st items = Line.launched env st items := by
  induction items generalizing st with
  | nil              => rfl
  | cons item items hi =>
    obtain ⟨op, n, p⟩ := item
    rw [launched_cons] at h
    obtain ⟨hs, hl⟩ := List.forall_mem_append.mp h
    rw [launched_cons, launched_cons, ← hi hl]
    congr 2
    cases hg : ((started (selects op st.success) n p).map (·.pos)).getLast? with
    | none   => rfl
    | some m =>
      obtain ⟨stage, hstage, rfl⟩ := List.mem_map.mp (List.mem_of_getLast? hg)
      exact congrArg ExitStat.mk (hs stage hstage)

theorem refusing_status (hs : stage ∈ line.stages) (hf : stage.fails env = false) :
    (refusing env line).status stage.pos = env.status stage.pos := by
  refine if_neg ?_
  rw [List.any_eq_true]
  rintro ⟨stage', hs', h⟩
  obtain ⟨hp, hf'⟩ : stage'.pos = stage.pos ∧ stage'.fails env = true := by simpa using h
  rw [stage_eq_of_pos hs' hs hp, hf] at hf'
  exact Bool.false_ne_true hf'

-- The result of `open` is not checked: a command is started whether its redirections fail or not.
theorem refuses_iff (env : Environment) (s : Shell) (line : Line) (background : Bool) :
    Refuses env s line background ↔
      ∀ stage ∈ Line.launched env {} line.items, stage.fails env = false := by
  obtain ⟨s', r, children, hs, hch, hl⟩ := calcCalls_launched env s line background
  constructor
  · rintro ⟨s₁, r₁, children₁, hs₁, hch₁, h⟩ stage hstage
    obtain ⟨rfl, _⟩ := Prod.mk.inj (Option.some.inj (hs₁.symm.trans hs))
    obtain rfl := List.append_cancel_left (hch₁.symm.trans hch)
    have hm := mem_stages_of_launched hstage
    exact ((h stage hm).mp ((hl stage hm).mpr hstage)).2
  · intro h
    have hc : Line.launched (refusing env line) {} line.items = Line.launched env {} line.items :=
      launched_congr fun stage hstage =>
        refusing_status (mem_stages_of_launched hstage) (h stage hstage)
    refine ⟨s', r, children, hs, hch, fun stage hstage => ?_⟩
    rw [hl stage hstage, hc]
    exact ⟨fun hm => ⟨hm, h stage hm⟩, And.left⟩

theorem not_refuses_of_missing_file :
    let env  : Environment := ⟨fun _ => false, fun _ => 0⟩
    let line : Line        := ⟨⟨⟨"a", [], [⟨.input, "f"⟩]⟩, []⟩, []⟩
    (initialShell.calcCalls env (line.lexems ++ endLexems false)).map
        (·.1.kernel.children.map fun child => (child.stage, child.fds.find? 0)) =
      some [((0, ["a"]), some (.inherited 0))] ∧ ¬Refuses env initialShell line false := by
  intro env line
  have hc : (initialShell.calcCalls env (line.lexems ++ endLexems false)).map
      (·.1.kernel.children.map fun child => (child.stage, child.fds.find? 0)) =
    some [((0, ["a"]), some (.inherited 0))] := by decide
  refine ⟨hc, ?_⟩
  rintro ⟨s', r, children, hs, hch, h⟩
  rw [hs, Option.map_some, Option.some.injEq, hch] at hc
  obtain ⟨child, rfl, hst⟩ := List.map_eq_singleton_iff.mp hc
  have hf := (h ⟨0, line.first.first, false, false⟩ (by decide)).mp
    ⟨child, List.mem_singleton_self child, congrArg (·.1.1) hst⟩
  exact absurd hf.2 (by decide)

end Redirected
