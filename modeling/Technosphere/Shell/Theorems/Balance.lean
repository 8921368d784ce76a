import Technosphere.Shell.Theorems.RedirectedLines

open AndOr (Op selects)

namespace Redirected

variable {env : Environment} {s : Shell} {line : Line} {st : ExitStat} {n : ℕ} {p : Pipeline}
  {c : Command} {cs : List Command} {behind : Bool} {is : List (Option Op × ℕ × Pipeline)}

theorem map_command_stagesFrom :
    (Pipeline.stagesFrom behind n c cs).map (·.command) = c :: cs := by
  induction cs generalizing behind n c with
  | nil          => rfl
  | cons c cs hi => simp [Pipeline.stagesFrom, hi]

theorem Line.Handled.items (h : line.Handled) :
    ∀ item ∈ line.items, ∀ c ∈ item.2.2.first :: item.2.2.rest, c.Handled := by
  rintro ⟨op, n, p⟩ hi c hc
  have hm : (p.stages n).map (·.command) = p.first :: p.rest := map_command_stagesFrom
  rw [← hm] at hc
  obtain ⟨stage, hs, rfl⟩ := List.mem_map.mp hc
  exact h stage (List.mem_flatMap.mpr ⟨_, hi, hs⟩)

theorem map_reached : (Line.reached env st is).map (·.2) = is.map (·.2) := by
  induction is generalizing st with
  | nil          => rfl
  | cons i is hi => simp [Line.reached, hi]

theorem stages_eq_flatMap (env : Environment) (st : ExitStat) : line.stages =
    (Line.reached env st line.items).flatMap fun x => x.2.2.stages x.2.1 := by
  have hm : ((Line.reached env st line.items).map (·.2)).flatMap (fun x => x.2.stages x.1) =
      (line.items.map (·.2)).flatMap fun x => x.2.stages x.1 := by
    rw [map_reached]
  rw [List.flatMap_map, List.flatMap_map] at hm
  exact hm.symm

def Balanced (env : Environment) (s : Shell) (line : Line) : Prop :=
  ∃ s' r, s.calcCalls env line.lexems = some (s', r) ∧
    ∀ fd, (s'.kernel.fds.find? fd).isSome ↔ (s.kernel.fds.find? fd).isSome

-- No descriptor loses its owner: no redirection that opens its file is followed by another one of
-- its mode, no command behind a pipe has an input, the output of no command in front of a pipe
-- opens its file, and neither do the redirections of a single command that is not run.
structure Owned (env : Environment) (line : Line) : Prop where
  single : ∀ s ∈ line.stages,
            overwritten env (s.pos + s.command.argv.length) s.command.redirections = 0
  behind : ∀ s ∈ line.stages, s.behind = true → s.command.last .input s.pos = none
  before : ∀ s ∈ line.stages, s.before = true → s.command.opens env .output s.pos = false
  run    : ∀ x ∈ Line.reached env {} line.items, x.1 = false → x.2.2.rest = [] →
            ∀ mode, x.2.2.first.opens env mode x.2.1 = false

theorem stage_lost_eq_zero {stage : Stage} : stage.lost env = 0 ↔
    overwritten env (stage.pos + stage.command.argv.length) stage.command.redirections = 0 ∧
      (stage.behind = true → stage.command.last .input stage.pos = none) ∧
      (stage.before = true → stage.command.opens env .output stage.pos = false) := by
  simp only [Stage.lost, Nat.add_eq_zero_iff, Bool.toNat_eq_zero, Bool.and_eq_false_imp,
    Option.isSome_eq_false_iff, Option.isNone_iff_eq_none]
  tauto

theorem pipelineLost_eq_zero {b : Bool} : pipelineLost env b n p = 0 ↔
    (∀ stage ∈ p.stages n, stage.lost env = 0) ∧
      (b = false → p.rest = [] → ∀ mode, p.first.opens env mode n = false) := by
  have hm : (∀ mode, p.first.opens env mode n = false) ↔
      p.first.opens env .input n = false ∧ p.first.opens env .output n = false :=
    ⟨fun h => ⟨h _, h _⟩, fun h mode => by cases mode <;> simp [h]⟩
  rw [pipelineLost, Nat.add_eq_zero_iff, lostBy, List.sum_eq_zero_iff_forall_eq_nat, hm]
  cases b <;> cases p.rest <;> simp

theorem lineLost_eq_zero : lineLost env {} line.items = 0 ↔ Owned env line := by
  rw [lineLost, List.sum_eq_zero_iff_forall_eq_nat]
  simp only [List.forall_mem_map, pipelineLost_eq_zero]
  constructor
  · intro h
    have hl : ∀ stage ∈ line.stages, stage.lost env = 0 := by
      intro stage hs
      rw [stages_eq_flatMap env {}] at hs
      obtain ⟨x, hx, hs⟩ := List.mem_flatMap.mp hs
      exact (h x hx).1 stage hs
    exact {
      single := fun stage hs => (stage_lost_eq_zero.mp (hl stage hs)).1
      behind := fun stage hs => (stage_lost_eq_zero.mp (hl stage hs)).2.1
      before := fun stage hs => (stage_lost_eq_zero.mp (hl stage hs)).2.2
      run    := fun x hx => (h x hx).2 }
  · intro h x hx
    refine ⟨fun stage hs => ?_, h.run x hx⟩
    have hm : stage ∈ line.stages := by
      rw [stages_eq_flatMap env {}]
      exact List.mem_flatMap.mpr ⟨x, hx, hs⟩
    exact stage_lost_eq_zero.mpr ⟨h.single stage hm, h.behind stage hm, h.before stage hm⟩

theorem balanced_iff_lineLost (env : Environment) (hs : Idle s) (hc : line.Handled) :
    Balanced env s line ↔ lineLost env {} line.items = 0 := by
  obtain ⟨s', r, children, hr, _, _, _, hg⟩ := calcCalls_spec env hs hc.items
  constructor
  · rintro ⟨s'', r', hr', hb⟩
    obtain ⟨rfl, rfl⟩ := Prod.mk.inj (Option.some.inj (hr.symm.trans hr'))
    have hlen := hg.length
    rw [Descriptors.length_eq_of_isSome_iff hb] at hlen
    omega
  · intro hl
    refine ⟨s', r, hr, Descriptors.isSome_iff_of_length_le (fun fd hfd => ?_) ?_⟩
    · obtain ⟨f, hf⟩ := Option.isSome_iff_exists.mp hfd
      rw [hg.keeps fd f hf]
      rfl
    · rw [hg.length, hl, add_zero]

theorem balanced_iff (env : Environment) (hs : Idle s) (hc : line.Handled) :
    Balanced env s line ↔ Owned env line :=
  (balanced_iff_lineLost env hs hc).trans lineLost_eq_zero

theorem balanced_iff_of_three :
    let env  : Environment := ⟨fun _ => true, fun pos => if pos = 4 then 256 else 0⟩
    let line : Line        := ⟨⟨⟨"a", [], [⟨.input, "f"⟩]⟩, [⟨"b", [], [⟨.output, "g"⟩]⟩]⟩,
      [(.or, ⟨⟨"c", [], []⟩, []⟩)]⟩
    Balanced env initialShell line ↔ Owned env line :=
  balanced_iff _ idle_initialShell (by decide)

-- In `a || b < f` the second command is not run, and the descriptor of its input stays open.
theorem not_balanced_of_skipped_redirection :
    let env  : Environment := ⟨fun _ => true, fun _ => 0⟩
    let line : Line        := ⟨⟨⟨"a", [], []⟩, []⟩, [(.or, ⟨⟨"b", [], [⟨.input, "f"⟩]⟩, []⟩)]⟩
    line.Handled ∧ ¬Balanced env initialShell line := by
  intro env line
  have hc : line.Handled := by decide
  refine ⟨hc, ?_⟩
  rw [balanced_iff_lineLost env idle_initialShell hc]
  decide

end Redirected
