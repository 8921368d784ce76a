import Technosphere.Shell.Theorems.Shift

open AndOr (Op selects)
open Line (endLexems)
open Shell (CallsLocals calcCallsBody opType)

namespace Redirected

def Line.skipped (env : Environment) (s : ExitStat) (items : List (Option Op × ℕ × Pipeline)) :
    List (ℕ × Pipeline) :=
  AndOr.skipped ExitStat.success (Line.pipelineStatus env) s items

def runEach (env : Environment) (s : Shell) : List (ℕ × Pipeline) → Option Shell
  | []           => some s
  | (n, p) :: ps => do
    let (s, _) ← s.calcCalls (env.shift n) p.lexems
    runEach env s ps

-- Skipped pipelines have no effect: a line does what the pipelines do that and-or evaluation
-- selects.
def Untouched (env : Environment) (s : Shell) (line : Line) : Prop :=
  ∃ s₁ r s₂, s.calcCalls env line.lexems = some (s₁, r) ∧
    runEach env s (Line.selected env {} line.items) = some s₂ ∧ Alike s₁.kernel s₂.kernel

variable {env : Environment} {lexems rest : List Lexem} {n i : ℕ} {ms : List OpenMode}
  {rs : List Redirection} {cs : List Command} {p : Pipeline} {l : CallsLocals} {s : Shell}
  {line : Line}

theorem openedFrom_shift : openedFrom (env.shift n) ms i rs = openedFrom env ms (n + i) rs := by
  induction rs generalizing ms i with
  | nil => rfl
  | cons r rs hi =>
    rw [openedFrom, openedFrom]
    cases blocksAfter ms r.mode with
    | none   => exact hi
    | some _ => exact congrArg _ hi

theorem openedBehind_shift : openedBehind (env.shift n) i cs = openedBehind env (n + i) cs := by
  induction cs generalizing i with
  | nil => rfl
  | cons c cs hi =>
    simp only [openedBehind, Command.opened, openedFrom_shift, hi, add_assoc]

theorem opened_shift : p.opened (env.shift n) 0 = p.opened env n := by
  simp only [Pipeline.opened, Command.opened, openedFrom_shift, openedBehind_shift, zero_add]

theorem lexems_single : Line.lexems ⟨p, []⟩ ++ endLexems false = p.lexems := by
  simp [Line.lexems, joined, endLexems]

-- What a line opens does not depend on which of its pipelines are run.
theorem calcCalls_effect (env : Environment) (s : Shell) (line : Line) :
    ∃ s' r, s.calcCalls env (line.lexems ++ endLexems false) = some (s', r) ∧
      s'.kernel.opened =
        s.kernel.opened ++ line.items.flatMap (fun x => x.2.2.opened env x.2.1) ∧
      s'.kernel.pipes = s.kernel.pipes + (line.items.map (·.2.2.rest.length)).sum := by
  obtain ⟨l, status, hs, -, -, -, h⟩ := calcCalls_launches env s line false
  obtain ⟨ns, heff, -, -⟩ := h.effect
  exact ⟨l.shell, wExitStatus status, hs, heff.opened, heff.pipes⟩

theorem runEach_effect (env : Environment) (s : Shell) (ps : List (ℕ × Pipeline)) :
    ∃ s', runEach env s ps = some s' ∧
      s'.kernel.opened = s.kernel.opened ++ ps.flatMap (fun x => x.2.opened env x.1) ∧
      s'.kernel.pipes = s.kernel.pipes + (ps.map (·.2.rest.length)).sum := by
  induction ps generalizing s with
  | nil => exact ⟨s, rfl, by simp, rfl⟩
  | cons x ps hi =>
    obtain ⟨n, p⟩ := x
    obtain ⟨s₁, r, hs₁, ho₁, hp₁⟩ := calcCalls_effect (env.shift n) s ⟨p, []⟩
    obtain ⟨s₂, hs₂, ho₂, hp₂⟩ := hi s₁
    rw [lexems_single] at hs₁
    refine ⟨s₂, ?_, ?_, ?_⟩
    · rw [runEach, hs₁]
      exact hs₂
    · rw [ho₂, ho₁, List.flatMap_cons, List.append_assoc]
      simp [Line.items, places, opened_shift]
    · rw [hp₂, hp₁, List.map_cons, List.sum_cons, add_assoc]
      simp [Line.items, places]

theorem Untouched.skipped (h : Untouched env s line) :
    ∀ x ∈ Line.skipped env {} line.items, x.2.rest = [] ∧ x.2.opened env x.1 = [] := by
  obtain ⟨s₁, r, s₂, h₁, h₂, ha⟩ := h
  obtain ⟨t₁, _, ht₁, ho₁, hp₁⟩ := calcCalls_effect env s line
  obtain ⟨t₂, ht₂, ho₂, hp₂⟩ := runEach_effect env s (Line.selected env {} line.items)
  simp only [endLexems, Bool.false_eq_true, ↓reduceIte, List.append_nil] at ht₁
  obtain ⟨rfl, rfl⟩ := Prod.mk.inj (Option.some.inj (h₁.symm.trans ht₁))
  obtain rfl := Option.some.inj (h₂.symm.trans ht₂)
  have ho := ha.opened
  have hp := ha.pipes
  rw [ho₁, ho₂] at ho
  rw [hp₁, hp₂, ← List.length_flatMap, ← List.length_flatMap] at hp
  have hlen := AndOr.length_flatMap ExitStat.success (Line.pipelineStatus env) {} line.items
    (fun x => x.2.rest)
  have hrest : ((Line.skipped env {} line.items).flatMap (·.2.rest)).length = 0 :=
    Nat.add_left_cancel (hlen.symm.trans (Nat.add_left_cancel hp))
  have hr := List.flatMap_eq_nil_iff.mp (List.length_eq_zero_iff.mp hrest)
  have hf := (AndOr.flatMap_eq_selected_iff fun x : ℕ × Pipeline => x.2.opened env x.1).mp
    (List.append_cancel_left ho)
  exact fun x hx => ⟨hr x hx, hf x hx⟩

theorem rounds_selected (env : Environment) {op : Option Op} (h : Part lexems l.idx p.lexems rest)
    (hop : l.prevOp = opType op) (hsel : selects op l.shell.prevExitStatus.success = true)
    (hs : SameShell l.shell s) :
    ∃ (l₁ : CallsLocals) (s' : Shell) (r : ℕ), Rounds env lexems l (l₁.advance lexems) ∧
      l₁.idx = l.idx + p.lexems.length ∧
      s.calcCalls (env.shift l.idx) p.lexems = some (s', r) ∧ SameShell l₁.shell s' := by
  let l' : CallsLocals := { shell := { s with prevExitStatus := ⟨0⟩ } }
  have hd : p.lexems.drop l'.idx =
      p.first.lexems ++ (Pipeline.restLexems p.rest ++ []) := by
    simp [l', Pipeline.lexems]
  have hp : l.shell.passes l.prevOp = l'.shell.passes l'.prevOp := by
    rw [hop, Shell.passes_opType, hsel]
    rfl
  have hr : runs l.shell l.prevOp = runs l'.shell l'.prevOp := by
    rw [hop, runs_opType, hsel]
    rfl
  have hs' : SameShell l.shell l'.shell := ⟨hs.prevReadfd, hs.writefd, hs.kernel⟩
  obtain ⟨l₁, l₁', hr₁, hi₁, hr₁', hi₁', hs₁⟩ := hs'.rounds h hd (.inr ⟨none, rfl⟩) rfl hp hr
  obtain ⟨l₂, status, hc, -, hr₂, hl₂, -⟩ := calcCalls_launches (env.shift l.idx) s ⟨p, []⟩ false
  rw [lexems_single] at hc hr₂ hl₂
  have hle : p.lexems.length ≤ (l₁'.advance p.lexems).idx := Shell.le_advance hi₁'.ge
  obtain rfl := hr₁'.eq_of_idx hr₂ (by omega)
  refine ⟨l₁, _, _, hr₁, hi₁, hc, ?_⟩
  rwa [Shell.advance_shell]

theorem Launches.idle {l' : CallsLocals} (h : Launches env lexems [] [] 0 l l')
    (hs : SameShell l.shell s) : SameShell l'.shell s := by
  obtain ⟨ns, heff, hn, -⟩ := h.effect
  obtain rfl := hn rfl
  obtain ⟨children, hch, hnil⟩ := heff.starts
  obtain rfl := List.map_eq_nil_iff.mp hnil
  obtain ⟨hrd, hwr⟩ := h.ports rfl
  refine ⟨hrd.trans hs.prevReadfd, hwr.trans hs.writefd, ?_, ?_, ?_, ?_⟩
  · rw [heff.idle rfl rfl rfl, hs.kernel.fds]
  · rw [heff.pipes, hs.kernel.pipes, add_zero]
  · rw [heff.opened, hs.kernel.opened, List.append_nil]
  · rw [hch, List.append_nil, hs.kernel.programs]

theorem advance_idx (h : l.idx = l'.idx) :
    (CallsLocals.advance lexems l).idx = (CallsLocals.advance lexems l').idx := by
  simp only [CallsLocals.advance, h]
  cases lexems[l'.idx]? with
  | none   => exact h
  | some _ => rfl

theorem part_of_drop {as : List (Op × Pipeline)}
    (h : lexems.drop n = p.lexems ++ (joined Pipeline.lexems as ++ endLexems false)) :
    Part lexems n p.lexems (joined Pipeline.lexems as ++ endLexems false) := by
  refine ⟨h, ?_⟩
  cases as with
  | nil       => simp [joined, endLexems]
  | cons a as =>
    rw [joined_cons]
    cases a.1 <;> simp [joinLexem]

theorem rounds_untouched (env : Environment) {items : List (Option Op × ℕ × Pipeline)}
    (h : Ahead false lexems l items) (hs : SameShell l.shell s)
    (ht : ∀ x ∈ Line.skipped env l.shell.prevExitStatus items,
      x.2.rest = [] ∧ x.2.opened env x.1 = []) :
    ∃ l' s', Rounds env lexems l l' ∧ lexems.length ≤ l'.idx ∧
      runEach env s (Line.selected env l.shell.prevExitStatus items) = some s' ∧
      SameShell l'.shell s' := by
  induction items generalizing l s with
  | nil              => exact ⟨l, s, .refl, h, rfl, hs⟩
  | cons item items hi =>
    obtain ⟨op, n, p⟩ := item
    obtain ⟨rfl, hop, as, rfl, hd⟩ := h
    have hpart := part_of_drop hd
    obtain ⟨l₁, hi₁, hr₁, h₁, he⟩ := launches_item env hd hop
    rw [Line.skipped, AndOr.skipped] at ht
    rw [Line.selected, AndOr.selected]
    cases hsel : selects op l.shell.prevExitStatus.success with
    | true  =>
      simp only [hsel, ↓reduceIte, Bool.true_or] at ht he ⊢
      obtain ⟨l₂, s₂, r, hr₂, hi₂, hc, hs₂⟩ := rounds_selected env hpart hop hsel hs
      have hidx : l₁.idx = l.idx + p.lexems.length := by
        refine hi₁.idx.resolve_right fun hx => ?_
        have := hpart.next ⟨"&", .subprocess⟩ (by rw [hx.1]; rfl)
        simp at this
      obtain heq := hr₁.eq_of_idx hr₂ (by rw [advance_idx (hidx.trans hi₂.symm)])
      obtain ⟨l', s', hr', hl', hrun, hs'⟩ := hi (ahead_advance hi₁) (s := s₂)
        (by rwa [heq, Shell.advance_shell]) (by rwa [Shell.advance_shell, he])
      rw [Shell.advance_shell, he] at hrun
      refine ⟨l', s', hr₁.trans hr', hl', ?_, hs'⟩
      rw [runEach, hc]
      exact hrun
    | false =>
      simp only [hsel, Bool.false_eq_true, ↓reduceIte, List.forall_mem_cons] at ht ⊢
      obtain ⟨⟨hrest, ho⟩, ht⟩ := ht
      simp only [hsel, hrest, Bool.false_or, List.isEmpty_nil, Bool.not_true, Bool.false_eq_true,
        ↓reduceIte] at he
      have hl : Launches env lexems [] [] 0 l l₁ := by
        rw [ho, hrest] at h₁
        simpa [hsel, hrest, started, Pipeline.stages, Pipeline.stagesFrom] using h₁
      obtain ⟨l', s', hr', hl', hrun, hs'⟩ := hi (ahead_advance hi₁) (s := s)
        (by rw [Shell.advance_shell]; exact hl.idle hs) (by rwa [Shell.advance_shell, he])
      rw [Shell.advance_shell, he] at hrun
      exact ⟨l', s', hr₁.trans hr', hl', hrun, hs'⟩

-- The constructor of a call opens the files of a command before it is decided whether it is run,
-- and of a pipeline that is skipped only the first command is passed over.
theorem untouched_iff (env : Environment) (s : Shell) (line : Line) :
    Untouched env s line ↔
      ∀ x ∈ Line.skipped env {} line.items, x.2.rest = [] ∧ x.2.opened env x.1 = [] := by
  refine ⟨Untouched.skipped, fun h => ?_⟩
  obtain ⟨l, status, hc, -, hr, hl, -⟩ := calcCalls_launches env s line false
  obtain ⟨l', s', hr', hl', hrun, hs'⟩ := rounds_untouched (s := s) env
    (ahead_initial s line false) ⟨rfl, rfl, .refl _⟩ h
  obtain rfl := hr.eq_of_idx hr' (by omega)
  refine ⟨l.shell, wExitStatus status, s', ?_, hrun, hs'.kernel⟩
  simpa [endLexems] using hc

theorem not_untouched_of_skipped_output :
    let env  : Environment := ⟨fun _ => true, fun _ => 256⟩
    let line : Line        :=
      ⟨⟨⟨"a", [], []⟩, []⟩, [(.and, ⟨⟨"b", [], [⟨.output, "f"⟩]⟩, []⟩)]⟩
    (initialShell.calcCalls env line.lexems).map (·.1.kernel.opened) = some [("f", .output)] ∧
      Line.selected env {} line.items = [(0, line.first)] ∧ ¬Untouched env initialShell line := by
  refine ⟨by decide, by decide, fun h => ?_⟩
  have := h.skipped
  revert this
  decide

end Redirected
