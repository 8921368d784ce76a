import Technosphere.Shell.Theorems.Plumbing

open AndOr (Op selects)

namespace Redirected

-- The process of a command: the last redirections that open their files are its input and output,
-- except for the output of a command in front of a pipe.
structure Wired (env : Environment) (s : Stage) (child : Child) : Prop where
  stage  : child.stage = (s.pos, s.command.argv)
  input  : ∀ e, s.command.last .input s.pos = some e → env.opens e.1 = true →
            child.fds.find? 0 = some (.opened e.2 .input)
  output : s.before = false → ∀ e, s.command.last .output s.pos = some e → env.opens e.1 = true →
            child.fds.find? 1 = some (.opened e.2 .output)
  pipe   : s.before = true → ∃ m, child.fds.find? 1 = some (.pipe m .write)

-- A call that has been made of the command `c` at the place `n`, in a table that `fds` has grown
-- to.
structure Loaded (env : Environment) (fds : Descriptors File) (n : ℕ) (c : Command) (behind : Bool)
    (lost : ℕ) (call : Call) (d : Descriptors File) : Prop where
  stage : call.stage = (n, c.argv)
  holds : ∃ f : Option File, f.isSome = behind ∧
            Holds fds (plugAll env (n + c.argv.length) c.redirections ⟨f, none, lost⟩)
              call.readfd call.writefd d

variable {env : Environment} {fds d : Descriptors File} {k k' : Kernel} {n m lost : ℕ} {c : Command}
  {behind : Bool} {call : Call} {lexems rest : List Lexem} {readfd writefd : ℤ} {f : Option File}

theorem isSome_openedFile {mode : OpenMode} {e : Option (ℕ × String)} :
    (e.elim none (openedFile env mode)).isSome = e.any (env.opens ·.1) := by
  cases e with
  | none   => rfl
  | some e => cases h : env.opens e.1 <;> simp [openedFile, h]

theorem new_loaded (env : Environment) (h : lexems.drop n = c.lexems ++ rest) (hr : Ends rest)
    (hc : c.Handled) (hf : f.isSome = behind)
    (hh : Holds fds ⟨f, none, lost⟩ readfd writefd k.fds) :
    ∃ call k', Call.new env lexems n readfd writefd k = some (call, n + c.lexems.length, k') ∧
      Loaded env fds n c behind lost call k'.fds ∧ k'.children = k.children := by
  have hn := new_command env readfd writefd k h hr
  rw [taken_of_handled hc, add_assoc, ← length_lexems] at hn
  have hp : Holds fds _ (Ports.mk readfd writefd k).readfd _ _ := hh
  exact ⟨_, _, hn, ⟨rfl, f, hf, hp.applyAll _ _⟩, applyAll_children⟩

section Standard

variable (h₀ : (fds.find? 0).isSome) (h₁ : (fds.find? 1).isSome)

include h₀ h₁

theorem Loaded.wired (h : Loaded env fds n c behind lost call d) :
    Wired env ⟨n, c, behind, false⟩ (call.exec d) := by
  obtain ⟨f, hf, hh⟩ := h.holds
  obtain ⟨hi, ho⟩ := hh.exec h₀ h₁
  refine ⟨h.stage, fun e he hop => ?_, fun _ e he hop => ?_, by simp⟩
  · rw [hi, plugAll_input, show last .input _ _ = some e from he]
    simp [openedFile, hop]
  · rw [ho, plugAll_output, show last .output _ _ = some e from he]
    simp [openedFile, hop]

theorem Loaded.finish (h : Loaded env fds n c behind lost call k.fds) :
    Grown fds (lost + Stage.lost env ⟨n, c, behind, false⟩) (call.closeFd k).fds := by
  obtain ⟨f, hf, hh⟩ := h.holds
  have hg := hh.closeFd h₀ h₁
  rw [plugAll_lost] at hg
  simpa [Stage.lost, hf, Command.last, add_assoc] using hg

-- A call in front of a pipe, and what the shell has for the next one. Whether a process has been
-- started for the call does not matter to it.
theorem Loaded.launch (h : Loaded env fds n c behind lost call k.fds)
    (hk : k'.fds = k.pipe.2.fds) :
    let call' := { call with writefd := k.pipe.1.2 }
    Wired env ⟨n, c, behind, true⟩ (call'.exec k.pipe.2.fds) ∧
      Holds fds ⟨some (.pipe k.pipes .read), none, lost + Stage.lost env ⟨n, c, behind, true⟩⟩
        k.pipe.1.1 1 (call'.closeFd k').fds := by
  intro call'
  obtain ⟨f, hf, hh⟩ := h.holds
  have hp : Holds fds _ call'.readfd call'.writefd k.pipe.2.fds := (hh.pipe h₀).1
  obtain ⟨hi, ho⟩ := hp.exec h₀ h₁
  refine ⟨⟨h.stage, fun e he hop => ?_, by simp, fun _ => ⟨k.pipes, ho⟩⟩, ?_⟩
  · rw [hi, plugAll_input, show last .input _ _ = some e from he]
    simp [openedFile, hop]
  · have hl := hh.launch h₀ h₁ hk
    rw [plugAll_lost, plugAll_output, isSome_openedFile] at hl
    simpa [Stage.lost, hf, Command.last, Command.opens, add_assoc] using hl

end Standard

theorem Loaded.skip (h : Loaded env fds n c false lost call d) : Grown fds (lost +
    Stage.lost env ⟨n, c, false, false⟩ + (c.opens env .input n).toNat +
    (c.opens env .output n).toNat) d := by
  obtain ⟨f, hf, hh⟩ := h.holds
  have hg := hh.grown
  obtain rfl : f = none := by simpa using hf
  rw [plugAll_lost, plugAll_input, plugAll_output, isSome_openedFile, isSome_openedFile] at hg
  simpa [Stage.lost, Command.opens, Command.last] using hg

section Pipelines

open Shell (PipelineLocals pipelineLoop pipelineBody_eq)
open Redirected.Pipeline (restLexems stagesFrom)

variable {prevOp : Option LexemType} {l : PipelineLocals} {c' : Command} {cs : List Command}
  {idx : ℕ} {status : Option ℕ}

theorem restLexems_cons :
    restLexems (c :: cs) = Pipeline.pipeLexem :: (c.lexems ++ restLexems cs) := by
  simp [restLexems]

theorem length_restLexems_cons :
    (restLexems (c :: cs)).length = 1 + c.lexems.length + (restLexems cs).length := by
  rw [restLexems_cons, List.length_cons, List.length_append]
  omega

theorem length_le_restLexems (cs : List Command) : cs.length ≤ (restLexems cs).length := by
  induction cs with
  | nil => exact le_rfl
  | cons c cs hi =>
    rw [List.length_cons, length_restLexems_cons]
    omega

theorem ends_restLexems (hr : Ends rest) : Ends (restLexems cs ++ rest) := by
  cases cs with
  | nil       => exact hr
  | cons c cs =>
    rw [restLexems_cons]
    simp [Ends, Pipeline.pipeLexem]

theorem stagesFrom_ne_nil : stagesFrom behind n c cs ≠ [] := by
  cases cs <;> simp [stagesFrom]

theorem getLast_stagesFrom_cons : (stagesFrom behind n c (c' :: cs)).getLast stagesFrom_ne_nil =
    (stagesFrom true (n + c.lexems.length + 1) c' cs).getLast stagesFrom_ne_nil := by
  simp only [stagesFrom]
  exact List.getLast_cons stagesFrom_ne_nil

def lostBy (env : Environment) (stages : List Stage) : ℕ :=
  (stages.map (Stage.lost env)).sum

variable (h₀ : (fds.find? 0).isSome) (h₁ : (fds.find? 1).isSome)

include h₀ h₁

theorem pipelineLoop_round (prevOp : Option LexemType) (hr : Ends rest)
    (h : lexems.drop l.idx = restLexems (c' :: cs) ++ rest) (hi : l.idx = n + c.lexems.length)
    (hc : c'.Handled) (hl : Loaded env fds n c behind lost l.call l.shell.kernel.fds) :
    ∃ l' child, (∀ m, pipelineLoop env lexems prevOp (m + 1) l =
        pipelineLoop env lexems prevOp m l') ∧
      l'.first = false ∧ l'.idx = l.idx + 1 + c'.lexems.length ∧
      lexems.drop l'.idx = restLexems cs ++ rest ∧
      Loaded env fds (n + c.lexems.length + 1) c' true
        (lost + Stage.lost env ⟨n, c, behind, true⟩) l'.call l'.shell.kernel.fds ∧
      Wired env ⟨n, c, behind, true⟩ child ∧
      l'.shell.kernel.children = l.shell.kernel.children ++
        (if l.first && l.shell.passes prevOp then [] else [child]) ∧
      l'.shell.writefd = l.shell.writefd := by
  rw [restLexems_cons, List.cons_append, List.append_assoc] at h
  have hk : (if (l.first && l.shell.passes prevOp) = true then l.shell.kernel.pipe.2
      else (l.shell.kernel.pipe.2.fork
        { l.call with writefd := l.shell.kernel.pipe.1.2 }).2).fds =
        l.shell.kernel.pipe.2.fds := by
    split_ifs <;> rfl
  obtain ⟨hw, hh⟩ := hl.launch h₀ h₁ hk
  obtain ⟨call, k', hn, hl', hch⟩ := new_loaded env (k := l.launch prevOp) (drop_succ h)
    (ends_restLexems hr) hc rfl hh
  obtain ⟨pipePids, hb⟩ := pipelineBody_eq hn
  refine ⟨_, _, fun m => whileLoop.of_body ?_ hb, rfl, rfl, drop_add_length (drop_succ h), ?_, hw,
    ?_, rfl⟩
  · simp [typeAt_of_drop h, Pipeline.pipeLexem]
  · rw [← hi]
    exact hl'
  · rw [hch, PipelineLocals.launch, Kernel.closeFd_children]
    split_ifs <;> simp [Kernel.fork, Kernel.pipe]

theorem pipelineLoop_rest (prevOp : Option LexemType) (hr : Ends rest)
    (hp : ∀ l ∈ rest.head?, l.type ≠ .pipe) (h : lexems.drop l.idx = restLexems cs ++ rest)
    (hi : l.idx = n + c.lexems.length) (hc : ∀ c' ∈ cs, c'.Handled) (hm : cs.length ≤ m)
    (hf : (l.first && l.shell.passes prevOp) = false)
    (hl : Loaded env fds n c behind lost l.call l.shell.kernel.fds) :
    ∃ l' children, pipelineLoop env lexems prevOp m l = some l' ∧
      l'.idx = l.idx + (restLexems cs).length ∧
      (l'.finish env).kernel.children = l.shell.kernel.children ++ children ∧
      List.Forall₂ (Wired env) (stagesFrom behind n c cs) children ∧
      Grown fds (lost + lostBy env (stagesFrom behind n c cs)) (l'.finish env).kernel.fds ∧
      l'.shell.writefd = l.shell.writefd ∧
      l'.call.pos = ((stagesFrom behind n c cs).getLast stagesFrom_ne_nil).pos := by
  induction cs generalizing l n c behind lost m with
  | nil =>
    have ht := typeAt_ne_of_drop h hp
    refine ⟨l, [l.call.exec l.shell.kernel.fds], whileLoop.of_not (by simpa using ht), rfl, ?_,
      .cons (hl.wired h₀ h₁) .nil, ?_, rfl, congrArg Prod.fst hl.stage⟩
    · rw [PipelineLocals.finish, Kernel.closeFd_children]
      rfl
    · have hk : Loaded env fds n c behind lost l.call (l.shell.kernel.fork l.call).2.fds := hl
      have hg : Grown fds _ (l.finish env).kernel.fds := hk.finish h₀ h₁
      simpa [lostBy, stagesFrom] using hg
  | cons c' cs ih =>
    obtain ⟨m, rfl⟩ := Nat.exists_eq_succ_of_ne_zero (Nat.ne_zero_of_lt hm)
    obtain ⟨hc', hc⟩ := List.forall_mem_cons.mp hc
    obtain ⟨l₁, child, hl₁, hf₁, hi₁, hd₁, hld₁, hw₁, hch₁, hwr₁⟩ :=
      pipelineLoop_round h₀ h₁ prevOp hr h hi hc' hl
    obtain ⟨l₂, children, hl₂, hi₂, hch₂, hw₂, hg₂, hwr₂, hp₂⟩ := ih hd₁ (by rw [hi₁, hi]) hc
      (Nat.le_of_succ_le_succ hm) (by simp [hf₁]) hld₁
    refine ⟨l₂, child :: children, (hl₁ m).trans hl₂, ?_, ?_, .cons hw₁ hw₂, ?_,
      hwr₂.trans hwr₁, ?_⟩
    · rw [hi₂, hi₁, length_restLexems_cons, ← add_assoc, ← add_assoc]
    · rw [hch₂, hch₁, hf]
      simp
    · rw [add_assoc] at hg₂
      exact hg₂
    · rw [hp₂, getLast_stagesFrom_cons]

-- Of a pipeline that is passed over, the shell starts all commands but the first one.
theorem calcPipeline_stages (s : Shell) (call : Call) (prevOp : Option LexemType)
    (status : Option ℕ) (hr : Ends rest) (hp : ∀ l ∈ rest.head?, l.type ≠ .pipe)
    (h : lexems.drop idx = restLexems (c' :: cs) ++ rest) (hi : idx = n + c.lexems.length)
    (hc : ∀ c ∈ c' :: cs, c.Handled) (hl : Loaded env fds n c false lost call s.kernel.fds) :
    let stages := stagesFrom false n c (c' :: cs)
    ∃ s' children, s.calcPipeline env call status lexems idx prevOp =
        some (s', some s'.prevExitStatus.exitStatus, idx + (restLexems (c' :: cs)).length) ∧
      s'.kernel.children = s.kernel.children ++ children ∧
      List.Forall₂ (Wired env) (if s.passes prevOp then stages.tail else stages) children ∧
      Grown fds (lost + lostBy env stages) s'.kernel.fds ∧
      s'.prevReadfd = 0 ∧ s'.writefd = s.writefd ∧
      s'.prevExitStatus = ⟨env.status (stages.getLast stagesFrom_ne_nil).pos⟩ := by
  intro stages
  obtain ⟨hc', hc⟩ := List.forall_mem_cons.mp hc
  obtain ⟨m, hm⟩ : ∃ m, lexems.length = m + 1 ∧ cs.length ≤ m := by
    have hd := congrArg List.length h
    have := length_le_restLexems cs
    rw [List.length_drop, List.length_append, length_restLexems_cons] at hd
    exact ⟨lexems.length - 1, by omega, by omega⟩
  obtain ⟨l₁, child, hl₁, hf₁, hi₁, hd₁, hld₁, hw₁, hch₁, hwr₁⟩ := pipelineLoop_round
    (l := { shell := s, call, idx }) h₀ h₁ prevOp hr h hi hc' hl
  obtain ⟨l₂, children, hl₂, hi₂, hch₂, hw₂, hg₂, hwr₂, hp₂⟩ := pipelineLoop_rest h₀ h₁ prevOp hr
    hp hd₁ (by rw [hi₁, hi]) hc hm.2 (by simp [hf₁]) hld₁
  have hl₃ : pipelineLoop env lexems prevOp lexems.length { shell := s, call, idx } = some l₂ := by
    rw [hm.1, hl₁, hl₂]
  have hidx : l₂.idx = idx + (restLexems (c' :: cs)).length := by
    rw [hi₂, hi₁, length_restLexems_cons, ← add_assoc, ← add_assoc]
  have hlast : (stages.getLast stagesFrom_ne_nil).pos = l₂.call.pos := by
    rw [hp₂, getLast_stagesFrom_cons]
  refine ⟨l₂.finish env, (if s.passes prevOp then [] else [child]) ++ children, ?_, ?_, ?_, ?_,
    rfl, hwr₂.trans hwr₁, ?_⟩
  · rw [Shell.calcPipeline_eq hl₃, hidx]
    rfl
  · rw [hch₂, hch₁, List.append_assoc]
    rfl
  · split_ifs
    · exact hw₂
    · exact .cons hw₁ hw₂
  · rw [add_assoc] at hg₂
    exact hg₂
  · rw [hlast]
    rfl

end Pipelines

end Redirected
