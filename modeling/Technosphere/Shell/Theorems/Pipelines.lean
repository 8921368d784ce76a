import Technosphere.Shell.Theorems.Calls

def Child.stage (c : Child) : ℕ × List String :=
  (c.pos, c.argv)

def Call.stage (c : Call) : ℕ × List String :=
  (c.pos, c.argv)

def Kernel.stages (k : Kernel) : List (ℕ × List String) :=
  k.children.map Child.stage

namespace Kernel

variable {k : Kernel} {call : Call}

@[simp]
theorem pipe_stages : k.pipe.2.stages = k.stages :=
  rfl

@[simp]
theorem fork_stages : (k.fork call).2.stages = k.stages ++ [call.stage] := by
  simp [fork, stages, Call.exec, Child.stage, Call.stage]

@[simp]
theorem closeFd_children : (call.closeFd k).children = k.children := by
  simp only [Call.closeFd]
  split_ifs <;> rfl

@[simp]
theorem closeFd_stages : (call.closeFd k).stages = k.stages := by
  simp [stages]

@[simp]
theorem closeFd_pipes : (call.closeFd k).pipes = k.pipes := by
  simp only [Call.closeFd]
  split_ifs <;> rfl

theorem waitpid_fork :
    (call.closeFd (k.fork call).2).waitpid env (k.fork call).1 = some (env.status call.pos) := by
  simp [waitpid, fork, Call.exec]

end Kernel

namespace Shell

variable {env : Environment} {lexems rest : List Lexem} {prevOp : Option LexemType} {n : ℕ}
  {l : PipelineLocals} {c : Command} {cs : List Command}

theorem length_le_restLexems (cs : List Command) : cs.length ≤ (Pipeline.restLexems cs).length := by
  induction cs with
  | nil => exact le_rfl
  | cons c cs hi =>
    simp only [Pipeline.restLexems_cons, List.length_cons, List.length_append]
    omega

theorem ends_restLexems (hr : Ends rest) : Ends (Pipeline.restLexems cs ++ rest) := by
  cases cs with
  | nil       => exact hr
  | cons c cs => exact .op (.inl rfl)

theorem typeAt_restLexems (h : At lexems (Pipeline.restLexems (c :: cs) ++ rest) n idx) :
    typeAt lexems idx = some .pipe := by
  rw [Pipeline.restLexems_cons, List.cons_append] at h
  rw [h.idx_eq (by simp [Pipeline.pipeLexem]), typeAt_of_drop h.drop]
  rfl

def PipelineLocals.launch (l : PipelineLocals) (prevOp : Option LexemType) : Kernel :=
  let k    := l.shell.kernel.pipe.2
  let call := { l.call with writefd := l.shell.kernel.pipe.1.2 }
  call.closeFd (if l.first && l.shell.passes prevOp then k else (k.fork call).2)

theorem PipelineLocals.launch_stages :
    (l.launch prevOp).stages = if l.first && l.shell.passes prevOp then l.shell.kernel.stages
      else l.shell.kernel.stages ++ [l.call.stage] := by
  simp only [launch, Kernel.closeFd_stages]
  split_ifs
  · exact Kernel.pipe_stages
  · exact Kernel.fork_stages

theorem PipelineLocals.launch_pipes : (l.launch prevOp).pipes = l.shell.kernel.pipes + 1 := by
  simp only [launch, Kernel.closeFd_pipes]
  split_ifs <;> rfl

theorem pipelineBody_eq {r : Call × ℕ × Kernel}
    (hr : Call.new env lexems (l.idx + 1) l.shell.kernel.pipe.1.1 1 (l.launch prevOp) = some r) :
    ∃ pipePids, pipelineBody env lexems prevOp l = some {
      shell := { l.shell with
        pipefd := l.shell.kernel.pipe.1, prevReadfd := l.shell.kernel.pipe.1.1, kernel := r.2.2 },
      call := r.1, idx := r.2.1, pipePids, first := false } := by
  simp only [PipelineLocals.launch] at hr
  simp only [pipelineBody]
  split_ifs at hr ⊢
  · refine ⟨l.pipePids, ?_⟩
    simp only [hr, Option.bind_eq_bind, Option.bind_some]
    rfl
  · refine ⟨l.pipePids ++ [l.shell.kernel.pipe.2.children.length], ?_⟩
    simp only [hr, Option.bind_eq_bind, Option.bind_some]
    rfl

theorem new_of_pipelineBody {l' : PipelineLocals}
    (h : pipelineBody env lexems prevOp l = some l') : ∃ r pipePids,
    Call.new env lexems (l.idx + 1) l.shell.kernel.pipe.1.1 1 (l.launch prevOp) = some r ∧
      l' = {
        shell := { l.shell with
          pipefd := l.shell.kernel.pipe.1, prevReadfd := l.shell.kernel.pipe.1.1, kernel := r.2.2 },
        call := r.1, idx := r.2.1, pipePids, first := false } := by
  simp only [pipelineBody, Option.bind_eq_bind, Option.bind_eq_some_iff, Option.pure_def,
    Option.some.injEq] at h
  obtain ⟨r, hr, rfl⟩ := h
  refine ⟨r, _, ?_, rfl⟩
  rw [← hr, PipelineLocals.launch]
  split_ifs <;> rfl

theorem pipelineLoop_step (env : Environment) (prevOp : Option LexemType)
    (h : At lexems (Pipeline.restLexems (c :: cs) ++ rest) n l.idx) (hr : Ends rest) :
    ∃ l', (∀ m, pipelineLoop env lexems prevOp (m + 1) l = pipelineLoop env lexems prevOp m l') ∧
      l'.first = false ∧ l'.call.stage = (n + 1, c.argv) ∧
      At lexems (Pipeline.restLexems cs ++ rest) (n + 1 + c.lexems.length) l'.idx ∧
      l'.shell.prevExitStatus = l.shell.prevExitStatus ∧ l'.shell.writefd = l.shell.writefd ∧
      l'.shell.kernel.stages = (l.launch prevOp).stages ∧
      l'.shell.kernel.pipes = l.shell.kernel.pipes + 1 ∧
      (c.redirections = .none → l'.call.readfd = l.shell.kernel.pipe.1.1 ∧
        l'.call.writefd = 1 ∧ l'.shell.kernel = l.launch prevOp) := by
  rw [Pipeline.restLexems_cons, List.cons_append, List.append_assoc] at h
  obtain rfl := h.idx_eq (by simp [Pipeline.pipeLexem])
  have ⟨r, hn, hp⟩ := Call.new_command env l.shell.kernel.pipe.1.1 1 (l.launch prevOp)
    (drop_succ h.drop) (ends_restLexems hr)
  have ⟨pipePids, hb⟩ := pipelineBody_eq hn
  refine ⟨_, fun m => whileLoop.of_body ?_ hb, rfl, ?_, hp.next, rfl, rfl, ?_, ?_, hp.plain⟩
  · simp [typeAt_of_drop h.drop, Pipeline.pipeLexem]
  · simp [Call.stage, hp.pos, hp.argv]
  · simp [Kernel.stages, hp.children]
  · rw [Call.new_pipes hn, PipelineLocals.launch_pipes]

-- The rounds of the loop in front of the commands `cs`, when no command is passed over. Each of
-- them starts the command that has been read before it.
theorem pipelineLoop_rest (env : Environment) (prevOp : Option LexemType)
    (h : At lexems (Pipeline.restLexems cs ++ rest) n l.idx) (hr : Ends rest)
    (hp : ∀ l ∈ rest.head?, l.type ≠ .pipe) (hm : cs.length ≤ m)
    (hf : (l.first && l.shell.passes prevOp) = false) :
    ∃ l', pipelineLoop env lexems prevOp m l = some l' ∧
      At lexems rest (n + (Pipeline.restLexems cs).length) l'.idx ∧
      l'.shell.prevExitStatus = l.shell.prevExitStatus ∧
      l'.shell.kernel.stages ++ [l'.call.stage] =
        l.shell.kernel.stages ++ l.call.stage :: Pipeline.restStages n cs ∧
      l'.shell.kernel.pipes = l.shell.kernel.pipes + cs.length := by
  induction cs generalizing l n m with
  | nil =>
    have hc := h.typeAt_ne hp
    exact ⟨l, whileLoop.of_not (by simpa using hc), h, rfl, rfl, rfl⟩
  | cons c cs hi =>
    obtain ⟨m, rfl⟩ := Nat.exists_eq_succ_of_ne_zero (Nat.ne_zero_of_lt hm)
    have ⟨l₁, hl₁, hf₁, hs₁, ha₁, he₁, _, hk₁, hp₁, _⟩ := pipelineLoop_step env prevOp h hr
    have ⟨l₂, hl₂, ha₂, he₂, hk₂, hp₂⟩ := hi ha₁ (Nat.le_of_succ_le_succ hm) (by simp [hf₁])
    refine ⟨l₂, (hl₁ m).trans hl₂, ?_, he₂.trans he₁, ?_, ?_⟩
    · simpa [Pipeline.restLexems_cons, add_assoc, add_comm, add_left_comm] using ha₂
    · rw [hk₂, hk₁, hs₁, PipelineLocals.launch_stages, hf]
      simp [Pipeline.restStages]
    · rw [hp₂, hp₁, List.length_cons, add_assoc, add_comm 1]

theorem pipelineLoop_spec (env : Environment) (prevOp : Option LexemType)
    (h : At lexems (Pipeline.restLexems (c :: cs) ++ rest) n l.idx) (hr : Ends rest)
    (hp : ∀ l ∈ rest.head?, l.type ≠ .pipe) (hm : (c :: cs).length ≤ m) :
    ∃ l', pipelineLoop env lexems prevOp m l = some l' ∧
      At lexems rest (n + (Pipeline.restLexems (c :: cs)).length) l'.idx ∧
      l'.shell.prevExitStatus = l.shell.prevExitStatus ∧
      l'.shell.kernel.stages ++ [l'.call.stage] =
        (l.launch prevOp).stages ++ Pipeline.restStages n (c :: cs) ∧
      l'.shell.kernel.pipes = l.shell.kernel.pipes + (c :: cs).length := by
  obtain ⟨m, rfl⟩ := Nat.exists_eq_succ_of_ne_zero (Nat.ne_zero_of_lt hm)
  have ⟨l₁, hl₁, hf₁, hs₁, ha₁, he₁, _, hk₁, hp₁, _⟩ := pipelineLoop_step env prevOp h hr
  have ⟨l₂, hl₂, ha₂, he₂, hk₂, hp₂⟩ := pipelineLoop_rest env prevOp ha₁ hr hp
    (Nat.le_of_succ_le_succ hm) (by simp [hf₁])
  refine ⟨l₂, (hl₁ m).trans hl₂, ?_, he₂.trans he₁, ?_, ?_⟩
  · simpa [Pipeline.restLexems_cons, add_assoc, add_comm, add_left_comm] using ha₂
  · rw [hk₂, hk₁, hs₁, Pipeline.restStages]
  · rw [hp₂, hp₁, List.length_cons, add_assoc, add_comm 1]

def PipelineLocals.finish (l : PipelineLocals) (env : Environment) : Shell :=
  { l.shell with
    kernel := l.call.closeFd (l.shell.kernel.fork l.call).2,
    prevExitStatus := ⟨env.status l.call.pos⟩, prevReadfd := 0 }

theorem calcPipeline_eq {s : Shell} {call : Call}
    (h : pipelineLoop env lexems prevOp lexems.length { shell := s, call, idx } = some l) :
    s.calcPipeline env call status lexems idx prevOp =
      some (l.finish env, some (env.status l.call.pos), l.idx) := by
  simp only [calcPipeline, h, Option.bind_eq_bind, Option.bind_some, List.getLast?_concat,
    Kernel.waitpid_fork, Option.some_or, Option.getD_some]
  rfl

theorem restStages_ne_nil {n : ℕ} {c : Command} {cs : List Command} :
    Pipeline.restStages n (c :: cs) ≠ [] :=
  List.cons_ne_nil _ _

-- Without an operator that passes over it, a pipeline is started as a whole. Otherwise it is
-- started without its first command. In both cases the shell takes over the status of the last
-- command.
theorem calcPipeline_spec (s : Shell) (call : Call) (env : Environment)
    (prevOp : Option LexemType) (status : Option ℕ)
    (h : At lexems (Pipeline.restLexems (c :: cs) ++ rest) n idx) (hr : Ends rest)
    (hp : ∀ l ∈ rest.head?, l.type ≠ .pipe) :
    ∃ s' idx', s.calcPipeline env call status lexems idx prevOp =
        some (s', some s'.prevExitStatus.exitStatus, idx') ∧
      At lexems rest (n + (Pipeline.restLexems (c :: cs)).length) idx' ∧
      s'.kernel.stages = s.kernel.stages ++ (if s.passes prevOp then [] else [call.stage]) ++
        Pipeline.restStages n (c :: cs) ∧
      s'.prevExitStatus =
        ⟨env.status ((Pipeline.restStages n (c :: cs)).getLast restStages_ne_nil).1⟩ ∧
      s'.kernel.pipes = s.kernel.pipes + (c :: cs).length := by
  have hm : (c :: cs).length ≤ lexems.length := by
    have hd := congrArg List.length h.drop
    have hc := length_le_restLexems (c :: cs)
    simp only [List.length_drop, List.length_append] at hd
    omega
  have ⟨l, hl, ha, he, hk, hn⟩ := pipelineLoop_spec env prevOp
    (l := { shell := s, call, idx }) h hr hp hm
  have hlast := congrArg List.getLast? hk
  rw [List.getLast?_append_of_ne_nil _ restStages_ne_nil, List.getLast?_concat,
    List.getLast?_eq_getLast_of_ne_nil restStages_ne_nil, Option.some_inj] at hlast
  refine ⟨l.finish env, l.idx, calcPipeline_eq hl, ha, ?_, ?_, ?_⟩
  · simp only [PipelineLocals.finish, Kernel.closeFd_stages, Kernel.fork_stages, hk,
      PipelineLocals.launch_stages, Bool.true_and]
    split_ifs <;> simp
  · simp [PipelineLocals.finish, ← hlast, Call.stage]
  · simpa [PipelineLocals.finish, Kernel.fork] using hn

end Shell
