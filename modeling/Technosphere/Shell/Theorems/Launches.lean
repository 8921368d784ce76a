import Technosphere.Shell.Theorems.Rounds

open AndOr (Op selects)
open Line (endLexems)
open Shell (CallsLocals PipelineLocals calcCallsBody pipelineLoop opType)

-- Which commands of a line are started and which files are opened, whatever redirections they have.
namespace Redirected

open Redirected.Pipeline (restLexems stagesFrom)

def placesBehind (n : ℕ) : List Command → List ℕ
  | []      => []
  | c :: cs => (n + 1) :: placesBehind (n + 1 + c.lexems.length) cs

-- The name of a file stands here, which is taken for a command behind a redirection that no block
-- takes.
def FilePlace (lexems : List Lexem) (n : ℕ) : Prop :=
  ∃ m, n = m + 1 ∧ (typeAt lexems m = some .input ∨ typeAt lexems m = some .output)

structure Effect (k k' : Kernel) (ns : List ℕ) (files : List (String × OpenMode)) (made : ℕ) :
    Prop where
  starts : ∃ children, k'.children = k.children ++ children ∧ children.map (·.pos) = ns
  opened : k'.opened = k.opened ++ files
  pipes  : k'.pipes = k.pipes + made
  idle   : ns = [] → files = [] → made = 0 → k'.fds = k.fds

-- The commands at the places `ms` are started, and nothing else but names of files in front of
-- pipes.
structure Launches (env : Environment) (lexems : List Lexem) (ms : List ℕ)
    (files : List (String × OpenMode)) (made : ℕ) (l l' : CallsLocals) : Prop where
  effect : ∃ ns, Effect l.shell.kernel l'.shell.kernel ns files made ∧ (made = 0 → ns = ms) ∧
            ∀ m, ¬FilePlace lexems m → (m ∈ ns ↔ m ∈ ms)
  ports  : made = 0 → l'.shell.prevReadfd = l.shell.prevReadfd ∧ l'.shell.writefd = l.shell.writefd
  exit   : l'.shell.prevExitStatus = ms.getLast?.elim l.shell.prevExitStatus (⟨env.status ·⟩)
  status : l.status.isSome ∨ ms ≠ [] → l'.status.isSome

structure Follows (rest : List Lexem) : Prop where
  ends : Ends rest ∨ rest = endLexems true
  pipe : ∀ l ∈ rest.head?, l.type ≠ .pipe

-- What is left of a pipeline when the shell looks for an operator: redirections that no block
-- takes, and only behind such ones also commands.
structure Left (lexems rest : List Lexem) (n idx : ℕ) (rs : List Redirection) (cs : List Command) :
    Prop where
  place : At lexems (rs.flatMap (·.lexems) ++ (restLexems cs ++ rest)) n idx
  stop  : rs = [] → cs = []

def openedLeft (env : Environment) (n : ℕ) (rs : List Redirection) (cs : List Command) :
    List (String × OpenMode) :=
  openedFrom env [] n rs ++ openedBehind env (n + 2 * rs.length) cs

-- What has been done when of the redirections `rs` at the place `n` and the commands `cs` behind
-- them `rs'` and `cs'` are left.
structure Done (env : Environment) (n : ℕ) (rs : List Redirection) (cs : List Command) (n' : ℕ)
    (rs' : List Redirection) (cs' : List Command) (ns : List ℕ) (files : List (String × OpenMode))
    (made : ℕ) : Prop where
  places : ns ++ placesBehind (n' + 2 * rs'.length) cs' = placesBehind (n + 2 * rs.length) cs
  files  : files ++ openedLeft env n' rs' cs' = openedLeft env n rs cs
  pipes  : made + cs'.length = cs.length
  place  : n' + 2 * rs'.length + (restLexems cs').length =
            n + 2 * rs.length + (restLexems cs).length

variable {env : Environment} {lexems rest : List Lexem} {n m : ℕ} {c c' : Command}
  {cs cs' : List Command} {rs : List Redirection} {r : Redirection} {ms ms' ns ns' : List ℕ}
  {files files' : List (String × OpenMode)} {i j : ℕ} {k k' k'' : Kernel} {behind : Bool}
  {s : Shell} {call : Call} {prevOp : Option LexemType}

theorem map_pos_stagesFrom : (stagesFrom behind n c cs).map (·.pos) =
    n :: placesBehind (n + c.lexems.length) cs := by
  induction cs generalizing behind n c with
  | nil          => rfl
  | cons c cs hi =>
    rw [stagesFrom, List.map_cons, hi, placesBehind, add_right_comm]

@[simp]
theorem closeFd_opened : (call.closeFd k).opened = k.opened := by
  simp only [Call.closeFd]
  split_ifs <;> rfl

namespace Effect

theorem refl (k : Kernel) : Effect k k [] [] 0 :=
  ⟨⟨[], by simp, rfl⟩, by simp, rfl, fun _ _ _ => rfl⟩

theorem trans (h : Effect k k' ns files i) (h' : Effect k' k'' ns' files' j) :
    Effect k k'' (ns ++ ns') (files ++ files') (i + j) := by
  obtain ⟨children, hk, rfl⟩ := h.starts
  obtain ⟨children', hk', rfl⟩ := h'.starts
  refine ⟨⟨children ++ children', by rw [hk', hk, List.append_assoc], List.map_append⟩, ?_, ?_, ?_⟩
  · rw [h'.opened, h.opened, List.append_assoc]
  · rw [h'.pipes, h.pipes, add_assoc]
  · intro hn hf hp
    obtain ⟨hn, hn'⟩ := List.append_eq_nil_iff.mp hn
    obtain ⟨hf, hf'⟩ := List.append_eq_nil_iff.mp hf
    obtain ⟨hp, hp'⟩ := Nat.add_eq_zero_iff.mp hp
    exact (h'.idle hn' hf' hp').trans (h.idle hn hf hp)

theorem fork (k : Kernel) (call : Call) : Effect k (call.closeFd (k.fork call).2) [call.pos] [] 0 :=
  ⟨⟨[call.exec k.fds], by rw [Kernel.closeFd_children]; rfl, rfl⟩, by simp [Kernel.fork],
    by simp [Kernel.fork], by simp⟩

theorem launch {l : PipelineLocals} : Effect l.shell.kernel (l.launch prevOp)
    (if l.first && l.shell.passes prevOp then [] else [l.call.pos]) [] 1 := by
  refine ⟨?_, ?_, PipelineLocals.launch_pipes, by simp⟩
  · simp only [PipelineLocals.launch, Kernel.closeFd_children]
    split_ifs
    · exact ⟨[], (List.append_nil _).symm, rfl⟩
    · exact ⟨[_], rfl, rfl⟩
  · simp only [PipelineLocals.launch, closeFd_opened, List.append_nil]
    split_ifs <;> rfl

theorem applyAll {x : Ports} :
    Effect x.kernel (applyAll env n rs x).kernel [] (openedFiles env n rs) 0 := by
  induction rs generalizing n x with
  | nil          => exact refl _
  | cons r rs hi =>
    have h : Effect x.kernel (r.apply env n x).kernel []
        (if env.opens (n + 1) then [(r.file, r.mode)] else []) 0 := by
      obtain ⟨mode, file⟩ := r
      by_cases ho : env.opens (n + 1) = true
      case pos =>
        cases mode <;> simp only [Redirection.apply, Kernel.openFile, Ports.set, ho, ↓reduceIte] <;>
          exact ⟨⟨[], by simp, rfl⟩, rfl, rfl, by simp⟩
      case neg =>
        cases mode <;> simp only [Redirection.apply, Kernel.openFile, Ports.set, ho] <;>
          exact refl _
    exact h.trans hi

end Effect

namespace Launches

variable {l l₁ l₂ l' : CallsLocals}

theorem refl (env : Environment) (lexems : List Lexem) (l : CallsLocals) :
    Launches env lexems [] [] 0 l l :=
  ⟨⟨[], .refl _, by simp, by simp⟩, fun _ => ⟨rfl, rfl⟩, rfl, by simp⟩

theorem trans (h : Launches env lexems ms files i l l₁)
    (h' : Launches env lexems ms' files' j l₁ l₂) :
    Launches env lexems (ms ++ ms') (files ++ files') (i + j) l l₂ := by
  obtain ⟨ns, hs, he, hn⟩ := h.effect
  obtain ⟨ns', hs', he', hn'⟩ := h'.effect
  refine ⟨⟨ns ++ ns', hs.trans hs', fun hp => ?_, fun m hm => ?_⟩, fun hp => ?_, ?_,
    fun hst => h'.status ?_⟩
  · obtain ⟨hp, hp'⟩ := Nat.add_eq_zero_iff.mp hp
    rw [he hp, he' hp']
  · rw [List.mem_append, List.mem_append, hn m hm, hn' m hm]
  · obtain ⟨hp, hp'⟩ := Nat.add_eq_zero_iff.mp hp
    exact ⟨(h'.ports hp').1.trans (h.ports hp).1, (h'.ports hp').2.trans (h.ports hp).2⟩
  · rw [h'.exit, h.exit, List.getLast?_append]
    cases ms'.getLast? <;> simp
  · by_cases hm : ms' = []
    case pos => exact .inl (h.status (by simpa [hm] using hst))
    case neg => exact .inr hm

theorem advance (h : Launches env lexems ms files i l l') :
    Launches env lexems ms files i l (l'.advance lexems) := by
  obtain ⟨hs, hp, he, hst⟩ := h
  refine ⟨?_, ?_, ?_, ?_⟩
  · rwa [Shell.advance_shell]
  · rwa [Shell.advance_shell]
  · rwa [Shell.advance_shell]
  · rwa [Shell.advance_status]

end Launches

theorem Done.refl (env : Environment) (n : ℕ) (rs : List Redirection) (cs : List Command) :
    Done env n rs cs n rs cs [] [] 0 :=
  ⟨rfl, rfl, Nat.zero_add _, rfl⟩

theorem Done.cons {n₁ : ℕ} {rs' : List Redirection}
    (hf : files ++ openedFrom env [] n₁ rs = c.opened env (n + 1))
    (hn : n₁ + 2 * rs.length = n + 1 + c.lexems.length)
    (h : Done env n₁ rs cs m rs' cs' ns files' i) :
    Done env n [] (c :: cs) m rs' cs' ((n + 1) :: ns) (files ++ files') (i + 1) := by
  obtain ⟨hplaces, hfiles, hpipes, hplace⟩ := h
  refine ⟨?_, ?_, ?_, ?_⟩
  · rw [List.cons_append, hplaces, hn]
    rfl
  · rw [List.append_assoc, hfiles, openedLeft, openedLeft, hn, ← List.append_assoc, hf]
    rfl
  · rw [List.length_cons, ← hpipes, add_right_comm]
  · rw [hplace, hn, length_restLexems_cons]
    simp only [List.length_nil]
    omega

theorem Follows.stops (hr : Follows rest) : Stops (restLexems cs ++ rest) := by
  cases cs with
  | nil       =>
    rcases hr.ends with h | rfl
    · exact h.stops
    · simp [Stops, restLexems, endLexems]
  | cons c cs => simp [Stops, restLexems_cons, Pipeline.pipeLexem]

theorem Follows.eq_of_subprocess (hr : Follows rest)
    (hd : lexems.drop n = rs.flatMap (·.lexems) ++ (restLexems cs ++ rest))
    (hs : typeAt lexems n = some .subprocess) :
    rs = [] ∧ restLexems cs ++ rest = endLexems true := by
  obtain rfl : rs = [] := by
    by_contra hne
    exact typeAt_ne_of_drop hd (head?_redirections_ne (by decide) fun h => absurd h hne) hs
  rw [typeAt_drop, hd] at hs
  refine ⟨rfl, ?_⟩
  cases cs with
  | nil       =>
    rcases hr.ends with h | rfl
    · obtain ⟨l, hl, ht⟩ := Option.map_eq_some_iff.mp hs
      rcases h l hl with h | h | h <;> simp [h] at ht
    · rfl
  | cons c cs => simp [restLexems_cons, Pipeline.pipeLexem] at hs

section Pipelines

variable {l : PipelineLocals} {idx : ℕ}

theorem new_left (env : Environment) (readfd writefd : ℤ) (k : Kernel)
    (h : lexems.drop n = c.lexems ++ (restLexems cs ++ rest)) (hr : Follows rest) :
    ∃ (rs : List Redirection) (call : Call) (m idx : ℕ) (k' : Kernel)
      (files : List (String × OpenMode)),
      Call.new env lexems n readfd writefd k = some (call, idx, k') ∧ call.pos = n ∧
      Effect k k' [] files 0 ∧ files ++ openedFrom env [] m rs = c.opened env n ∧
      m + 2 * rs.length = n + c.lexems.length ∧
      At lexems (rs.flatMap (·.lexems) ++ (restLexems cs ++ rest)) m idx := by
  rw [Command.lexems, List.append_assoc] at h
  have hd := drop_add_length h
  rw [List.length_map] at hd
  rw [length_lexems]
  by_cases hs : typeAt lexems (n + c.argv.length) = some .subprocess
  case neg =>
    obtain ⟨rs, hrs⟩ := taken_isPrefix modes c.redirections
    have hl := congrArg List.length hrs
    rw [List.length_append] at hl
    have hn := new_command_at env readfd writefd k h hr.stops.head?_ne (if_neg hs) hd hr.stops
    refine ⟨rs, _, _, _, _, _, hn, rfl, Effect.applyAll (x := ⟨readfd, writefd, k⟩), ?_, by omega,
      ?_, .inl rfl⟩
    · have hdrop : c.redirections.drop (taken modes c.redirections).length = rs :=
        (congrArg (List.drop _) hrs).symm.trans List.drop_left
      have ho : openedFrom env modes (n + c.argv.length) c.redirections = _ := openedFrom_eq
      rw [Command.opened, ho, hdrop]
    rw [← hrs, List.flatMap_append, List.append_assoc] at hd
    have hd' := drop_add_length hd
    rwa [length_redirections] at hd'
  case pos =>
    -- The `&` behind the words of the command is passed over.
    obtain ⟨hrc, hrest⟩ := hr.eq_of_subprocess hd hs
    have hd' : lexems.drop (n + c.argv.length + 1) =
        ([] : List Redirection).flatMap (·.lexems) ++ [] := by
      rw [hrc, hrest] at hd
      exact drop_succ hd
    have hn := new_command_at env readfd writefd k h hr.stops.head?_ne (if_pos hs) hd'
      (by simp [Stops])
    refine ⟨[], _, n + c.argv.length, _, _, [], hn, rfl, .refl k, ?_, by simp [hrc], ?_,
      .inr ⟨hrest, rfl⟩⟩
    · rw [Command.opened, hrc]
      rfl
    rwa [hrc] at hd

theorem pipelineLoop_next (env : Environment) (prevOp : Option LexemType) (hr : Follows rest)
    (h : At lexems (restLexems (c :: cs) ++ rest) n l.idx) :
    ∃ (l' : PipelineLocals) (rs : List Redirection) (m : ℕ) (files : List (String × OpenMode)),
      (∀ m, pipelineLoop env lexems prevOp (m + 1) l = pipelineLoop env lexems prevOp m l') ∧
      l'.first = false ∧ l'.call.pos = n + 1 ∧
      Effect l.shell.kernel l'.shell.kernel
        (if l.first && l.shell.passes prevOp then [] else [l.call.pos]) files 1 ∧
      files ++ openedFrom env [] m rs = c.opened env (n + 1) ∧
      m + 2 * rs.length = n + 1 + c.lexems.length ∧
      At lexems (rs.flatMap (·.lexems) ++ (restLexems cs ++ rest)) m l'.idx := by
  rw [restLexems_cons, List.cons_append, List.append_assoc] at h
  obtain rfl := h.idx_eq (by simp [Pipeline.pipeLexem])
  obtain ⟨rs, call, m, idx, k', files, hn, hp, hk, hf, hm, ha⟩ :=
    new_left env l.shell.kernel.pipe.1.1 1 (l.launch prevOp) (drop_succ h.drop) hr
  obtain ⟨pipePids, hb⟩ := Shell.pipelineBody_eq hn
  refine ⟨_, rs, m, files, fun m => whileLoop.of_body ?_ hb, rfl, hp, ?_, hf, hm, ha⟩
  · simp [typeAt_of_drop h.drop, Pipeline.pipeLexem]
  · simpa using Effect.launch.trans hk

theorem Left.typeAt_ne (h : Left lexems rest n idx rs cs) (hr : Follows rest) :
    typeAt lexems idx ≠ some .pipe := by
  refine h.place.typeAt_ne (head?_redirections_ne (by decide) fun hrs => ?_)
  simpa [h.stop hrs, restLexems] using hr.pipe

-- The loop ends behind the last command, or at a redirection that no block takes.
theorem pipelineLoop_left (env : Environment) (prevOp : Option LexemType) (hr : Follows rest)
    (hf : l.first = false) (hm : cs.length ≤ m)
    (h : At lexems (rs.flatMap (·.lexems) ++ (restLexems cs ++ rest)) n l.idx) :
    ∃ l' n' rs' cs' ns files i, pipelineLoop env lexems prevOp m l = some l' ∧
      Left lexems rest n' l'.idx rs' cs' ∧
      Effect l.shell.kernel (l'.finish env).kernel (l.call.pos :: ns) files i ∧
      (l.call.pos :: ns).getLast? = some l'.call.pos ∧
      Done env n rs cs n' rs' cs' ns files i := by
  induction cs generalizing l rs n m with
  | nil          =>
    have hl : Left lexems rest n l.idx rs [] := ⟨h, fun _ => rfl⟩
    exact ⟨l, n, rs, [], [], [], 0, whileLoop.of_not (decide_eq_false (hl.typeAt_ne hr)), hl,
      .fork .., rfl, .refl ..⟩
  | cons c cs hi =>
    by_cases hrs : rs = []
    case neg =>
      have hl : Left lexems rest n l.idx rs (c :: cs) := ⟨h, fun h => absurd h hrs⟩
      exact ⟨l, n, rs, c :: cs, [], [], 0, whileLoop.of_not (decide_eq_false (hl.typeAt_ne hr)), hl,
        .fork .., rfl, .refl ..⟩
    case pos =>
      subst hrs
      obtain ⟨m, rfl⟩ := Nat.exists_eq_succ_of_ne_zero (Nat.ne_zero_of_lt hm)
      obtain ⟨l₁, rs₁, n₁, files₁, hl₁, hf₁, hp₁, hs₁, ho₁, hn₁, ha₁⟩ :=
        pipelineLoop_next env prevOp hr h
      obtain ⟨l₂, n', rs', cs', ns, files, i, hl₂, hleft, hs₂, hlast, hd⟩ :=
        hi hf₁ (Nat.le_of_succ_le_succ hm) ha₁
      rw [hf] at hs₁
      refine ⟨l₂, n', rs', cs', l₁.call.pos :: ns, files₁ ++ files, i + 1, (hl₁ m).trans hl₂, hleft,
        ?_, ?_, ?_⟩
      · rw [add_comm]
        exact hs₁.trans hs₂
      · rw [← hlast, List.getLast?_cons_cons]
      · rw [hp₁]
        exact hd.cons ho₁ hn₁

theorem calcPipeline_left (env : Environment) (s : Shell) (call : Call) (status : Option ℕ)
    (prevOp : Option LexemType) (hr : Follows rest)
    (h : At lexems (restLexems (c :: cs) ++ rest) n idx) :
    ∃ s' last n' idx' rs cs' ns files i,
      s.calcPipeline env call status lexems idx prevOp = some (s', some (env.status last), idx') ∧
      s'.prevExitStatus = ⟨env.status last⟩ ∧ Left lexems rest n' idx' rs cs' ∧
      Effect s.kernel s'.kernel ((if s.passes prevOp then [] else [call.pos]) ++ ns) files (i + 1) ∧
      ns.getLast? = some last ∧ Done env n [] (c :: cs) n' rs cs' ns files (i + 1) := by
  obtain ⟨m, hm, hle⟩ : ∃ m, lexems.length = m + 1 ∧ cs.length ≤ m := by
    have hd := congrArg List.length h.drop
    have := length_le_restLexems cs
    rw [List.length_drop, List.length_append, length_restLexems_cons] at hd
    exact ⟨lexems.length - 1, by omega, by omega⟩
  obtain ⟨l₁, rs₁, n₁, files₁, hl₁, hf₁, hp₁, hs₁, ho₁, hn₁, ha₁⟩ :=
    pipelineLoop_next (l := { shell := s, call, idx }) env prevOp hr h
  obtain ⟨l₂, n', rs, cs', ns, files, i, hl₂, hleft, hs₂, hlast, hd⟩ :=
    pipelineLoop_left env prevOp hr hf₁ hle ha₁
  have hl : pipelineLoop env lexems prevOp lexems.length { shell := s, call, idx } = some l₂ := by
    rw [hm, hl₁, hl₂]
  refine ⟨l₂.finish env, l₂.call.pos, n', l₂.idx, rs, cs', l₁.call.pos :: ns, files₁ ++ files, i,
    Shell.calcPipeline_eq hl, rfl, hleft, ?_, hlast, ?_⟩
  · rw [add_comm]
    exact hs₁.trans hs₂
  · rw [hp₁]
    exact hd.cons ho₁ hn₁

end Pipelines

section Rounds

variable {l : CallsLocals}

-- A pipeline passes over its first command when a single command is not run. Behind a redirection
-- the name of a file is never passed over.
theorem mem_first_iff (hop : FilePlace lexems l.idx ∨ ∃ op, l.prevOp = opType op)
    (hm : ¬FilePlace lexems m) : (m ∈ if l.shell.passes l.prevOp then [] else [l.idx]) ↔
      m ∈ if runs l.shell l.prevOp then [l.idx] else [] := by
  rcases hop with hf | ⟨op, hop⟩
  · have hne : m ≠ l.idx := fun he => hm (he ▸ hf)
    split_ifs <;> simp [hne]
  · rw [hop, Shell.passes_opType, runs_opType]
    cases selects op l.shell.prevExitStatus.success <;> simp

theorem launches_single (h : call.pos = l.idx) (hk : Effect l.shell.kernel k [] files 0) :
    let r := { l.shell with readfd := l.shell.prevReadfd, kernel := k }.calcSingle env call l.status
      l.prevOp
    Launches env lexems (if runs l.shell l.prevOp then [l.idx] else []) files 0 l
      { l with shell := r.1, status := r.2, idx := n } := by
  have hb : runs { l.shell with readfd := l.shell.prevReadfd, kernel := k } l.prevOp =
      runs l.shell l.prevOp := runs_congr rfl
  simp only [calcSingle_runs, hb]
  cases hrun : runs l.shell l.prevOp with
  | true  =>
    rw [if_pos rfl, if_pos rfl, Shell.calcCommand_eq, ← h]
    have he := hk.trans (.fork k call)
    rw [List.append_nil] at he
    exact ⟨⟨_, he, fun _ => rfl, fun _ _ => Iff.rfl⟩, fun _ => ⟨rfl, rfl⟩, rfl, fun _ => rfl⟩
  | false =>
    rw [if_neg Bool.false_ne_true, if_neg Bool.false_ne_true]
    exact ⟨⟨_, hk, fun _ => rfl, fun _ _ => Iff.rfl⟩, fun _ => ⟨rfl, rfl⟩, rfl, by simp⟩

theorem round_pipe (env : Environment) (hr : Follows rest)
    (hop : FilePlace lexems l.idx ∨ ∃ op, l.prevOp = opType op)
    (hn : Call.new env lexems l.idx l.shell.prevReadfd l.shell.writefd l.shell.kernel =
      some (call, m, k))
    (hp : call.pos = l.idx) (hk : Effect l.shell.kernel k [] files 0)
    (ha : At lexems (restLexems (c :: cs) ++ rest) n m) :
    ∃ (l' : CallsLocals) (n' : ℕ) (rs : List Redirection) (cs' : List Command) (ns : List ℕ)
      (files' : List (String × OpenMode)) (i : ℕ),
      round env lexems l = some l' ∧ Left lexems rest n' l'.idx rs cs' ∧
      Launches env lexems ((if runs l.shell l.prevOp then [l.idx] else []) ++ ns)
        (files ++ files') i l l' ∧
      Done env n [] (c :: cs) n' rs cs' ns files' i := by
  obtain ⟨s', last, n', idx, rs, cs', ns, files', i, hs', he, hleft, hst, hlast, hd⟩ :=
    calcPipeline_left env { l.shell with readfd := l.shell.prevReadfd, kernel := k } call l.status
      l.prevOp hr ha
  have ht : typeAt lexems m = some .pipe := by
    rw [restLexems_cons] at ha
    obtain rfl := ha.idx_eq (by simp [Pipeline.pipeLexem])
    exact typeAt_of_drop ha.drop
  have heff := hk.trans hst
  rw [Nat.zero_add, List.nil_append] at heff
  simp only [round, hn, Option.bind_eq_bind, Option.bind_some, ht, ↓reduceIte, hs']
  refine ⟨_, n', rs, cs', ns, files', i + 1, rfl, hleft,
    ⟨⟨_, heff, fun h => absurd h (Nat.succ_ne_zero i), fun m hm => ?_⟩,
      fun h => absurd h (Nat.succ_ne_zero i), ?_, fun _ => rfl⟩, hd⟩
  · rw [List.mem_append, List.mem_append, hp]
    exact or_congr_left (mem_first_iff hop hm)
  · rw [he, List.getLast?_append, hlast]
    rfl

theorem round_left (env : Environment) (hr : Follows rest)
    (h : lexems.drop l.idx = c.lexems ++ (restLexems cs ++ rest))
    (hop : FilePlace lexems l.idx ∨ ∃ op, l.prevOp = opType op) :
    ∃ (l' : CallsLocals) (m n : ℕ) (rs rs' : List Redirection) (cs' : List Command) (ns : List ℕ)
      (files files' : List (String × OpenMode)) (i : ℕ),
      round env lexems l = some l' ∧ Left lexems rest n l'.idx rs' cs' ∧
      Launches env lexems ((if runs l.shell l.prevOp then [l.idx] else []) ++ ns)
        (files ++ files') i l l' ∧
      files ++ openedFrom env [] m rs = c.opened env l.idx ∧
      m + 2 * rs.length = l.idx + c.lexems.length ∧ Done env m rs cs n rs' cs' ns files' i := by
  obtain ⟨rs, call, n, idx, k, files, hn, hp, hk, hf, hlen, ha⟩ := new_left env l.shell.prevReadfd
    l.shell.writefd l.shell.kernel h hr
  by_cases hcs : rs = [] → cs = []
  case pos =>
    have hleft : Left lexems rest n idx rs cs := ⟨ha, hcs⟩
    simp only [round, hn, Option.bind_eq_bind, Option.bind_some, hleft.typeAt_ne hr, ↓reduceIte]
    refine ⟨_, n, n, rs, rs, cs, [], files, [], 0, rfl, hleft, ?_, hf, hlen, .refl ..⟩
    rw [List.append_nil, List.append_nil]
    exact launches_single hp hk
  case neg =>
    push Not at hcs
    obtain ⟨rfl, hne⟩ := hcs
    obtain ⟨c', cs, rfl⟩ := List.exists_cons_of_ne_nil hne
    obtain ⟨l', n', rs', cs', ns, files', i, hl', hleft, h', hd⟩ :=
      round_pipe env hr hop hn hp hk ha
    exact ⟨l', n, n', [], rs', cs', ns, files, files', i, hl', hleft, h', hf, hlen, hd⟩

theorem Left.idx_eq {idx : ℕ} (h : Left lexems rest n idx (r :: rs) cs) : idx = n := by
  refine h.place.idx_eq (l := opLexem r.mode) ?_
  cases r.mode <;> simp [opLexem]

theorem filePlace_advance (h : lexems.drop l.idx = (r :: rs).flatMap (·.lexems) ++ rest) :
    FilePlace lexems (l.advance lexems).idx := by
  refine ⟨l.idx, congrArg CallsLocals.idx (advance_redirection h), ?_⟩
  rw [typeAt_of_drop (l := opLexem r.mode) h]
  cases r.mode <;> simp [opLexem]

-- The rounds for a command and what stands behind it in its pipeline. The induction is on the
-- number of lexems that are left.
theorem launches_pipeline (env : Environment) (hr : Follows rest)
    (h : lexems.drop l.idx = c.lexems ++ (restLexems cs ++ rest))
    (hop : FilePlace lexems l.idx ∨ ∃ op, l.prevOp = opType op) :
    ∃ l' : CallsLocals,
      At lexems rest (l.idx + c.lexems.length + (restLexems cs).length) l'.idx ∧
      Rounds env lexems l (l'.advance lexems) ∧
      Launches env lexems ((if runs l.shell l.prevOp then [l.idx] else []) ++
        placesBehind (l.idx + c.lexems.length) cs) (Pipeline.opened env ⟨c, cs⟩ l.idx) cs.length
        l l' := by
  induction hlen : lexems.length - l.idx using Nat.strong_induction_on generalizing c cs l with
  | _ len ih =>
    obtain ⟨l₁, m, n, rs, rs', cs', ns, files, files', i, hb, hleft, h₁, hf, hm, hd⟩ :=
      round_left env hr h hop
    have hr₁ : Rounds env lexems l (l₁.advance lexems) := .of_round (lt_of_drop_command h) hb
    have hplace := hleft.place
    have hopened : Pipeline.opened env ⟨c, cs⟩ l.idx =
        files ++ (files' ++ openedLeft env n rs' cs') := by
      rw [hd.files, openedLeft, ← List.append_assoc, hf, hm]
      rfl
    rw [hopened, ← hm, ← hd.places, ← hd.place, ← hd.pipes]
    cases rs' with
    | nil =>
      obtain rfl := hleft.stop rfl
      exact ⟨l₁, by simpa [restLexems] using hplace, hr₁,
        by simpa [placesBehind, openedLeft, openedFrom, openedBehind] using h₁⟩
    | cons r rs' =>
      obtain rfl := hleft.idx_eq
      have ha := advance_redirection hplace.drop
      have hlt := lt_of_drop_command h
      have hlt₁ := Shell.calcCallsBody_lt (calcCallsBody_of_round hb)
      obtain ⟨l₂, hi₂, hr₂, h₂⟩ := ih (lexems.length - (l₁.advance lexems).idx) (by omega)
        (drop_advance_redirection hplace.drop) (.inl (filePlace_advance hplace.drop)) rfl
      have hi : (l₁.advance lexems).idx + (Command.mk r.file [] rs').lexems.length =
          l₁.idx + 2 * (r :: rs').length := by
        simp only [ha, length_lexems, Command.argv, List.length_cons, List.length_nil]
        omega
      have ho : Pipeline.opened env ⟨⟨r.file, [], rs'⟩, cs'⟩ (l₁.advance lexems).idx =
          openedLeft env l₁.idx (r :: rs') cs' := by
        simp only [Pipeline.opened, hi]
        rw [ha]
        rfl
      rw [not_runs_redirection hplace.drop, hi, ho] at h₂
      rw [hi] at hi₂
      refine ⟨l₂, hi₂, hr₁.trans hr₂, ?_⟩
      have h := h₁.advance.trans h₂
      simpa only [List.append_assoc, if_neg Bool.false_ne_true, List.nil_append] using h

theorem map_pos_started (b : Bool) (n : ℕ) (p : Pipeline) : (started b n p).map (·.pos) =
    (if b then [n] else []) ++ placesBehind (n + p.first.lexems.length) p.rest := by
  cases b with
  | true  => exact map_pos_stagesFrom
  | false =>
    rw [started, if_neg Bool.false_ne_true, List.map_tail, Pipeline.stages, map_pos_stagesFrom]
    rfl

theorem getLast?_started (s : ExitStat) (b : Bool) (n : ℕ) (p : Pipeline) :
    ((started b n p).map (·.pos)).getLast?.elim s (⟨env.status ·⟩) =
      if b || !p.rest.isEmpty then Line.pipelineStatus env (n, p) else s := by
  obtain ⟨c, cs⟩ := p
  have hl := List.getLast?_eq_getLast_of_ne_nil (Line.stages_ne_nil (n := n) (p := ⟨c, cs⟩))
  rw [List.getLast?_map, started, Line.pipelineStatus]
  cases b with
  | true  => simp [hl]
  | false =>
    cases cs with
    | nil        => simp [Pipeline.stages, stagesFrom]
    | cons c' cs =>
      have ht : ((Pipeline.mk c (c' :: cs)).stages n).tail.getLast? = _ :=
        (List.getLast?_cons_of_ne_nil stagesFrom_ne_nil).symm.trans hl
      simp [ht]

end Rounds

section Lines

variable {l : CallsLocals} {line : Line} {stage : Stage} {as : List (Op × Pipeline)} {b : Bool}

-- The loop of `calcCalls_` in front of the pipelines `items` of a line, which can end in an `&`.
def Ahead (b : Bool) (lexems : List Lexem) (l : CallsLocals) :
    List (Option Op × ℕ × Pipeline) → Prop
  | []                  => lexems.length ≤ l.idx
  | (op, n, p) :: items => l.idx = n ∧ l.prevOp = opType op ∧ ∃ as,
      items = places Pipeline.lexems (n + p.lexems.length) as ∧
      lexems.drop n = p.lexems ++ (joined Pipeline.lexems as ++ endLexems b)

theorem follows_joined : Follows (joined Pipeline.lexems as ++ endLexems b) := by
  cases as with
  | nil       =>
    cases b with
    | false => exact ⟨.inl (by simp [Ends, joined, endLexems]), by simp [joined, endLexems]⟩
    | true  => exact ⟨.inr rfl, by simp [joined, endLexems]⟩
  | cons a as =>
    rw [joined_cons]
    cases a.1 <;> exact ⟨.inl (by simp [Ends, joinLexem]), by simp [joinLexem]⟩

theorem ahead_advance (h : At lexems (joined Pipeline.lexems as ++ endLexems b) n l.idx) :
    Ahead b lexems (l.advance lexems) (places Pipeline.lexems n as) := by
  cases as with
  | nil       =>
    rw [joined, List.flatMap_nil, List.nil_append] at h
    have hn := congrArg List.length h.drop
    rw [List.length_drop] at hn
    rcases h.idx with hi | ⟨hb, hi⟩
    · cases b with
      | false => exact Shell.le_advance (hi ▸ List.drop_eq_nil_iff.mp h.drop)
      | true  =>
        subst hi
        simp only [Ahead, places, CallsLocals.advance, getElem?_of_drop h.drop]
        simp only [endLexems, ↓reduceIte, List.length_singleton] at hn
        omega
    · rw [hb] at hn
      refine Shell.le_advance ?_
      simp only [endLexems, ↓reduceIte, List.length_singleton] at hn
      omega
  | cons a as =>
    have hd := h.drop
    rw [joined_cons] at h hd
    obtain rfl := h.idx_eq (by cases a.1 <;> simp [joinLexem])
    simp only [CallsLocals.advance, getElem?_of_drop hd]
    refine ⟨rfl, ?_, as, rfl, ?_⟩
    · cases a.1 <;> rfl
    · simpa using drop_succ hd

theorem launches_item (env : Environment) {op : Option Op} {p : Pipeline}
    (h : lexems.drop l.idx = p.lexems ++ (joined Pipeline.lexems as ++ endLexems b))
    (hop : l.prevOp = opType op) :
    ∃ l' : CallsLocals,
      At lexems (joined Pipeline.lexems as ++ endLexems b) (l.idx + p.lexems.length) l'.idx ∧
      Rounds env lexems l (l'.advance lexems) ∧
      Launches env lexems
        ((started (selects op l.shell.prevExitStatus.success) l.idx p).map (·.pos))
        (p.opened env l.idx) p.rest.length l l' ∧
      l'.shell.prevExitStatus =
        if selects op l.shell.prevExitStatus.success || !p.rest.isEmpty then
          Line.pipelineStatus env (l.idx, p) else l.shell.prevExitStatus := by
  rw [Pipeline.lexems, List.append_assoc] at h
  obtain ⟨l', hi, hr, hl⟩ := launches_pipeline env follows_joined h (.inr ⟨op, hop⟩)
  rw [hop, runs_opType, ← map_pos_started] at hl
  rw [add_assoc, ← List.length_append] at hi
  exact ⟨l', hi, hr, hl, by rw [hl.exit, getLast?_started]⟩

theorem launches_items (env : Environment) {items : List (Option Op × ℕ × Pipeline)}
    (h : Ahead b lexems l items) :
    ∃ l', Rounds env lexems l l' ∧ lexems.length ≤ l'.idx ∧ Launches env lexems
      ((Line.launched env l.shell.prevExitStatus items).map (·.pos))
      (items.flatMap fun x => x.2.2.opened env x.2.1) (items.map (·.2.2.rest.length)).sum l l' := by
  induction items generalizing l with
  | nil              => exact ⟨l, .refl, h, .refl env lexems l⟩
  | cons item items hi =>
    obtain ⟨op, n, p⟩ := item
    obtain ⟨rfl, hop, as, rfl, hd⟩ := h
    obtain ⟨l₁, hi₁, hr₁, h₁, he⟩ := launches_item env hd hop
    obtain ⟨l₂, hr₂, hl₂, h₂⟩ := hi (ahead_advance hi₁)
    refine ⟨l₂, hr₁.trans hr₂, hl₂, ?_⟩
    have h := h₁.advance.trans h₂
    rw [Shell.advance_shell, he, ← List.map_append] at h
    exact h

theorem ahead_initial (s : Shell) (line : Line) (b : Bool) : Ahead b (line.lexems ++ endLexems b)
    { shell := { s with prevExitStatus := ⟨0⟩ } } line.items :=
  ⟨rfl, rfl, line.rest, by simp, by simp [Line.lexems]⟩

theorem launched_items_ne_nil : Line.launched env {} line.items ≠ [] := by
  rw [Line.items, Line.launched, Line.reached, List.flatMap_cons]
  exact List.append_ne_nil_of_left_ne_nil Line.stages_ne_nil _

theorem not_filePlace_succ {type : LexemType} (h : typeAt lexems n = some type)
    (ht : type ≠ .input ∧ type ≠ .output) : ¬FilePlace lexems (n + 1) := by
  rintro ⟨m, hm, hf⟩
  obtain rfl := Nat.succ_injective hm
  rw [h, Option.some.injEq, Option.some.injEq] at hf
  exact hf.elim ht.1 ht.2

theorem not_filePlace_stagesFrom (hn : ¬FilePlace lexems n)
    (h : lexems.drop n = c.lexems ++ (restLexems cs ++ rest))
    (hs : stage ∈ stagesFrom behind n c cs) : ¬FilePlace lexems stage.pos := by
  induction cs generalizing n c behind with
  | nil         =>
    obtain rfl := List.mem_singleton.mp hs
    exact hn
  | cons c' cs hi =>
    rcases List.mem_cons.mp hs with rfl | hs
    · exact hn
    · have hd := drop_add_length h
      rw [restLexems_cons, List.cons_append, List.append_assoc] at hd
      exact hi (not_filePlace_succ (typeAt_of_drop hd) (by decide)) (drop_succ hd) hs

theorem not_filePlace_places (h : lexems.drop n = joined Pipeline.lexems as)
    {item : Option Op × ℕ × Pipeline} (hi : item ∈ places Pipeline.lexems n as) :
    ¬FilePlace lexems item.2.1 := by
  induction as generalizing n with
  | nil         => simp [places] at hi
  | cons a as ih =>
    rw [joined_cons] at h
    rcases List.mem_cons.mp hi with rfl | hi
    · refine not_filePlace_succ (typeAt_of_drop h) ?_
      cases a.1 <;> decide
    · exact ih (drop_add_length (drop_succ h)) hi

theorem not_filePlace_of_mem (hs : stage ∈ line.stages) : ¬FilePlace line.lexems stage.pos := by
  obtain ⟨⟨op, n, p⟩, hi, hs⟩ := List.mem_flatMap.mp hs
  have hn : ¬FilePlace line.lexems n := by
    rcases List.mem_cons.mp hi with hi | hi
    · obtain rfl : n = 0 := congrArg (·.2.1) hi
      simp [FilePlace]
    · exact not_filePlace_places (List.drop_left) hi
  obtain ⟨as, hd⟩ := items_drop hi
  rw [Pipeline.lexems, List.append_assoc] at hd
  exact not_filePlace_stagesFrom hn hd hs

theorem filePlace_of_background (h : FilePlace (lexems ++ endLexems b) n) :
    FilePlace lexems n := by
  obtain ⟨m, hm, h⟩ := h
  refine ⟨m, hm, ?_⟩
  by_cases hlt : m < lexems.length
  case pos => simpa only [typeAt, List.getElem?_append_left hlt] using h
  case neg =>
    have ht : ∀ type ∈ typeAt (lexems ++ endLexems b) m, type = .subprocess := by
      rw [typeAt, List.getElem?_append_right (Nat.le_of_not_lt hlt)]
      intro type ht
      obtain ⟨l, hl, rfl⟩ := Option.map_eq_some_iff.mp ht
      have hmem := List.mem_of_getElem? hl
      cases b <;> simp_all [endLexems]
    rcases h with h | h <;> cases ht _ h

theorem calcCalls_launches (env : Environment) (s : Shell) (line : Line) (b : Bool) :
    ∃ (l : CallsLocals) (status : ℕ),
      s.calcCalls env (line.lexems ++ endLexems b) = some (l.shell, wExitStatus status) ∧
      l.status = some status ∧
      Rounds env (line.lexems ++ endLexems b) { shell := { s with prevExitStatus := ⟨0⟩ } } l ∧
      (line.lexems ++ endLexems b).length ≤ l.idx ∧
      Launches env (line.lexems ++ endLexems b) ((Line.launched env {} line.items).map (·.pos))
        (line.items.flatMap fun x => x.2.2.opened env x.2.1)
        (line.items.map (·.2.2.rest.length)).sum
        { shell := { s with prevExitStatus := ⟨0⟩ } } l := by
  obtain ⟨l, hr, hl, h⟩ := launches_items env (ahead_initial s line b)
  have hne : line.lexems ++ endLexems b ≠ [] := by
    simp [Line.lexems, Pipeline.lexems, Command.lexems, Command.argv]
  have hst := h.status (.inr (by simpa using launched_items_ne_nil))
  obtain ⟨status, hstatus, hs⟩ := calcCalls_of_rounds hne hr hl hst
  exact ⟨l, status, hs, hstatus, hr, hl, h⟩

theorem calcCalls_launched (env : Environment) (s : Shell) (line : Line) (b : Bool) :
    ∃ s' r children, s.calcCalls env (line.lexems ++ endLexems b) = some (s', r) ∧
      s'.kernel.children = s.kernel.children ++ children ∧
      ∀ stage ∈ line.stages, (∃ child ∈ children, child.pos = stage.pos) ↔
        stage ∈ Line.launched env {} line.items := by
  obtain ⟨l, status, hs, _, _, _, h⟩ := calcCalls_launches env s line b
  obtain ⟨ns, heff, -, hn⟩ := h.effect
  obtain ⟨children, hch, rfl⟩ := heff.starts
  refine ⟨l.shell, wExitStatus status, children, hs, hch, fun stage hstage => ?_⟩
  have hm := hn stage.pos (mt filePlace_of_background (not_filePlace_of_mem hstage))
  rw [List.mem_map, List.mem_map] at hm
  rw [hm]
  constructor
  · rintro ⟨stage', hl', hp⟩
    rwa [← stage_eq_of_pos (mem_stages_of_launched hl') hstage hp]
  · exact fun hl => ⟨stage, hl, rfl⟩

end Lines

end Redirected
