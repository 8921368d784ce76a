import Technosphere.Shell.Theorems.Ready

open AndOr (Op selects)

namespace Shell

def PrivateEnds (m i n : ℕ) (child : Child) : Prop :=
  ∀ fd j e, child.fds.find? fd = some (.pipe (m + j) e) ↔
    (1 < i ∧ fd = 0 ∧ j + 2 = i ∧ e = .read) ∨ (i < n ∧ fd = 1 ∧ j + 1 = i ∧ e = .write)

-- The processes that the shell starts of a pipeline which has the place `n` in the line, when its
-- status is `s` and it has made `m` pipes. Without redirections, only that of the last stage holds
-- no other ends of the pipeline's pipes than its own.
structure OnlyLast (s : ExitStat) (m : ℕ) (op : Option Op) (n : ℕ) (p : Pipeline)
    (children : List Child) : Prop where
  stages : children.map Child.stage = forked s op n p
  ends   : p.rest ≠ [] → (∀ c ∈ p.first :: p.rest, c.redirections = .none) →
            ∀ i (hi : i < children.length),
              PrivateEnds m (i + if selects op s.success then 1 else 2) (p.rest.length + 1)
                children[i] ↔ i + 1 = children.length

inductive Piped (env : Environment) :
    ExitStat → ℕ → List (Option Op × ℕ × Pipeline) → List Child → Prop
  | nil  : Piped env s m [] []
  | cons : OnlyLast s m op n p cs →
            Piped env ((forked s op n p).getLast?.elim s (⟨env.status ·.1⟩)) (m + p.rest.length)
              items cs' →
            Piped env s m ((op, n, p) :: items) (cs ++ cs')

-- In front of stage `j + 1`, the shell has the descriptors `fds` that it started with, and the read
-- end of the last pipe for the call that it is going to start.
structure Piping (fds : Descriptors File) (m j : ℕ) (call : Call) (k : Kernel) : Prop where
  writefd : call.writefd = 1
  pipes   : k.pipes = m + j
  table   : (j = 0 ∧ call.readfd = 0 ∧ k.fds = fds) ∨
              ∃ i, j = i + 1 ∧ fds.find? call.readfd = none ∧
                k.fds = fds.set call.readfd (.pipe (m + i) .read)

variable {fds : Descriptors File} {m j : ℕ} {call : Call} {k : Kernel}

theorem find?_pipe : k.fds.find? k.pipe.1.1 = none ∧ k.fds.find? k.pipe.1.2 = none ∧
    k.pipe.1.2 ≠ k.pipe.1.1 := by
  have hw : (k.fds.set k.pipe.1.1 (.pipe k.pipes .read)).find? k.pipe.1.2 = none :=
    Descriptors.find?_lowestFree
  have hne : k.pipe.1.2 ≠ k.pipe.1.1 := Descriptors.ne_of_find? hw (by simp)
  exact ⟨Descriptors.find?_lowestFree, by simpa [hne] using hw, hne⟩

theorem pipe_fds : k.pipe.2.fds =
    (k.fds.set k.pipe.1.1 (.pipe k.pipes .read)).set k.pipe.1.2 (.pipe k.pipes .write) :=
  rfl

@[simp]
theorem fork_fds : (k.fork call).2.fds = k.fds :=
  rfl

theorem exec_fds : (call.exec fds).fds = (fds.move call.readfd 0).move call.writefd 1 :=
  rfl

theorem find?_closeFd : (call.closeFd k).fds.find? fd =
    if (call.readfd ≠ 0 ∧ fd = call.readfd) ∨ (call.writefd ≠ 1 ∧ fd = call.writefd) then none
    else k.fds.find? fd := by
  by_cases hr : call.readfd = 0 <;> by_cases hw : call.writefd = 1 <;>
    simp [Call.closeFd, Kernel.close, hr, hw]
  by_cases h₁ : fd = call.writefd <;> by_cases h₂ : fd = call.readfd <;> simp [h₁, h₂]

namespace Piping

theorem launch (h : Piping fds m j call k) (h₀ : (fds.find? 0).isSome)
    (h₁ : (fds.find? 1).isSome) {k' : Kernel} (hk' : k'.fds = k.pipe.2.fds) :
    let call' := { call with writefd := k.pipe.1.2 }
    (call'.exec k.pipe.2.fds).fds.find? k.pipe.1.1 = some (.pipe (m + j) .read) ∧
      k.pipe.1.1 ≠ 0 ∧ fds.find? k.pipe.1.1 = none ∧
      (call'.closeFd k').fds = fds.set k.pipe.1.1 (.pipe (m + j) .read) := by
  intro call'
  have ⟨hr, hw, hne⟩ := find?_pipe (k := k)
  have hfw : k.pipe.2.fds.find? call'.writefd = some (.pipe k.pipes .write) := by
    simp [pipe_fds, call']
  rcases h.table with ⟨_, hread, hk⟩ | ⟨i, _, hread, hk⟩
  · rw [hk] at hr hw
    have hr₀ := Descriptors.ne_of_find? hr h₀
    have hr₁ := Descriptors.ne_of_find? hr h₁
    have hw₁ := Descriptors.ne_of_find? hw h₁
    refine ⟨?_, hr₀, hr, SortedMap.ext_find? fun fd => ?_⟩
    · rw [exec_fds, show call'.readfd = 0 from hread, Descriptors.move_self,
        Descriptors.find?_move hfw hw₁]
      simp [call', hne.symm, hr₁, pipe_fds, h.pipes]
    · simp only [find?_closeFd, hk', pipe_fds, hk, h.pipes, SortedMap.find?_set]
      by_cases hfd : fd = k.pipe.1.2 <;> simp [call', hread, hw₁, hfd, hne, hw]
  · rw [hk, SortedMap.find?_set] at hr hw
    split_ifs at hr hw with hrr hwr
    have hr₀ := Descriptors.ne_of_find? hr h₀
    have hr₁ := Descriptors.ne_of_find? hr h₁
    have hw₁ := Descriptors.ne_of_find? hw h₁
    have hw₀ := Descriptors.ne_of_find? hw h₀
    have hread₀ := Descriptors.ne_of_find? hread h₀
    have hfr : k.pipe.2.fds.find? call'.readfd = some (.pipe (m + i) .read) := by
      simp [pipe_fds, call', hk, Ne.symm hrr, Ne.symm hwr]
    have hfw' : (k.pipe.2.fds.move call'.readfd 0).find? call'.writefd =
        some (.pipe k.pipes .write) := by
      rw [Descriptors.find?_move hfr hread₀, hfw]
      simp [call', hwr, hw₀]
    refine ⟨?_, hr₀, hr, SortedMap.ext_find? fun fd => ?_⟩
    · rw [exec_fds, Descriptors.find?_move hfw' hw₁, Descriptors.find?_move hfr hread₀]
      simp [call', hne.symm, hr₁, hr₀, hrr, pipe_fds, h.pipes]
    · simp only [find?_closeFd, hk', pipe_fds, hk, h.pipes, SortedMap.find?_set]
      by_cases hfd : fd = k.pipe.1.2
      · simp [call', hw₁, hfd, hne, hw]
      · by_cases hfr : fd = call.readfd
        · simp [call', hfr, hread₀, hread, Ne.symm hrr]
        · simp [call', hfd, hfr]

theorem finish (h : Piping fds m (j + 1) call k) (h₀ : (fds.find? 0).isSome) :
    (∀ fd, (call.exec k.fds).fds.find? fd =
      if fd = 0 then some (.pipe (m + j) .read) else fds.find? fd) ∧
      (call.closeFd (k.fork call).2).fds = fds := by
  have ⟨i, hi, hread, hk⟩ := h.table.resolve_left (by simp)
  obtain rfl := Nat.succ_injective hi
  have hread₀ := Descriptors.ne_of_find? hread h₀
  refine ⟨fun fd => ?_, SortedMap.ext_find? fun fd => ?_⟩
  · rw [exec_fds, h.writefd, Descriptors.move_self,
      Descriptors.find?_move (f := .pipe (m + j) .read) (by simp [hk]) hread₀]
    by_cases hfd : fd = call.readfd <;> simp [hk, hfd, hread, hread₀]
  · rw [find?_closeFd, fork_fds, hk]
    by_cases hfd : fd = call.readfd <;> simp [h.writefd, hfd, hread, hread₀]

end Piping

def KeepsReadEnd (m : ℕ) (child : Child) : Prop :=
  ∃ fd j, fd ≠ 0 ∧ child.fds.find? fd = some (.pipe (m + j) .read)

theorem KeepsReadEnd.not_privateEnds {child : Child} (h : KeepsReadEnd m child) :
    ¬PrivateEnds m i n child := by
  have ⟨fd, j, hfd, hf⟩ := h
  intro hp
  rcases (hp fd j .read).mp hf with ⟨_, h, _⟩ | ⟨_, _, _, h⟩
  · exact hfd h
  · cases h

variable {env : Environment} {lexems rest : List Lexem} {prevOp : Option LexemType} {n : ℕ}
  {l : PipelineLocals} {cs : List Command} {s : Shell} {p : Pipeline} {op : Option Op} {b : Bool}
  {items : List (Option Op × ℕ × Pipeline)}

theorem pipelineLoop_next (env : Environment) (prevOp : Option LexemType)
    (h : At lexems (Pipeline.restLexems (c :: cs) ++ rest) n l.idx) (hr : Ends rest)
    (hc : c.redirections = .none) (h₀ : (fds.find? 0).isSome) (h₁ : (fds.find? 1).isSome)
    (hl : Piping fds m j l.call l.shell.kernel) :
    ∃ l' children, (∀ r, pipelineLoop env lexems prevOp (r + 1) l =
        pipelineLoop env lexems prevOp r l') ∧
      At lexems (Pipeline.restLexems cs ++ rest) (n + 1 + c.lexems.length) l'.idx ∧
      Piping fds m (j + 1) l'.call l'.shell.kernel ∧
      l'.shell.kernel.children = l.shell.kernel.children ++ children ∧
      ∀ child ∈ children, KeepsReadEnd m child := by
  obtain ⟨l', hl', _, _, ha, _, _, _, hp, hpl⟩ := pipelineLoop_step env prevOp h hr
  obtain ⟨hread, hwrite, hk⟩ := hpl hc
  let call' := { l.call with writefd := l.shell.kernel.pipe.1.2 }
  let k'    := if l.first && l.shell.passes prevOp then l.shell.kernel.pipe.2
    else (l.shell.kernel.pipe.2.fork call').2
  have hk' : k'.fds = l.shell.kernel.pipe.2.fds := by
    simp only [k']
    split_ifs <;> rfl
  obtain ⟨hch, hne, hfds, hcl⟩ := hl.launch h₀ h₁ hk'
  have hpi : Piping fds m (j + 1) l'.call l'.shell.kernel := by
    refine ⟨hwrite, ?_, .inr ⟨j, rfl, hread ▸ hfds, ?_⟩⟩
    · rw [hp, hl.pipes, add_assoc]
    · rw [hk, hread, ← hcl]
      rfl
  have hch' : l'.shell.kernel.children = k'.children := by
    rw [hk]
    exact Kernel.closeFd_children
  by_cases hf : (l.first && l.shell.passes prevOp) = true
  case pos =>
    refine ⟨l', [], hl', ha, hpi, ?_, by simp⟩
    simp only [hch', k', hf, ↓reduceIte, List.append_nil]
    rfl
  case neg =>
    refine ⟨l', [call'.exec l.shell.kernel.pipe.2.fds], hl', ha, hpi, ?_, ?_⟩
    · simp only [hch', k', hf]
      rfl
    · simpa using ⟨_, j, hne, hch⟩

theorem pipelineLoop_ends (env : Environment) (prevOp : Option LexemType)
    (h : At lexems (Pipeline.restLexems cs ++ rest) n l.idx) (hr : Ends rest)
    (hp : ∀ l ∈ rest.head?, l.type ≠ .pipe) (hm : cs.length ≤ r)
    (hc : ∀ c ∈ cs, c.redirections = .none)
    (h₀ : (fds.find? 0).isSome) (h₁ : (fds.find? 1).isSome)
    (hl : Piping fds m j l.call l.shell.kernel) :
    ∃ l' children, pipelineLoop env lexems prevOp r l = some l' ∧
      Piping fds m (j + cs.length) l'.call l'.shell.kernel ∧
      l'.shell.kernel.children = l.shell.kernel.children ++ children ∧
      ∀ child ∈ children, KeepsReadEnd m child := by
  induction cs generalizing l n r j with
  | nil =>
    have ht := h.typeAt_ne hp
    exact ⟨l, [], whileLoop.of_not (by simpa using ht), hl, by simp, by simp⟩
  | cons c cs hi =>
    obtain ⟨r, rfl⟩ := Nat.exists_eq_succ_of_ne_zero (Nat.ne_zero_of_lt hm)
    obtain ⟨hc₁, hc⟩ := List.forall_mem_cons.mp hc
    obtain ⟨l₁, cs₁, hl₁, ha₁, hpi₁, hk₁, hkeep₁⟩ :=
      pipelineLoop_next env prevOp h hr hc₁ h₀ h₁ hl
    obtain ⟨l₂, cs₂, hl₂, hpi₂, hk₂, hkeep₂⟩ := hi ha₁ (Nat.le_of_succ_le_succ hm) hc hpi₁
    refine ⟨l₂, cs₁ ++ cs₂, (hl₁ r).trans hl₂, ?_, ?_, ?_⟩
    · simpa [add_assoc, add_comm, add_left_comm] using hpi₂
    · rw [hk₂, hk₁, List.append_assoc]
    · exact List.forall_mem_append.mpr ⟨hkeep₁, hkeep₂⟩

theorem calcCallsBody_ends {l l' : CallsLocals}
    (h : Before lexems b l ((op, n, p) :: items)) (hs : l.shell.Ready)
    (hc : ∀ c ∈ p.first :: p.rest, c.redirections = .none) (hn : p.rest ≠ [])
    (hb : calcCallsBody env lexems l = some l') :
    ∃ children last,
      l'.shell.kernel.children = l.shell.kernel.children ++ (children ++ [last]) ∧
      (∀ child ∈ children, KeepsReadEnd l.shell.kernel.pipes child) ∧
      ∀ fd, last.fds.find? fd =
        if fd = 0 then some (.pipe (l.shell.kernel.pipes + (p.rest.length - 1)) .read)
        else l.shell.kernel.fds.find? fd := by
  obtain ⟨hc₁, hc⟩ := List.forall_mem_cons.mp hc
  have h₀ := hs.standard 0 (.inl rfl)
  have h₁ := hs.standard 1 (.inr (.inl rfl))
  obtain ⟨rfl, -, ps, rfl, hd⟩ := h
  rw [Pipeline.lexems, List.append_assoc] at hd
  obtain ⟨r, hr, hp⟩ := Call.new_command env l.shell.prevReadfd l.shell.writefd l.shell.kernel hd
    (ends_restLexems ends_rest)
  obtain ⟨hread, hwrite, hk⟩ := hp.plain hc₁
  let s₁ : Shell := { l.shell with readfd := l.shell.prevReadfd, kernel := r.2.2 }
  have hpi : Piping l.shell.kernel.fds l.shell.kernel.pipes 0 r.1 r.2.2 :=
    ⟨hwrite.trans hs.writefd, by rw [hk]; rfl,
      .inl ⟨rfl, hread.trans hs.prevReadfd, congrArg Kernel.fds hk⟩⟩
  have hle : p.rest.length ≤ lexems.length := by
    have := length_le_restLexems p.rest
    have hlen := congrArg List.length hd
    simp only [List.length_drop, List.length_append] at hlen
    omega
  obtain ⟨l₁, children, hl, hpi', hch, hkeep⟩ := pipelineLoop_ends
    (l := { shell := s₁, call := r.1, idx := r.2.1 }) env l.prevOp hp.next ends_rest head?_rest_ne
    hle hc h₀ h₁ hpi
  have ht : typeAt lexems r.2.1 = some .pipe := by
    obtain ⟨c, cs, hcs⟩ := List.exists_cons_of_ne_nil hn
    exact typeAt_restLexems (hcs ▸ hp.next)
  simp only [calcCallsBody, hr, Option.bind_eq_bind, Option.bind_some, ht, ↓reduceIte] at hb
  rw [calcPipeline_eq hl] at hb
  obtain rfl := Option.some.inj hb
  rw [← Nat.sub_add_cancel (List.length_pos_iff.mpr hn), zero_add] at hpi'
  refine ⟨children, l₁.call.exec l₁.shell.kernel.fds, ?_, hkeep, (hpi'.finish h₀).1⟩
  simp only [advance_shell, PipelineLocals.finish, Kernel.closeFd_children, Kernel.fork, hch]
  rw [show s₁.kernel = l.shell.kernel from hk, List.append_assoc]

theorem privateEnds_last {m n : ℕ} {last : Child} (hn : 0 < n)
    (hl : ∀ fd, last.fds.find? fd =
      if fd = 0 then some (.pipe (m + (n - 1)) .read) else fds.find? fd)
    (hm : ∀ fd j e, fds.find? fd = some (.pipe j e) → j < m) :
    PrivateEnds m (n + 1) (n + 1) last := by
  intro fd j e
  rw [hl fd]
  by_cases hfd : fd = 0
  case pos =>
    simp only [hfd, ↓reduceIte, Option.some.injEq, File.pipe.injEq, Nat.add_left_cancel_iff]
    constructor
    · rintro ⟨hj, rfl⟩
      exact .inl ⟨by omega, trivial, by omega, rfl⟩
    · rintro (⟨_, _, hj, rfl⟩ | ⟨h, _⟩)
      · exact ⟨by omega, rfl⟩
      · exact absurd h (lt_irrefl _)
  case neg =>
    simp only [hfd, ↓reduceIte, false_and, and_false, lt_self_iff_false, or_self, iff_false]
    intro hf
    have := hm fd _ e hf
    omega

@[simp]
theorem length_restStages : (Pipeline.restStages n cs).length = cs.length := by
  induction cs generalizing n with
  | nil          => rfl
  | cons c cs hi => simp [Pipeline.restStages, hi]

theorem length_forked {s : ExitStat} :
    (forked s op n p).length = p.rest.length + if selects op s.success then 1 else 0 := by
  rw [forked]
  split_ifs <;> simp [Pipeline.stages]

theorem onlyLast_of_ends {s : ExitStat} {children : List Child} {last : Child}
    (hs : (children ++ [last]).map Child.stage = forked s op n p)
    (hkeep : ∀ child ∈ children, KeepsReadEnd m child)
    (hlast : PrivateEnds m (p.rest.length + 1) (p.rest.length + 1) last) :
    OnlyLast s m op n p (children ++ [last]) := by
  refine ⟨hs, fun _ _ i hi => ?_⟩
  have hlen := congrArg List.length hs
  rw [List.length_map, List.length_append, List.length_singleton, length_forked] at hlen
  rw [List.length_append, List.length_singleton] at hi ⊢
  rcases Nat.lt_or_eq_of_le (Nat.le_of_lt_succ hi) with hi | rfl
  · rw [List.getElem_append_left hi]
    exact iff_of_false (hkeep _ (List.getElem_mem hi)).not_privateEnds (by omega)
  · have hst : children.length + (if selects op s.success then 1 else 2) = p.rest.length + 1 := by
      split_ifs at hlen ⊢ <;> omega
    rw [List.getElem_concat_length rfl, hst]
    exact iff_of_true hlast rfl

theorem calcCallsBody_piped (env : Environment) {l : CallsLocals}
    (h : Before lexems b l ((op, n, p) :: items)) (hs : l.shell.Ready) :
    ∃ l' children, calcCallsBody env lexems l = some l' ∧ Before lexems b l' items ∧
      l'.shell.Ready ∧ l'.shell.kernel.children = l.shell.kernel.children ++ children ∧
      OnlyLast l.shell.prevExitStatus l.shell.kernel.pipes op n p children ∧
      l'.shell.prevExitStatus = (forked l.shell.prevExitStatus op n p).getLast?.elim
        l.shell.prevExitStatus (⟨env.status ·.1⟩) ∧
      l'.shell.kernel.pipes = l.shell.kernel.pipes + p.rest.length := by
  obtain ⟨l', hb, h', hk, he, _, hp⟩ := calcCallsBody_spec env h
  have hk' := hs.settled.body hb
  obtain ⟨children, hch⟩ := hk'.kernel.children
  refine ⟨l', children, hb, h', hk'.ready, hch.symm, ?_, he, hp⟩
  rw [Kernel.stages, ← hch, List.map_append] at hk
  have hst : children.map Child.stage = _ := List.append_cancel_left hk
  by_cases hc : p.rest ≠ [] ∧ ∀ c ∈ p.first :: p.rest, c.redirections = .none
  case pos =>
    obtain ⟨cs, last, hch', hkeep, hlast⟩ := calcCallsBody_ends h hs hc.2 hc.1 hb
    obtain rfl := List.append_cancel_left (hch.trans hch')
    have hpos := List.length_pos_iff.mpr hc.1
    exact onlyLast_of_ends hst hkeep (privateEnds_last hpos hlast hs.pipes)
  case neg => exact ⟨hst, fun hn hr => absurd ⟨hn, hr⟩ hc⟩

theorem calcCallsLoop_piped (env : Environment) {l : CallsLocals} (h : Before lexems b l items)
    (hs : l.shell.Ready) (hn : items.length ≤ n) :
    ∃ l' children, whileLoop (·.idx < lexems.length) (calcCallsBody env lexems) n l = some l' ∧
      l'.shell.Ready ∧ l'.shell.kernel.children = l.shell.kernel.children ++ children ∧
      Piped env l.shell.prevExitStatus l.shell.kernel.pipes items children := by
  induction items generalizing l n with
  | nil =>
    exact ⟨l, [], whileLoop.of_not (by simpa [Before] using h), hs, by simp, .nil⟩
  | cons item items hi =>
    obtain ⟨n, rfl⟩ := Nat.exists_eq_succ_of_ne_zero (Nat.ne_zero_of_lt hn)
    obtain ⟨op, pos, p⟩ := item
    have hc := idx_lt_of_before h
    obtain ⟨l₁, cs₁, hb, h₁, hs₁, hk₁, ho, he, hp⟩ := calcCallsBody_piped env h hs
    obtain ⟨l₂, cs₂, hl, hs₂, hk₂, hpi⟩ := hi h₁ hs₁ (Nat.le_of_succ_le_succ hn)
    refine ⟨l₂, cs₁ ++ cs₂, (whileLoop.of_body (by simpa) hb).trans hl, hs₂, ?_, .cons ho ?_⟩
    · rw [hk₂, hk₁, List.append_assoc]
    · rwa [← he, ← hp]

-- In every line, of the processes of a pipeline of commands without redirections only that of the
-- last stage holds no other pipe ends than its own: each other one that is started holds the read
-- end of its own output pipe, so that it gets no broken pipe when its consumer exits.
theorem privateEnds_iff_last (env : Environment) (hs : s.Ready) (line : Line) :
    ∃ s' r children, s.calcCalls env line.lexems = some (s', r) ∧ s'.Ready ∧
      s'.kernel.children = s.kernel.children ++ children ∧
      Piped env {} s.kernel.pipes line.items children := by
  obtain ⟨l, children, hl, hr, hch, hp⟩ := calcCallsLoop_piped env (before_initial s line)
    ⟨hs.prevReadfd, hs.writefd, hs.standard, hs.pipes⟩ (length_items line)
  obtain ⟨status, hst⟩ :=
    Option.isSome_iff_exists.mp (status_isSome (s := s) hl (before_initial s line))
  have hne : line.lexems ≠ [] := by
    intro he
    have := length_items line
    simp [he, Line.items] at this
  refine ⟨l.shell, wExitStatus status, children, ?_, hr, hch, hp⟩
  simp only [calcCalls, List.isEmpty_iff, hne, ↓reduceIte, calcCallsLoop, hl, hst,
    Option.bind_eq_bind, Option.bind_some, Option.pure_def]

theorem privateEnds_iff_last_of_three :
    let fds  : Descriptors File :=
      ⟨[(0, .inherited 0), (1, .inherited 1), (2, .inherited 2)], by decide⟩
    let env  : Environment      := ⟨fun _ => true, fun _ => 0⟩
    let s    : Shell            := { kernel := { fds } }
    let line : Line             := ⟨⟨⟨"a", [], .output "f"⟩, []⟩,
      [(.and, ⟨⟨"b", [], .none⟩, [⟨"c", [], .none⟩]⟩)], false⟩
    ∃ s' r children, s.calcCalls env line.lexems = some (s', r) ∧ s'.Ready ∧
      s'.kernel.children = s.kernel.children ++ children ∧
      Piped env {} s.kernel.pipes line.items children := by
  intro fds env s line
  refine privateEnds_iff_last env ⟨rfl, rfl, ?_, ?_⟩ line
  · rintro fd (rfl | rfl | rfl) <;> rfl
  · intro fd m e hf
    have hm := SortedMap.mem_entries.mpr hf
    simp [s, fds] at hm

theorem producer_keeps_read_end :
    let fds : Descriptors File :=
      ⟨[(0, .inherited 0), (1, .inherited 1), (2, .inherited 2)], by decide⟩
    let p   : Pipeline         := ⟨⟨"a", [], .none⟩, [⟨"b", [], .none⟩]⟩
    ∃ s' r producer consumer, Shell.calcCalls { kernel := { fds } }
        ⟨fun _ => true, fun _ => 0⟩ (Line.lexems ⟨p, [], false⟩) = some (s', r) ∧
      s'.kernel.children = [producer, consumer] ∧
      producer.fds.find? 3 = some (.pipe 0 .read) ∧ ¬PrivateEnds 0 1 2 producer := by
  refine ⟨_, _, _, _, rfl, rfl, rfl, ?_⟩
  exact KeepsReadEnd.not_privateEnds ⟨3, 0, by decide, rfl⟩

end Shell
