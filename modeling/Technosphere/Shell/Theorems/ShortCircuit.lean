import Technosphere.Shell.Theorems.Pipelines
import Technosphere.Shell.Theorems.Progress

open Line
open AndOr (Op selects)

namespace Shell

def opType (op : Option Op) : Option LexemType :=
  op.map (opLexem · |>.type)

def Before (lexems : List Lexem) (b : Bool) (l : CallsLocals) :
    List (Option Op × ℕ × Pipeline) → Prop
  | []                  => lexems.length ≤ l.idx
  | (op, n, p) :: items => l.idx = n ∧ l.prevOp = opType op ∧ ∃ ps,
      items = restItems (n + p.lexems.length) ps ∧
      lexems.drop n = p.lexems ++ (restLexems ps ++ endLexems b)

variable {env : Environment} {lexems rest : List Lexem} {n idx : ℕ} {l l' : CallsLocals} {s : Shell}
  {c : Command} {cs : List Command} {op : Option Op} {p : Pipeline} {ps : List (Op × Pipeline)}
  {items : List (Option Op × ℕ × Pipeline)} {b : Bool}

theorem passes_opType : s.passes (opType op) = !selects op s.prevExitStatus.success := by
  cases op with
  | none => rfl
  | some op => cases op <;> simp [passes, opType, opLexem, selects]

theorem ends_rest : Ends (restLexems ps ++ endLexems b) := by
  cases ps with
  | nil =>
    cases b with
    | false => exact .nil
    | true  => exact .background
  | cons p ps =>
    rw [restLexems_cons]
    refine .op ?_
    cases p.1 <;> simp [opLexem]

theorem head?_rest_ne : ∀ l ∈ (restLexems ps ++ endLexems b).head?, l.type ≠ .pipe := by
  cases ps with
  | nil => cases b <;> simp [endLexems, restLexems]
  | cons p ps =>
    rw [restLexems_cons]
    cases p.1 <;> simp [opLexem]

@[simp]
theorem advance_shell : (l.advance lexems).shell = l.shell := by
  simp only [CallsLocals.advance]
  cases lexems[l.idx]? <;> rfl

@[simp]
theorem advance_status : (l.advance lexems).status = l.status := by
  simp only [CallsLocals.advance]
  cases lexems[l.idx]? <;> rfl

theorem before_advance (h : At lexems (restLexems ps ++ endLexems b) n l.idx) :
    Before lexems b (l.advance lexems) (restItems n ps) := by
  cases ps with
  | nil =>
    have hn := congrArg List.length h.drop
    simp only [List.length_drop] at hn
    simp only [restItems, Before, CallsLocals.advance]
    cases b with
    | false =>
      have := h.idx
      cases hl : lexems[l.idx]? <;> simp [endLexems, restLexems] at * <;> omega
    | true =>
      have := h.idx
      cases hl : lexems[l.idx]? <;> simp [endLexems, restLexems] at * <;> omega
  | cons p ps =>
    rw [restLexems_cons, List.cons_append, List.append_assoc] at h
    obtain rfl := h.idx_eq (by cases p.1 <;> simp [opLexem])
    simp only [CallsLocals.advance, getElem?_of_drop h.drop]
    exact ⟨rfl, rfl, ps, rfl, drop_succ h.drop⟩

-- What the shell starts of a pipeline: all of it, or what is left without its first command.
def forked (s : ExitStat) (op : Option Op) (n : ℕ) (p : Pipeline) : List (ℕ × List String) :=
  if selects op s.success then p.stages n
  else Pipeline.restStages (n + p.first.lexems.length) p.rest

theorem calcCommand_eq {call : Call} : s.calcCommand env call =
    ({ s with
        kernel := call.closeFd (s.kernel.fork call).2,
        prevExitStatus := ⟨env.status call.pos⟩ },
      some (env.status call.pos)) := by
  simp only [calcCommand, Kernel.waitpid_fork, Option.getD_some]

theorem calcSingle_eq {call : Call} : s.calcSingle env call status (opType op) =
    if selects op s.prevExitStatus.success then s.calcCommand env call else (s, status) := by
  cases op with
  | none => rfl
  | some op =>
    cases op with
    | and => rfl
    | or  => rfl

theorem calcCallsBody_spec (env : Environment) (h : Before lexems b l ((op, n, p) :: items)) :
    ∃ l', calcCallsBody env lexems l = some l' ∧ Before lexems b l' items ∧
      l'.shell.kernel.stages =
        l.shell.kernel.stages ++ forked l.shell.prevExitStatus op n p ∧
      l'.shell.prevExitStatus = (forked l.shell.prevExitStatus op n p).getLast?.elim
        l.shell.prevExitStatus (⟨env.status ·.1⟩) ∧
      (l.status.isSome ∨ op = none → l'.status.isSome) ∧
      l'.shell.kernel.pipes = l.shell.kernel.pipes + p.rest.length := by
  obtain ⟨rfl, hop, ps, rfl, hd⟩ := h
  rw [Pipeline.lexems, List.append_assoc] at hd
  obtain ⟨r, hn, hp⟩ := Call.new_command env l.shell.prevReadfd l.shell.writefd l.shell.kernel hd
    (ends_restLexems ends_rest)
  have hs : r.1.stage = (l.idx, p.first.argv) := by simp [Call.stage, hp.pos, hp.argv]
  have hk : r.2.2.stages = l.shell.kernel.stages := by simp [Kernel.stages, hp.children]
  have hm := Call.new_pipes hn
  have ha := hp.next
  rw [forked]
  cases hr : p.rest with
  | nil =>
    rw [hr] at ha
    have ht := ha.typeAt_ne head?_rest_ne
    simp only [calcCallsBody, hn, Option.bind_eq_bind, Option.bind_some, ht, ↓reduceIte, hop,
      calcSingle_eq]
    refine ⟨_, rfl, before_advance ?_, ?_⟩
    · simpa [Pipeline.lexems, hr, Pipeline.restLexems] using ha
    split_ifs with hsel
    · refine ⟨?_, ?_, ?_, ?_⟩
      · simp [calcCommand_eq, hk, hs, Pipeline.stages, hr, Pipeline.restStages]
      · simp [calcCommand_eq, hp.pos, Pipeline.stages, hr, Pipeline.restStages]
      · simp [calcCommand_eq]
      · simpa [calcCommand_eq, Kernel.fork] using hm
    · have hop : op ≠ none := by
        rintro rfl
        exact hsel rfl
      simp [hk, hop, hm, Pipeline.restStages]
  | cons c cs =>
    rw [hr] at ha
    have ht := typeAt_restLexems ha
    obtain ⟨s', idx', hs', ha', hk', he', hm'⟩ := calcPipeline_spec
      { l.shell with readfd := l.shell.prevReadfd, kernel := r.2.2 } r.1 env l.prevOp l.status ha
      ends_rest head?_rest_ne
    simp only [calcCallsBody, hn, Option.bind_eq_bind, Option.bind_some, ht, ↓reduceIte, hs']
    refine ⟨_, rfl, before_advance ?_, ?_, ?_, ?_, ?_⟩
    · simpa [Pipeline.lexems, hr, add_assoc] using ha'
    · simp only [hop, passes_opType] at hk'
      simp only [advance_shell, hk', hk, hs, Pipeline.stages, hr]
      cases selects op l.shell.prevExitStatus.success <;> simp
    · have hg := List.getLast?_eq_getLast_of_ne_nil
        (@restStages_ne_nil (l.idx + p.first.lexems.length) c cs)
      simp only [advance_shell, he', Pipeline.stages, hr]
      split_ifs <;> simp only [List.getLast?_cons, hg, Option.getD_some, Option.elim_some]
    · simp
    · rw [advance_shell, hm', hm]

def Follows (env : Environment) (lexems : List Lexem) (l : CallsLocals)
    (items : List (Option Op × ℕ × Pipeline)) : Prop :=
  ∀ k, ∃ l', whileLoop (·.idx < lexems.length) (calcCallsBody env lexems) k l = some l' ∧
    l'.shell.kernel.stages =
      l.shell.kernel.stages ++ started env l.shell.prevExitStatus (items.take k) ∧
    l'.shell.prevExitStatus = finalStatus env l.shell.prevExitStatus (items.take k)

theorem idx_lt_of_before (h : Before lexems b l ((op, n, p) :: items)) :
    l.idx < lexems.length := by
  obtain ⟨rfl, _, ps, rfl, hd⟩ := h
  have := congrArg List.length hd
  simp [Pipeline.lexems, Command.lexems, Command.argv] at this
  omega

theorem follows_nil (h : Before lexems b l []) : Follows env lexems l [] := by
  intro k
  refine ⟨l, whileLoop.of_not ?_, ?_, ?_⟩
  · simpa [Before] using h
  · simp
  · simp

-- When a pipeline is run or skipped as a whole, it depends on the following ones whether the shell
-- follows and-or evaluation.
theorem follows_cons (hc : l.idx < lexems.length) (hb : calcCallsBody env lexems l = some l')
    (hk : l'.shell.kernel.stages = l.shell.kernel.stages ++
      started env l.shell.prevExitStatus [(op, n, p)])
    (he : l'.shell.prevExitStatus = finalStatus env l.shell.prevExitStatus [(op, n, p)]) :
    Follows env lexems l ((op, n, p) :: items) ↔ Follows env lexems l' items := by
  have hl {k : ℕ} : whileLoop (·.idx < lexems.length) (calcCallsBody env lexems) (k + 1) l = _ :=
    whileLoop.of_body (by simpa) hb
  have hs {k : ℕ} : l.shell.kernel.stages ++
      started env l.shell.prevExitStatus (((op, n, p) :: items).take (k + 1)) =
        l'.shell.kernel.stages ++ started env l'.shell.prevExitStatus (items.take k) := by
    rw [hk, he, List.take_succ_cons, started_cons, List.append_assoc]
  have hf {k : ℕ} : finalStatus env l.shell.prevExitStatus (((op, n, p) :: items).take (k + 1)) =
      finalStatus env l'.shell.prevExitStatus (items.take k) := by
    rw [he, List.take_succ_cons, finalStatus_cons]
  constructor
  · intro h k
    have ⟨l'', hl'', hk'', he''⟩ := h (k + 1)
    exact ⟨l'', hl ▸ hl'', hs ▸ hk'', hf ▸ he''⟩
  · intro h k
    cases k with
    | zero => exact ⟨l, rfl, by simp, rfl⟩
    | succ k =>
      have ⟨l'', hl'', hk'', he''⟩ := h k
      exact ⟨l'', hl ▸ hl'', hs ▸ hk'', hf ▸ he''⟩

theorem follows_iff (h : Before lexems b l items) : Follows env lexems l items ↔
    ∀ p ∈ skipped env l.shell.prevExitStatus items, p.2.rest = [] := by
  induction items generalizing l with
  | nil => simpa using follows_nil h
  | cons item items hi =>
    obtain ⟨op, n, p⟩ := item
    have hc := idx_lt_of_before h
    obtain ⟨l', hb, h', hk, he, _, _⟩ := calcCallsBody_spec env h
    have hi := hi h'
    rw [skipped_cons]
    rw [forked] at hk he
    cases hs : selects op l.shell.prevExitStatus.success with
    | true =>
      simp only [hs, ↓reduceIte, getLast?_stages] at hk he
      rw [follows_cons hc hb (by simpa [started_single, hs]) (by simpa [finalStatus_single, hs]),
        hi]
      simp [skipped_single, finalStatus_single, hs, he]
    | false =>
      simp only [hs, Bool.false_eq_true, ↓reduceIte] at hk he
      cases hr : p.rest with
      | nil =>
        simp only [hr, Pipeline.restStages, List.append_nil, List.getLast?_nil,
          Option.elim_none] at hk he
        rw [follows_cons hc hb (by simpa [started_single, hs]) (by simpa [finalStatus_single, hs]),
          hi]
        simp [skipped_single, finalStatus_single, hs, he, hr]
      | cons c cs =>
        refine iff_of_false (fun hf => ?_) (fun hf => ?_)
        · obtain ⟨l'', hl, hk', _⟩ := hf 1
          rw [whileLoop.of_body (by simpa) hb] at hl
          obtain rfl := Option.some.inj hl
          rw [hk, List.take_succ_cons, List.take_zero, started_single, hs, hr] at hk'
          exact restStages_ne_nil (List.append_cancel_left hk')
        · have := hf (n, p) (by simp [skipped_single, hs])
          simp [hr] at this

theorem before_initial (s : Shell) (line : Line) : Before line.lexems line.background
    { shell := { s with prevExitStatus := ⟨0⟩ } } line.items := by
  refine ⟨rfl, rfl, line.rest, by simp, ?_⟩
  simp [Line.lexems, List.append_assoc]

theorem status_isSome (hl : s.calcCallsLoop env lexems lexems.length = some l)
    (hb : Before lexems b { shell := { s with prevExitStatus := ⟨0⟩ } } ((none, n, p) :: items)) :
    l.status.isSome := by
  have ⟨rest, hr, ho⟩ := whileLoop.invariant (P := fun l => ∃ rest, Before lexems b l rest ∧
    (l.status.isSome ∨ ∃ n p items, rest = (none, n, p) :: items)) ?_
    ⟨_, hb, .inr ⟨_, _, _, rfl⟩⟩ hl
  · have hd := calcCallsLoop_done hl
    refine ho.resolve_right ?_
    rintro ⟨n, p, items, rfl⟩
    exact absurd (idx_lt_of_before hr) hd.not_gt
  · rintro l l' ⟨rest, hr, ho⟩ hc hb
    cases rest with
    | nil => exact absurd (of_decide_eq_true hc) (not_lt_of_ge hr)
    | cons item rest =>
      obtain ⟨op, n, p⟩ := item
      have ⟨l'', hb', hr', _, _, hs, _⟩ := calcCallsBody_spec env hr
      obtain rfl := Option.some.inj (hb.symm.trans hb')
      refine ⟨rest, hr', .inl (hs ?_)⟩
      refine ho.imp_right ?_
      rintro ⟨n, p, items, he⟩
      exact (Prod.mk.inj (List.cons.inj he).1).1

-- `calcCalls_` starts the stages of exactly the pipelines that and-or evaluation selects, and has
-- its status, after each of its rounds and at the end.
structure ShortCircuits (env : Environment) (s : Shell) (line : Line) : Prop where
  rounds : ∀ k, ∃ l, s.calcCallsLoop env line.lexems k = some l ∧
            l.shell.kernel.stages = s.kernel.stages ++ started env {} (line.items.take k) ∧
            l.shell.prevExitStatus = finalStatus env {} (line.items.take k)
  result : ∃ s' r, s.calcCalls env line.lexems = some (s', r) ∧
            s'.kernel.stages = s.kernel.stages ++ started env {} line.items ∧
            s'.prevExitStatus = finalStatus env {} line.items

theorem length_restItems (n : ℕ) (ps : List (Op × Pipeline)) :
    (restItems n ps).length ≤ (restLexems ps).length := by
  induction ps generalizing n with
  | nil => exact le_rfl
  | cons item ps hi =>
    obtain ⟨op, p⟩ := item
    have := hi (n + 1 + p.lexems.length)
    simp only [restItems, restLexems_cons, List.length_cons, List.length_append]
    omega

theorem lexems_pos : 0 < p.lexems.length := by
  simp [Pipeline.lexems, Command.lexems, Command.argv]

theorem length_items (line : Line) : line.items.length ≤ line.lexems.length := by
  have := length_restItems line.first.lexems.length line.rest
  have := lexems_pos (p := line.first)
  simp only [items, Line.lexems, List.length_cons, List.length_append]
  omega

theorem shortCircuits_of_follows {line : Line}
    (h : Follows env line.lexems { shell := { s with prevExitStatus := ⟨0⟩ } } line.items) :
    ShortCircuits env s line where
  rounds := h
  result := by
    have ⟨l, hl, hk, he⟩ := h line.lexems.length
    have hs := status_isSome (s := s) hl (before_initial s line)
    have ⟨status, hs⟩ := Option.isSome_iff_exists.mp hs
    have hne : line.lexems ≠ [] := by
      rintro he
      have := length_items line
      simp [he, items] at this
    rw [List.take_of_length_le (length_items line)] at hk he
    refine ⟨l.shell, wExitStatus status, ?_, hk, he⟩
    simp only [calcCalls, List.isEmpty_iff, hne, ↓reduceIte, calcCallsLoop, hl, hs,
      Option.bind_eq_bind, Option.bind_some, Option.pure_def]

theorem shortCircuits_iff (env : Environment) (s : Shell) (line : Line) :
    ShortCircuits env s line ↔ ∀ p ∈ skipped env {} line.items, p.2.rest = [] := by
  have h : Follows env _ _ _ ↔ _ := follows_iff (before_initial s line)
  exact ⟨fun hs => h.mp hs.rounds, fun hs => shortCircuits_of_follows (h.mpr hs)⟩

-- In `false && a | b` the pipeline is skipped, but its second command is started.
theorem not_shortCircuits_of_skipped_pipeline :
    let env  : Environment := ⟨fun _ => true, fun pos => if pos = 0 then 256 else 0⟩
    let line : Line        := ⟨⟨⟨"false", [], .none⟩, []⟩,
      [(.and, ⟨⟨"a", [], .none⟩, [⟨"b", [], .none⟩]⟩)], false⟩
    let s    : Shell       := { kernel := { fds := ∅ } }
    (s.calcCalls env line.lexems).map (·.1.kernel.stages) = some [(0, ["false"]), (4, ["b"])] ∧
      ¬ShortCircuits env s line := by
  refine ⟨by decide, fun h => ?_⟩
  have := (follows_iff (before_initial _ _)).mp h.rounds
  revert this
  decide

theorem calcCalls_pipeFree (env : Environment) (s : Shell) {line : Line} (h : line.PipeFree) :
    ∃ s' r last, s.calcCalls env line.lexems = some (s', r) ∧
      s'.kernel.stages = s.kernel.stages ++ started env {} line.items ∧
      (started env {} line.items).getLast? = some last ∧
      s'.prevExitStatus = ⟨env.status last.1⟩ := by
  have hs : ∀ p ∈ skipped env {} line.items, p.2.rest = [] := by
    intro p hp
    have ⟨op, hm⟩ := AndOr.mem_of_mem_skipped hp
    exact h.items _ hm
  have hf := (follows_iff (before_initial s line)).mpr hs
  have ⟨s', r, hr, hk, he⟩ := (shortCircuits_of_follows hf).result
  have hne : started env {} line.items ≠ [] := by
    rw [items, started_cons, started_single]
    exact List.append_ne_nil_of_left_ne_nil (List.cons_ne_nil _ _) _
  have hl := List.getLast?_eq_getLast_of_ne_nil hne
  refine ⟨s', r, _, hr, hk, hl, ?_⟩
  rw [he, finalStatus_eq, hl, Option.elim_some]

theorem calcCalls_pipeFree_of_three :
    let env  : Environment := ⟨fun _ => true, fun pos => if pos = 0 then 256 else 0⟩
    let line : Line        := ⟨⟨⟨"false", [], .none⟩, []⟩,
      [(.and, ⟨⟨"a", [], .inputOutput "f" "g"⟩, []⟩), (.or, ⟨⟨"b", [], .none⟩, []⟩)], true⟩
    let s    : Shell       := { kernel := { fds := ∅ } }
    ∃ s' r last, s.calcCalls env line.lexems = some (s', r) ∧
      s'.kernel.stages = s.kernel.stages ++ started env {} line.items ∧
      (started env {} line.items).getLast? = some last ∧
      s'.prevExitStatus = ⟨env.status last.1⟩ :=
  calcCalls_pipeFree _ _ ⟨rfl, by decide⟩

end Shell
