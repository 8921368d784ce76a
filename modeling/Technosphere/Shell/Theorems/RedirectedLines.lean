import Technosphere.Shell.Theorems.RedirectedRuns

open AndOr (Op selects)
open Shell (CallsLocals calcCallsBody opType)

namespace Redirected

section Joined

variable {α : Type u} {f : α → List Lexem} {lexems : List Lexem} {l : CallsLocals} {n : ℕ} {op : Op}
  {a : α} {as : List (Op × α)}

-- The loop of `calcCalls_` is about to evaluate the first one of the elements that are left.
def Before (f : α → List Lexem) (lexems : List Lexem) (l : CallsLocals) :
    List (Option Op × ℕ × α) → Prop
  | []                  => lexems.length ≤ l.idx
  | (op, n, a) :: items => l.idx = n ∧ l.prevOp = opType op ∧ ∃ as,
      items = places f (n + (f a).length) as ∧ lexems.drop n = f a ++ joined f as

theorem joined_cons : joined f ((op, a) :: as) = joinLexem op :: (f a ++ joined f as) := by
  simp [joined]

theorem ends_joined : Ends (joined f as) := by
  cases as with
  | nil       => simp [Ends, joined]
  | cons a as =>
    rw [joined_cons]
    cases a.1 <;> simp [Ends, joinLexem]

theorem head?_joined_ne : ∀ l ∈ (joined f as).head?, l.type ≠ .pipe := by
  cases as with
  | nil       => simp [joined]
  | cons a as =>
    rw [joined_cons]
    cases a.1 <;> simp [joinLexem]

theorem before_advance (h : lexems.drop n = joined f as) (hi : l.idx = n) :
    Before f lexems (l.advance lexems) (places f n as) := by
  subst hi
  cases as with
  | nil =>
    have hn : lexems.length ≤ l.idx := List.drop_eq_nil_iff.mp h
    simpa [places, Before, CallsLocals.advance, List.getElem?_eq_none hn] using hn
  | cons a as =>
    rw [joined_cons] at h
    simp only [CallsLocals.advance, getElem?_of_drop h]
    refine ⟨rfl, ?_, as, rfl, drop_succ h⟩
    cases a.1 <;> rfl

theorem idx_lt_of_before {op : Option Op} {items : List (Option Op × ℕ × α)}
    (h : Before f lexems l ((op, n, a) :: items)) (ha : f a ≠ []) : l.idx < lexems.length := by
  obtain ⟨rfl, _, as, rfl, hd⟩ := h
  have hl := congrArg List.length hd
  have := List.length_pos_iff.mpr ha
  rw [List.length_drop, List.length_append] at hl
  omega

theorem length_places (n : ℕ) (as : List (Op × α)) :
    (places f n as).length ≤ (joined f as).length := by
  induction as generalizing n with
  | nil => exact le_rfl
  | cons a as hi =>
    obtain ⟨op, a⟩ := a
    have := hi (n + 1 + (f a).length)
    simp only [places, joined_cons, List.length_cons, List.length_append]
    omega

end Joined

structure Between (fds : Descriptors File) (lost : ℕ) (s : Shell) : Prop where
  prevReadfd : s.prevReadfd = 0
  writefd    : s.writefd = 1
  grown      : Grown fds lost s.kernel.fds

def started (b : Bool) (n : ℕ) (p : Pipeline) : List Stage :=
  if b then p.stages n else (p.stages n).tail

def pipelineLost (env : Environment) (b : Bool) (n : ℕ) (p : Pipeline) : ℕ :=
  lostBy env (p.stages n) + if b || !p.rest.isEmpty then 0 else
    (p.first.opens env .input n).toNat + (p.first.opens env .output n).toNat

variable {env : Environment} {fds : Descriptors File} {lexems : List Lexem} {l : CallsLocals}
  {n m lost : ℕ} {op : Option Op} {p : Pipeline} {ps : List (Op × Pipeline)}
  {items : List (Option Op × ℕ × Pipeline)} {s : Shell}

theorem Between.holds (h : Between fds lost s) :
    Holds fds ⟨none, none, lost⟩ s.prevReadfd s.writefd s.kernel.fds :=
  ⟨h.grown, .inl h.prevReadfd, .inl h.writefd, by simp⟩

-- What a round of the loop of `calcCalls_` does with a pipeline that is selected or not.
structure Round (env : Environment) (fds : Descriptors File) (lost : ℕ) (b : Bool) (n : ℕ)
    (p : Pipeline) (l l' : CallsLocals) : Prop where
  between  : Between fds (lost + pipelineLost env b n p) l'.shell
  children : ∃ children, l'.shell.kernel.children = l.shell.kernel.children ++ children ∧
              List.Forall₂ (Wired env) (started b n p) children
  exit     : l'.shell.prevExitStatus = if b || !p.rest.isEmpty
              then Line.pipelineStatus env (n, p) else l.shell.prevExitStatus
  status   : l.status.isSome ∨ b = true → l'.status.isSome

section Standard

variable (h₀ : (fds.find? 0).isSome) (h₁ : (fds.find? 1).isSome)

include h₀ h₁

theorem calcCallsBody_single {c : Command} (env : Environment)
    (h : Before Pipeline.lexems lexems l ((op, n, ⟨c, []⟩) :: items))
    (hs : Between fds lost l.shell) (hc : c.Handled) :
    ∃ l', calcCallsBody env lexems l = some l' ∧ Before Pipeline.lexems lexems l' items ∧
      Round env fds lost (selects op l.shell.prevExitStatus.success) n ⟨c, []⟩ l l' := by
  obtain ⟨rfl, hop, ps, rfl, hd⟩ := h
  have hlex : Pipeline.lexems ⟨c, []⟩ = c.lexems := by
    simp [Pipeline.lexems, Pipeline.restLexems]
  rw [hlex] at hd ⊢
  obtain ⟨call, k, hn, hl, hk⟩ := new_loaded env hd ends_joined hc rfl hs.holds
  have hd' := drop_add_length hd
  have ht := typeAt_ne_of_drop hd' head?_joined_ne
  simp only [calcCallsBody, hn, Option.bind_eq_bind, Option.bind_some, ht, ↓reduceIte, hop,
    Shell.calcSingle_eq]
  refine ⟨_, rfl, before_advance hd' rfl, ?_⟩
  cases hb : selects op l.shell.prevExitStatus.success with
  | true =>
    have hk' : Loaded env fds l.idx c false lost call (k.fork call).2.fds := hl
    have hg : Grown fds _ (call.closeFd (k.fork call).2).fds := hk'.finish h₀ h₁
    refine ⟨?_, ⟨[call.exec k.fds], ?_, .cons (hl.wired h₀ h₁) .nil⟩, ?_, ?_⟩
    · simpa [Shell.calcCommand_eq, pipelineLost, lostBy, Pipeline.stages, Pipeline.stagesFrom]
        using ⟨hs.prevReadfd, hs.writefd, hg⟩
    · simp [Shell.calcCommand_eq, Kernel.fork, hk]
    · have hpos : call.pos = l.idx := congrArg Prod.fst hl.stage
      simp [Shell.calcCommand_eq, Line.pipelineStatus, Pipeline.stages, Pipeline.stagesFrom, hpos]
    · simp [Shell.calcCommand_eq]
  | false =>
    refine ⟨?_, ⟨[], ?_, .nil⟩, ?_, ?_⟩
    · have hg := hl.skip
      simp only [add_assoc] at hg
      simpa [pipelineLost, lostBy, Pipeline.stages, Pipeline.stagesFrom]
        using ⟨hs.prevReadfd, hs.writefd, hg⟩
    · simp [hk]
    · simp
    · simp

theorem calcCallsBody_pipeline {c c' : Command} {cs : List Command} (env : Environment)
    (h : Before Pipeline.lexems lexems l ((op, n, ⟨c, c' :: cs⟩) :: items))
    (hs : Between fds lost l.shell) (hc : ∀ c'' ∈ c :: c' :: cs, c''.Handled) :
    ∃ l', calcCallsBody env lexems l = some l' ∧ Before Pipeline.lexems lexems l' items ∧
      Round env fds lost (selects op l.shell.prevExitStatus.success) n ⟨c, c' :: cs⟩ l l' := by
  obtain ⟨rfl, hop, ps, rfl, hd⟩ := h
  obtain ⟨hc₁, hc⟩ := List.forall_mem_cons.mp hc
  have hlex : (Pipeline.mk c (c' :: cs)).lexems = c.lexems ++ Pipeline.restLexems (c' :: cs) := rfl
  rw [hlex, List.append_assoc] at hd
  rw [hlex, List.length_append, ← add_assoc]
  obtain ⟨call, k, hn, hl, hk⟩ := new_loaded env hd (ends_restLexems ends_joined) hc₁ rfl hs.holds
  have hd' := drop_add_length hd
  have ht : typeAt lexems (l.idx + c.lexems.length) = some .pipe := by
    rw [restLexems_cons] at hd'
    exact typeAt_of_drop hd'
  obtain ⟨s', children, hs', hch, hw, hg, hr, hwr, he⟩ := calcPipeline_stages h₀ h₁
    { l.shell with readfd := l.shell.prevReadfd, kernel := k } call l.prevOp l.status ends_joined
    head?_joined_ne hd' rfl hc hl
  simp only [calcCallsBody, hn, Option.bind_eq_bind, Option.bind_some, ht, ↓reduceIte, hs']
  refine ⟨_, rfl, before_advance (drop_add_length hd') rfl, ?_, ⟨children, ?_, ?_⟩, ?_, ?_⟩
  · have hb : Between fds _ s' := ⟨hr, hwr.trans hs.writefd, hg⟩
    simpa [pipelineLost, Pipeline.stages] using hb
  · simp [hch, hk]
  · rw [hop, Shell.passes_opType] at hw
    rw [started]
    cases hb : selects op l.shell.prevExitStatus.success <;> simpa [hb, Pipeline.stages] using hw
  · simpa [Line.pipelineStatus, Pipeline.stages] using he
  · simp

theorem calcCallsBody_spec (env : Environment)
    (h : Before Pipeline.lexems lexems l ((op, n, p) :: items)) (hs : Between fds lost l.shell)
    (hc : ∀ c ∈ p.first :: p.rest, c.Handled) :
    ∃ l', calcCallsBody env lexems l = some l' ∧ Before Pipeline.lexems lexems l' items ∧
      Round env fds lost (selects op l.shell.prevExitStatus.success) n p l l' := by
  obtain ⟨c, cs⟩ := p
  cases cs with
  | nil        => exact calcCallsBody_single h₀ h₁ env h hs (hc c List.mem_cons_self)
  | cons c' cs => exact calcCallsBody_pipeline h₀ h₁ env h hs hc

end Standard

def lineLost (env : Environment) (s : ExitStat) (items : List (Option Op × ℕ × Pipeline)) : ℕ :=
  ((Line.reached env s items).map fun (b, n, p) => pipelineLost env b n p).sum

-- The loop of `calcCalls_` in front of the pipelines `items` of a line. What it has done and what
-- is left make up the whole line.
structure Midway (env : Environment) (s : Shell) (line : Line) (l : CallsLocals)
    (items : List (Option Op × ℕ × Pipeline)) : Prop where
  before  : Before Pipeline.lexems line.lexems l items
  shell   : ∃ lost, Between s.kernel.fds lost l.shell ∧
              lost + lineLost env l.shell.prevExitStatus items = lineLost env {} line.items
  started : ∃ stages children, l.shell.kernel.children = s.kernel.children ++ children ∧
              List.Forall₂ (Wired env) stages children ∧
              stages ++ Line.launched env l.shell.prevExitStatus items =
                Line.launched env {} line.items
  status  : l.status.isSome ∨ items = line.items
  handled : ∀ item ∈ items, ∀ c ∈ item.2.2.first :: item.2.2.rest, c.Handled

structure Idle (s : Shell) : Prop where
  prevReadfd : s.prevReadfd = 0
  writefd    : s.writefd = 1
  standard   : ∀ fd, fd = 0 ∨ fd = 1 ∨ fd = 2 → (s.kernel.fds.find? fd).isSome
  nonneg     : ∀ fd < 0, s.kernel.fds.find? fd = none

def initialShell : Shell where
  kernel := { fds := ⟨[(0, .inherited 0), (1, .inherited 1), (2, .inherited 2)], by decide⟩ }

theorem idle_initialShell : Idle initialShell where
  prevReadfd := rfl
  writefd    := rfl
  standard   := by rintro fd (rfl | rfl | rfl) <;> rfl
  nonneg     := by
    intro fd hfd
    rw [SortedMap.find?_eq_none]
    simp only [initialShell, List.forall_mem_cons]
    exact ⟨by omega, by omega, by omega, by simp⟩

variable {line : Line}

theorem midway_initial (env : Environment) (hs : Idle s)
    (hc : ∀ item ∈ line.items, ∀ c ∈ item.2.2.first :: item.2.2.rest, c.Handled) :
    Midway env s line { shell := { s with prevExitStatus := ⟨0⟩ } } line.items where
  before  := ⟨rfl, rfl, line.rest, by simp, by simp [Line.lexems]⟩
  shell   := ⟨0, ⟨hs.prevReadfd, hs.writefd, fun _ _ => id, hs.nonneg, rfl⟩, Nat.zero_add _⟩
  started := ⟨[], [], by simp, .nil, rfl⟩
  status  := .inr rfl
  handled := hc

theorem Midway.round {item : Option Op × ℕ × Pipeline} (hs : Idle s)
    (h : Midway env s line l (item :: items)) :
    ∃ l', calcCallsBody env line.lexems l = some l' ∧ Midway env s line l' items := by
  obtain ⟨op, n, p⟩ := item
  obtain ⟨hp, hc⟩ := List.forall_mem_cons.mp h.handled
  obtain ⟨lost, hb, hlost⟩ := h.shell
  obtain ⟨stages, children, hch, hw, hst⟩ := h.started
  obtain ⟨l', hl, hbe, hr⟩ := calcCallsBody_spec (hs.standard 0 (.inl rfl))
    (hs.standard 1 (.inr (.inl rfl))) env h.before hb hp
  obtain ⟨children', hch', hw'⟩ := hr.children
  refine ⟨l', hl, hbe, ⟨_, hr.between, ?_⟩,
    ⟨_, children ++ children', ?_, List.rel_append hw hw', ?_⟩, .inl (hr.status ?_), hc⟩
  · rw [← hlost, hr.exit, add_assoc]
    rfl
  · rw [hch', hch, List.append_assoc]
  · rw [← hst, hr.exit, List.append_assoc]
    rfl
  · refine h.status.imp_right fun hi => ?_
    obtain rfl : op = none := congrArg Prod.fst (List.cons.inj hi).1
    rfl

theorem lexems_ne_nil (p : Pipeline) : p.lexems ≠ [] := by
  simp [Pipeline.lexems, Command.lexems, Command.argv]

theorem midway_rounds (env : Environment) (hs : Idle s)
    (hc : ∀ item ∈ line.items, ∀ c ∈ item.2.2.first :: item.2.2.rest, c.Handled) (n : ℕ) :
    ∃ l, s.calcCallsLoop env line.lexems n = some l ∧
      Midway env s line l (line.items.drop n) := by
  refine whileLoop.rounds (Midway env s line) (fun h => ?_) (fun {_ item _} h => ⟨?_, h.round hs⟩)
    (midway_initial env hs hc) n
  · simpa [Before] using h.before
  · simpa using idx_lt_of_before h.before (lexems_ne_nil item.2.2)

theorem length_items (line : Line) : line.items.length ≤ line.lexems.length := by
  have := length_places (f := Pipeline.lexems) line.first.lexems.length line.rest
  have := List.length_pos_iff.mpr (lexems_ne_nil line.first)
  simp only [Line.items, Line.lexems, List.length_cons, List.length_append]
  omega

theorem Between.idle {s' : Shell} (h : Between s.kernel.fds lost s') (hs : Idle s) : Idle s' where
  prevReadfd := h.prevReadfd
  writefd    := h.writefd
  nonneg     := h.grown.nonneg
  standard   := by
    intro fd hfd
    obtain ⟨f, hf⟩ := Option.isSome_iff_exists.mp (hs.standard fd hfd)
    rw [h.grown.keeps fd f hf]
    rfl

theorem calcCalls_spec (env : Environment) (hs : Idle s)
    (hc : ∀ item ∈ line.items, ∀ c ∈ item.2.2.first :: item.2.2.rest, c.Handled) :
    ∃ s' r children, s.calcCalls env line.lexems = some (s', r) ∧ Idle s' ∧
      s'.kernel.children = s.kernel.children ++ children ∧
      List.Forall₂ (Wired env) (Line.launched env {} line.items) children ∧
      Grown s.kernel.fds (lineLost env {} line.items) s'.kernel.fds := by
  obtain ⟨l, hl, hm⟩ := midway_rounds env hs hc line.lexems.length
  rw [List.drop_eq_nil_of_le (length_items line)] at hm
  obtain ⟨lost, hb, hlost⟩ := hm.shell
  obtain ⟨stages, children, hch, hw, hst⟩ := hm.started
  obtain ⟨status, hstatus⟩ := Option.isSome_iff_exists.mp
    (hm.status.resolve_right (by simp [Line.items]))
  have hne : line.lexems ≠ [] := by
    intro he
    have := length_items line
    simp [he, Line.items] at this
  refine ⟨l.shell, wExitStatus status, children, ?_, hb.idle hs, hch, ?_, ?_⟩
  · simp only [Shell.calcCalls, List.isEmpty_iff, hne, ↓reduceIte, hl, hstatus,
      Option.bind_eq_bind, Option.bind_some, Option.pure_def]
  · rw [← hst, Line.launched, Line.reached, List.flatMap_nil, List.append_nil]
    exact hw
  · rw [← hlost]
    exact hb.grown

end Redirected
