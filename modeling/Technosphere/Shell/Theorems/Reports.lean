import Technosphere.Shell.Theorems.Jobs

def Phase.Left (keys : List ℕ) : Phase → Prop
  | waiting statuses pids => statuses.map (·.1) ++ pids = keys
  | done                  => keys = []
  | _                     => True

namespace Session

structure Invariant (s : Session) : Prop where
  alone  : Job.Successive s.jobs
  table  : ∀ pid, pid ∈ s.subprocesses.keys ↔
            (∃ j ∈ s.jobs, j.Alive pid) ∨ pid ∈ s.phase.waited
  waited : ∀ pid ∈ s.phase.waited, ¬∃ j ∈ s.jobs, j.Alive pid
  left   : s.phase.Left s.subprocesses.keys
  log    : ∀ pid, (s.cerr ++ s.phase.pending).filter (·.pid = pid) = messagesAbout pid s.jobs
  ended  : ∀ j ∈ s.jobs, j.reaped = true → j.status.isSome
  ends   : ∀ j ∈ s.jobs, ∀ status, j.status = some status → j.Ends status

inductive Advances (s : Session) : Session → Prop
  | round (hp : s.phase = .calling env lexems l) (hl : l.idx < lexems.length)
      (hb : Shell.calcCallsBody env lexems l = some l') :
      Advances s { s with phase := .watching env lexems l' s.subprocesses.keys [] }
  | finish (hp : s.phase = .calling env lexems l) (hl : lexems.length ≤ l.idx) :
      Advances s { s with phase := .reading l.shell }
  | watch (hp : s.phase = .watching env lexems l (pid :: pids) erased)
      (hc : s.child pid = some j) (hs : j.status = some status) :
      Advances s { s.reap pid with
        cerr  := s.cerr ++ [.ended (pid, status.toNat)]
        phase := .watching env lexems l pids (erased ++ [pid]) }
  | passBy (hp : s.phase = .watching env lexems l (pid :: pids) erased) :
      Advances s { s with phase := .watching env lexems l pids erased }
  | erase (hp : s.phase = .watching env lexems l [] erased) :
      Advances s { s with
        subprocesses := erased.foldl (·.erase) s.subprocesses
        phase        := .calling env lexems l }
  | wait (hp : s.phase = .waiting statuses (pid :: pids)) (hc : s.child pid = some j)
      (hs : j.status = some status) :
      Advances s { s.reap pid with phase := .waiting (statuses ++ [(pid, status.toNat)]) pids }
  | waitNone (hp : s.phase = .waiting statuses (pid :: pids)) (hc : s.child pid = none) :
      Advances s { s with phase := .waiting (statuses ++ [(pid, 0)]) pids }
  | report (hp : s.phase = .waiting statuses []) :
      Advances s { s with
        subprocesses := ∅
        cerr         := s.cerr ++ statuses.map .ended
        phase        := .done }

variable {s s' : Session} {shell : Shell} {phase : Phase} {pid i : ℕ} {j job : Job}
  {status : WaitStatus} {cerr : List Message} {input : String} {env : Environment} {e : Event}
  {lexems : List Lexem} {l : Shell.CallsLocals} {erased pids : List ℕ} {statuses : List (ℕ × ℕ)}

theorem alive_of_child (h : s.child pid = some j) : j ∈ s.jobs ∧ j.Alive pid = true := by
  have ha := List.find?_some h
  exact ⟨List.mem_of_find?_eq_some h, ha⟩

theorem child_eq_none : s.child pid = none ↔ ¬∃ j ∈ s.jobs, j.Alive pid := by
  simp [child]

theorem advances (h : s.advance = some s') : Advances s s' := by
  unfold advance at h
  split at h
  case h_1 => simp at h
  case h_2 => simp at h
  case h_3 hp =>
    split_ifs at h with hl
    · obtain ⟨l', hb, h⟩ := Option.bind_eq_some_iff.mp h
      obtain rfl := Option.some.inj h
      exact .round hp hl hb
    · obtain rfl := Option.some.inj h
      exact .finish hp (not_lt.mp hl)
  case h_4 hp =>
    split at h
    case h_1 hb =>
      obtain ⟨j, hc, hs⟩ := Option.bind_eq_some_iff.mp hb
      obtain rfl := Option.some.inj h
      exact .watch hp hc hs
    case h_2 =>
      obtain rfl := Option.some.inj h
      exact .passBy hp
  case h_5 hp =>
    obtain rfl := Option.some.inj h
    exact .erase hp
  case h_6 hp =>
    split at h
    case h_1 hc =>
      obtain ⟨status, hs, h⟩ := Option.bind_eq_some_iff.mp h
      obtain rfl := Option.some.inj h
      exact .wait hp hc hs
    case h_2 hc =>
      obtain rfl := Option.some.inj h
      exact .waitNone hp hc
  case h_7 hp =>
    obtain rfl := Option.some.inj h
    exact .report hp

namespace Invariant

theorem initial (shell : Shell) : Invariant (init shell) where
  alone  := .nil
  table  := by simp [init, Phase.waited, SortedMap.keys]
  waited := by simp [init]
  left   := trivial
  log    := by simp [init, Phase.pending, messagesAbout]
  ended  := by simp [init]
  ends   := by simp [init]

theorem goTo (h : Invariant s) (hw : phase.waited = s.phase.waited)
    (hp : phase.pending = s.phase.pending) (hl : phase.Left s.subprocesses.keys) :
    Invariant { s with phase } where
  alone  := h.alone
  table  := by
    rw [hw]
    exact h.table
  waited := by
    rw [hw]
    exact h.waited
  left   := hl
  log    := by
    rw [hp]
    exact h.log
  ended  := h.ended
  ends   := h.ends

theorem addSubprocess (h : Invariant s) (hr : s.phase = .reading shell)
    (hf : ∀ j ∈ s.jobs, !j.Alive job.pid) (hj : job.reaped = false) (hs : job.status = none) :
    Invariant (s.addSubprocess job) where
  alone  := h.alone.concat (by simpa using hf)
  table  := by
    intro pid
    have ht := h.table pid
    rw [hr] at ht
    simp only [Phase.waited, List.not_mem_nil, or_false] at ht
    simp only [Session.addSubprocess, SortedMap.mem_keys_insert, hr, Phase.waited,
      List.not_mem_nil, or_false, ht, List.mem_append, List.mem_singleton]
    constructor
    · rintro (rfl | ⟨j, hm, ha⟩)
      · exact ⟨job, .inr rfl, Job.alive_iff.mpr ⟨rfl, hj⟩⟩
      · exact ⟨j, .inl hm, ha⟩
    · rintro ⟨j, hm | rfl, ha⟩
      · exact .inr ⟨j, hm, ha⟩
      · exact .inl (Job.alive_iff.mp ha).1.symm
  waited := by simp [Session.addSubprocess, hr, Phase.waited]
  left   := by
    rw [Session.addSubprocess, hr]
    trivial
  log    := by
    intro pid
    have hl := h.log pid
    rw [hr] at hl
    simp only [Phase.pending, List.append_nil] at hl
    simp only [Session.addSubprocess, hr, Phase.pending, List.append_nil, List.filter_append, hl,
      Job.messagesAbout_concat]
    by_cases hp : job.pid = pid
    case pos => simp [hp, Message.pid, Job.messages, hj]
    case neg => simp [hp, Message.pid]
  ended  := by
    simp only [Session.addSubprocess, List.mem_append, List.mem_singleton]
    rintro j (hm | rfl) hr
    · exact h.ended j hm hr
    · simp [hj] at hr
  ends   := by
    simp only [Session.addSubprocess, List.mem_append, List.mem_singleton]
    rintro j (hm | rfl) status hst
    · exact h.ends j hm status hst
    · simp [hs] at hst

theorem reap (h : Invariant s) (hc : s.child pid = some j) (hs : j.status = some status)
    (hw : phase.waited = s.phase.waited ++ [pid])
    (hp : cerr ++ phase.pending = s.cerr ++ s.phase.pending ++ [.ended (pid, status.toNat)])
    (hl : phase.Left s.subprocesses.keys) : Invariant { s.reap pid with cerr, phase } := by
  obtain ⟨hj, hja⟩ := alive_of_child hc
  have ha : ∀ p, (∃ k ∈ s.jobs.map (·.reap pid), k.Alive p) ↔
      (∃ k ∈ s.jobs, k.Alive p) ∧ p ≠ pid := by
    intro p
    simp only [List.mem_map, exists_exists_and_eq_and, Job.alive_reap]
    exact ⟨fun ⟨k, hk, ha, hn⟩ => ⟨⟨k, hk, ha⟩, hn⟩, fun ⟨⟨k, hk, ha⟩, hn⟩ => ⟨k, hk, ha, hn⟩⟩
  constructor
  case alone  => exact h.alone.reap
  case table  =>
    intro p
    rw [hw, List.mem_append, List.mem_singleton, Session.reap, ha, h.table]
    by_cases hpp : p = pid
    case pos =>
      have he : ∃ k ∈ s.jobs, k.Alive pid = true := ⟨j, hj, hja⟩
      simp [hpp, he]
    case neg => simp [hpp]
  case waited =>
    intro p hm
    rw [hw, List.mem_append, List.mem_singleton] at hm
    rw [Session.reap, ha]
    rintro ⟨hk, hn⟩
    exact h.waited p (hm.resolve_right hn) hk
  case left   => exact hl
  case log    =>
    intro p
    rw [hp, List.filter_append, h.log, Session.reap, h.alone.messagesAbout_reap hc hs]
    by_cases hpp : p = pid
    case pos => simp [hpp, Message.ended, Message.pid]
    case neg => simp [hpp, Ne.symm hpp, Message.ended, Message.pid]
  case ended  =>
    intro k hk hr
    obtain ⟨k, hm, rfl⟩ := List.mem_map.mp hk
    cases ha : k.Alive pid with
    | true  =>
      obtain rfl := h.alone.eq_of_alive hm hj ha hja
      exact Option.isSome_iff_exists.mpr ⟨status, hs⟩
    | false =>
      rw [Job.reap_of_not_alive ha] at hr ⊢
      exact h.ended k hm hr
  case ends   =>
    intro k hk status hst
    obtain ⟨k, hm, rfl⟩ := List.mem_map.mp hk
    exact (h.ends k hm status hst).of_launch rfl

theorem jobEnds (h : Invariant s) (hi : s.jobs[i]? = some j) (hn : j.status = none)
    (he : j.Ends status) :
    Invariant { s with jobs := s.jobs.set i { j with status := some status } } := by
  have hj := List.mem_of_getElem? hi
  have hr : j.reaped = false := by
    cases hr : j.reaped with
    | true  => simpa [hn] using h.ended j hj hr
    | false => rfl
  have hv := @Job.map_view_set j s.jobs i status hi hr
  constructor
  case alone  => exact h.alone.of_view hv
  case table  =>
    intro p
    rw [Job.exists_alive_of_view hv]
    exact h.table p
  case waited =>
    intro p hp
    rw [Job.exists_alive_of_view hv]
    exact h.waited p hp
  case left   => exact h.left
  case log    =>
    intro p
    rw [Job.messagesAbout_of_view hv]
    exact h.log p
  case ended  =>
    intro k hk hkr
    rcases List.mem_or_eq_of_mem_set hk with hk | rfl
    · exact h.ended k hk hkr
    · rfl
  case ends   =>
    intro k hk st hst
    rcases List.mem_or_eq_of_mem_set hk with hk | rfl
    · exact h.ends k hk st hst
    · obtain rfl := Option.some.inj hst
      exact he.of_launch rfl

-- In `terminalWatchSubprocesses_`, the processes that are left are children.
theorem child_of_waiting (h : Invariant s) (hp : s.phase = .waiting statuses (pid :: pids)) :
    ∃ j, s.child pid = some j := by
  have hl := h.left
  rw [hp] at hl
  simp only [Phase.Left] at hl
  have hn := s.subprocesses.keys_nodup
  have hk : pid ∈ s.subprocesses.keys := by simp [← hl]
  have hw : pid ∉ s.phase.waited := by
    rw [← hl] at hn
    rw [hp]
    exact fun hm => List.disjoint_of_nodup_append hn hm (List.mem_cons_self ..)
  have ha := ((h.table pid).mp hk).resolve_right hw
  exact Option.ne_none_iff_exists'.mp (mt child_eq_none.mp (not_not.mpr ha))

theorem erase (h : Invariant s) (hp : s.phase = .watching env lexems l [] erased) :
    Invariant { s with
      subprocesses := erased.foldl (·.erase) s.subprocesses
      phase        := .calling env lexems l } where
  alone  := h.alone
  table  := by
    intro p
    have ht := h.table p
    have hw := h.waited p
    rw [hp] at ht hw
    rw [SortedMap.mem_keys_foldl_erase, ht]
    simp only [Phase.waited, List.not_mem_nil, or_false] at hw ⊢
    constructor
    · rintro ⟨hn, ha | he⟩
      · exact ha
      · exact absurd he hn
    · exact fun ha => ⟨fun he => hw he ha, .inl ha⟩
  waited := by simp [Phase.waited]
  left   := trivial
  log    := by simpa [hp, Phase.pending] using h.log
  ended  := h.ended
  ends   := h.ends

theorem report (h : Invariant s) (hp : s.phase = .waiting statuses []) :
    Invariant { s with
      subprocesses := ∅
      cerr         := s.cerr ++ statuses.map .ended
      phase        := .done } where
  alone  := h.alone
  table  := by
    intro p
    have ht := h.table p
    have hw := h.waited p
    have hl := h.left
    rw [hp] at ht hw hl
    rw [← show _ = s.subprocesses.keys from hl, List.append_nil] at ht
    simp only [SortedMap.keys, Phase.waited, List.not_mem_nil, or_false] at hw ht ⊢
    exact iff_of_false List.not_mem_nil fun ha => hw (ht.mpr (.inl ha)) ha
  waited := by simp [Phase.waited]
  left   := rfl
  log    := by simpa [hp, Phase.pending] using h.log
  ended  := h.ended
  ends   := h.ends

theorem advance (h : Invariant s) (ha : s.advance = some s') : Invariant s' := by
  cases advances ha with
  | round hp _ _
  | finish hp _
  | passBy hp        =>
    exact h.goTo (by simp [hp, Phase.waited]) (by simp [hp, Phase.pending]) trivial
  | watch hp hc hs   =>
    exact h.reap hc hs (by simp [hp, Phase.waited]) (by simp [hp, Phase.pending]) trivial
  | erase hp         => exact h.erase hp
  | wait hp hc hs    =>
    have hl := h.left
    rw [hp] at hl
    exact h.reap hc hs (by simp [hp, Phase.waited]) (by simp [hp, Phase.pending, Session.reap])
      (by simpa [Phase.Left] using hl)
  | waitNone hp hc   =>
    obtain ⟨j, hj⟩ := h.child_of_waiting hp
    simp [hc] at hj
  | report hp        => exact h.report hp

theorem readLine (h : Invariant s) (hr : s.phase = .reading shell)
    (hf : ∀ j ∈ s.jobs, !j.Alive pid) : Invariant (s.readLine shell input env pid) := by
  rw [Session.readLine]
  split_ifs
  · exact h.addSubprocess hr hf rfl rfl
  · exact h
  · exact h.goTo (by simp [hr, Phase.waited]) (by simp [hr, Phase.pending]) trivial

theorem step (h : Invariant s) (hs : Step s e s') : Invariant s' := by
  cases hs with
  | line hr hf     => exact h.readLine hr hf
  | eof hr         => exact h.goTo (by simp [hr, Phase.waited]) (by simp [hr, Phase.pending]) rfl
  | advance ha     => exact h.advance ha
  | ends hi hn he  => exact h.jobEnds hi hn he

theorem run (r : Run Step (init shell) s) : Invariant s :=
  r.invariant (initial shell) step

end Invariant

end Session
