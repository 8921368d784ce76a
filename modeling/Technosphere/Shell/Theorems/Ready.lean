import Technosphere.Shell.Theorems.ShortCircuit

def Standard (fd : ℤ) : Prop :=
  fd = 0 ∨ fd = 1 ∨ fd = 2

structure Call.Spares (call : Call) : Prop where
  readfd  : call.readfd ≠ 0 → ¬Standard call.readfd
  writefd : call.writefd ≠ 1 → ¬Standard call.writefd

-- What all system calls of the shell keep, from the kernel `k₀` on.
structure Kernel.Kept (k₀ k : Kernel) : Prop where
  standard : ∀ fd, Standard fd → (k.fds.find? fd).isSome
  pipes    : ∀ fd m e, k.fds.find? fd = some (.pipe m e) → m < k.pipes
  children : k₀.children <+: k.children

variable {env : Environment} {lexems : List Lexem} {k₀ k : Kernel} {call : Call} {fd : ℤ}
  {f : File} {n : ℕ}

namespace Kernel.Kept

theorem close (h : Kept k₀ k) (hf : ¬Standard fd) : Kept k₀ (k.close fd) where
  standard fd' hs := by
    have hne : fd' ≠ fd := fun he => hf (he ▸ hs)
    simpa [Kernel.close, hne] using h.standard fd' hs
  pipes fd' m e hp := by
    simp only [Kernel.close, Descriptors.find?_close] at hp
    split_ifs at hp
    exact h.pipes fd' m e hp
  children := h.children

theorem not_standard (h : Kept k₀ k) : ¬Standard k.fds.lowestFree := by
  intro hs
  have := h.standard _ hs
  simp [Descriptors.find?_lowestFree] at this

theorem add (h : Kept k₀ k) (hn : k.pipes ≤ n) (hf : ∀ m e, f = .pipe m e → m < n)
    (opened : List (String × OpenMode)) :
    Kept k₀ { k with fds := (k.fds.add f).2, pipes := n, opened } where
  standard fd hs := by
    obtain ⟨g, hg⟩ := Option.isSome_iff_exists.mp (h.standard fd hs)
    rw [Descriptors.find?_add_of_some hg]
    rfl
  pipes fd m e hp := by
    rw [Descriptors.find?_add] at hp
    split_ifs at hp
    · exact hf m e (Option.some.inj hp)
    · exact (h.pipes fd m e hp).trans_le hn
  children := h.children

theorem openFile (h : Kept k₀ k) {pos : ℕ} {path : String} {mode : OpenMode} :
    Kept k₀ (k.openFile env pos path mode).2 ∧ ¬Standard (k.openFile env pos path mode).1 := by
  simp only [Kernel.openFile]
  split_ifs
  · exact ⟨h.add le_rfl (by simp) _, h.not_standard⟩
  · exact ⟨h, by simp [Standard]⟩

theorem pipe (h : Kept k₀ k) :
    Kept k₀ k.pipe.2 ∧ ¬Standard k.pipe.1.1 ∧ ¬Standard k.pipe.1.2 := by
  have hr : Kept k₀ { k with fds := (k.fds.add (.pipe k.pipes .read)).2, pipes := k.pipes + 1 } :=
    h.add (Nat.le_succ _) (by simp) _
  exact ⟨hr.add le_rfl (by simp) _, h.not_standard, hr.not_standard⟩

theorem fork (h : Kept k₀ k) : Kept k₀ (k.fork call).2 :=
  ⟨h.standard, h.pipes, h.children.trans (List.prefix_append ..)⟩

theorem closeFd (h : Kept k₀ k) (hc : call.Spares) : Kept k₀ (call.closeFd k) := by
  simp only [Call.closeFd]
  split_ifs with hw hr hr
  · exact (h.close (hc.readfd hr)).close (hc.writefd hw)
  · exact h.close (hc.writefd hw)
  · exact h.close (hc.readfd hr)
  · exact h

end Kernel.Kept

namespace Call

theorem redirect_keeps {default : ℤ} {r : ℕ × ℤ × Kernel} (h : k₀.Kept k)
    (hf : fd ≠ default → ¬Standard fd) (hr : redirect env lexems type mode idx fd k = some r) :
    k₀.Kept r.2.2 ∧ (r.2.1 ≠ default → ¬Standard r.2.1) := by
  simp only [redirect] at hr
  split_ifs at hr
  · obtain ⟨file, _, hr⟩ := Option.bind_eq_some_iff.mp hr
    obtain rfl := Option.some.inj hr
    exact ⟨h.openFile.1, fun _ => h.openFile.2⟩
  · obtain rfl := Option.some.inj hr
    exact ⟨h, hf⟩

theorem new_keeps {readfd writefd : ℤ} {r : Call × ℕ × Kernel} (h : k₀.Kept k)
    (hr : readfd ≠ 0 → ¬Standard readfd) (hw : writefd ≠ 1 → ¬Standard writefd)
    (hn : new env lexems idx readfd writefd k = some r) : k₀.Kept r.2.2 ∧ r.1.Spares := by
  simp only [new, redirects, Option.bind_eq_bind, Option.bind_eq_some_iff, Option.pure_def,
    Option.some.injEq] at hn
  obtain ⟨_, _, _, ⟨r₁, h₁, r₂, h₂, r₃, h₃, rfl⟩, rfl⟩ := hn
  obtain ⟨h, hr⟩ := redirect_keeps h hr h₁
  obtain ⟨h, hw⟩ := redirect_keeps h hw h₂
  obtain ⟨h, hr⟩ := redirect_keeps h hr h₃
  exact ⟨h, hr, hw⟩

end Call

namespace Shell

variable {s : Shell} {l l' : CallsLocals} {prevOp : Option LexemType} {status : Option ℕ}

structure PipelineLocals.Kept (k₀ : Kernel) (l : PipelineLocals) : Prop where
  writefd : l.shell.writefd = 1
  call    : l.call.Spares
  kernel  : k₀.Kept l.shell.kernel

theorem PipelineLocals.Kept.body {l l' : PipelineLocals} (h : l.Kept k₀)
    (hb : pipelineBody env lexems prevOp l = some l') : l'.Kept k₀ := by
  obtain ⟨hk, hr, hw⟩ := h.kernel.pipe
  have hl : k₀.Kept (l.launch prevOp) := by
    refine Kernel.Kept.closeFd ?_ ⟨h.call.readfd, fun _ => hw⟩
    split_ifs
    · exact hk
    · exact hk.fork
  obtain ⟨r, pipePids, hn, rfl⟩ := new_of_pipelineBody hb
  obtain ⟨hk, hc⟩ := Call.new_keeps hl (fun _ => hr) (by simp) hn
  exact ⟨h.writefd, hc, hk⟩

-- What the shell has in front of each round of the loop of `calcCalls_`, whatever the lexems.
structure Settled (k₀ : Kernel) (s : Shell) : Prop where
  prevReadfd : s.prevReadfd = 0
  writefd    : s.writefd = 1
  kernel     : k₀.Kept s.kernel

theorem Settled.calcCommand (h : s.Settled k₀) (hc : call.Spares) :
    (s.calcCommand env call).1.Settled k₀ :=
  ⟨h.prevReadfd, h.writefd, h.kernel.fork.closeFd hc⟩

theorem Settled.calcSingle (h : s.Settled k₀) (hc : call.Spares) :
    (s.calcSingle env call status prevOp).1.Settled k₀ := by
  have h' : (s.calcCommand env call).1.Settled k₀ := h.calcCommand hc
  unfold Shell.calcSingle
  split
  · exact h'
  · unfold calcAnd
    split_ifs
    · exact h'
    · exact h
  · unfold calcOr
    split_ifs
    · exact h'
    · exact h
  · exact h

theorem Settled.calcPipeline {r : Shell × Option ℕ × ℕ} (h : s.Settled k₀) (hc : call.Spares)
    (hr : s.calcPipeline env call status lexems idx prevOp = some r) : r.1.Settled k₀ := by
  simp only [Shell.calcPipeline, Option.bind_eq_bind, Option.bind_eq_some_iff, Option.pure_def,
    Option.some.injEq] at hr
  obtain ⟨l, hl, rfl⟩ := hr
  have hk : l.Kept k₀ := whileLoop.invariant (fun h _ hb => h.body hb)
    ⟨h.writefd, hc, h.kernel⟩ hl
  exact ⟨rfl, hk.writefd, hk.kernel.fork.closeFd hk.call⟩

theorem Settled.body (h : l.shell.Settled k₀) (hb : calcCallsBody env lexems l = some l') :
    l'.shell.Settled k₀ := by
  simp only [calcCallsBody, Option.bind_eq_bind, Option.bind_eq_some_iff] at hb
  obtain ⟨r, hn, hb⟩ := hb
  obtain ⟨hk, hc⟩ := Call.new_keeps h.kernel (by simp [h.prevReadfd]) (by simp [h.writefd]) hn
  have hs : Settled k₀ { l.shell with readfd := l.shell.prevReadfd, kernel := r.2.2 } :=
    ⟨h.prevReadfd, h.writefd, hk⟩
  split_ifs at hb
  · obtain ⟨r', hr', hb⟩ := Option.bind_eq_some_iff.mp hb
    obtain rfl := Option.some.inj hb
    rw [advance_shell]
    exact hs.calcPipeline hc hr'
  · obtain rfl := Option.some.inj hb
    rw [advance_shell]
    exact hs.calcSingle hc

-- The shell between two lines. Pipes that are made from now on get new numbers.
structure Ready (s : Shell) : Prop where
  prevReadfd : s.prevReadfd = 0
  writefd    : s.writefd = 1
  standard   : ∀ fd, Standard fd → (s.kernel.fds.find? fd).isSome
  pipes      : ∀ fd m e, s.kernel.fds.find? fd = some (.pipe m e) → m < s.kernel.pipes

theorem Ready.settled (h : s.Ready) : s.Settled s.kernel :=
  ⟨h.prevReadfd, h.writefd, h.standard, h.pipes, List.prefix_refl _⟩

theorem Settled.ready (h : s.Settled k₀) : s.Ready :=
  ⟨h.prevReadfd, h.writefd, h.kernel.standard, h.kernel.pipes⟩

theorem Ready.calcCalls {r : Shell × ℕ} (h : s.Ready) (hr : s.calcCalls env lexems = some r) :
    r.1.Ready := by
  unfold Shell.calcCalls at hr
  split_ifs at hr
  · obtain rfl := Option.some.inj hr
    exact h
  · obtain ⟨l, hl, hr⟩ := Option.bind_eq_some_iff.mp hr
    obtain ⟨status, _, hr⟩ := Option.bind_eq_some_iff.mp hr
    obtain rfl := Option.some.inj hr
    have hk : l.shell.Settled s.kernel := whileLoop.invariant (P := (·.shell.Settled s.kernel))
      (fun h _ hb => h.body hb) ⟨h.prevReadfd, h.writefd, h.settled.kernel⟩ hl
    exact hk.ready

end Shell
