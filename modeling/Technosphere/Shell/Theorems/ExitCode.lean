import Technosphere.Shell.Theorems.Launches

open Line (endLexems)

inductive WaitStatus
  | exited (code : Fin 256)
  | signaled (sig : Fin 126) (core : Bool)
deriving DecidableEq, Repr

namespace WaitStatus

def toNat : WaitStatus → ℕ
  | exited code       => 256 * code
  | signaled sig core => sig + 1 + if core then 128 else 0

def isExited : WaitStatus → Bool
  | exited _     => true
  | signaled _ _ => false

variable (ws : WaitStatus)

theorem wIfExited_toNat : wIfExited ws.toNat = ws.isExited := by
  cases ws with
  | exited code       => simp [wIfExited, toNat, isExited, Nat.mul_mod]
  | signaled sig core => cases core <;> simp [wIfExited, toNat, isExited] <;> omega

theorem wExitStatus_toNat (h : ws.isExited = false) : wExitStatus ws.toNat = 0 := by
  cases ws with
  | exited code       => simp [isExited] at h
  | signaled sig core => cases core <;> simp [wExitStatus, toNat] <;> omega

-- `WEXITSTATUS` alone cannot tell a death by a signal from a success.
theorem success_toNat : (ExitStat.mk ws.toNat).success =
    (ws.isExited && wExitStatus ws.toNat = 0) := by
  rw [ExitStat.success, wIfExited_toNat]

theorem success_iff : (wExitStatus ws.toNat = 0 ↔ (ExitStat.mk ws.toNat).success = true) ↔
    ws.isExited = true := by
  rw [success_toNat]
  cases h : ws.isExited with
  | true  => simp
  | false => simp [wExitStatus_toNat ws h]

end WaitStatus

namespace Shell

def Kept (l : CallsLocals) : Prop :=
  ∀ status, l.status = some status → l.shell.prevExitStatus = ⟨status⟩

variable {env : Environment} {lexems : List Lexem} {l l' : CallsLocals} {s : Shell} {call : Call}
  {prevOp : Option LexemType} {status : Option ℕ}

theorem Kept.advance (h : Kept l) : Kept (l.advance lexems) := by
  intro status hs
  rw [advance_status] at hs
  rw [advance_shell]
  exact h status hs

theorem calcSingle_kept (h : ∀ st, status = some st → s.prevExitStatus = ⟨st⟩) :
    ∀ st, (s.calcSingle env call status prevOp).2 = some st →
      (s.calcSingle env call status prevOp).1.prevExitStatus = ⟨st⟩ := by
  have hc : ∀ st, (s.calcCommand env call).2 = some st →
      (s.calcCommand env call).1.prevExitStatus = ⟨st⟩ := by
    intro st hst
    rw [calcCommand_eq] at hst ⊢
    rw [← Option.some.inj hst]
  cases prevOp with
  | none      => exact hc
  | some type =>
    cases type with
    | and =>
      simp only [calcSingle, calcAnd]
      split_ifs
      · exact hc
      · exact h
    | or  =>
      simp only [calcSingle, calcOr]
      split_ifs
      · exact hc
      · exact h
    | _   => exact h

theorem Kept.round (h : Kept l) (hb : calcCallsBody env lexems l = some l') : Kept l' := by
  obtain ⟨r, hr, hb⟩ := Option.bind_eq_some_iff.mp hb
  simp only at hb
  split_ifs at hb
  · obtain ⟨x, hx, hb⟩ := Option.bind_eq_some_iff.mp hb
    obtain rfl := Option.some.inj hb
    refine Kept.advance fun st hst => ?_
    obtain ⟨l₁, hl₁, hx⟩ := Option.bind_eq_some_iff.mp hx
    obtain rfl := Option.some.inj hx
    simp only at hst ⊢
    rw [hst, Option.getD_some]
  · obtain rfl := Option.some.inj hb
    exact Kept.advance (calcSingle_kept h)

end Shell

namespace Redirected

def AgreesWithSuccess (env : Environment) (s : Shell) (line : Line) (background : Bool) : Prop :=
  ∃ s' r, s.calcCalls env (line.lexems ++ endLexems background) = some (s', r) ∧
    (r = 0 ↔ s'.prevExitStatus.success = true)

theorem kept_of_rounds {env : Environment} {lexems : List Lexem} {l l' : Shell.CallsLocals}
    (hr : Rounds env lexems l l') (h : Shell.Kept l) : Shell.Kept l' := by
  induction hr with
  | refl         => exact h
  | tail _ hs hi => exact hi.round hs.2

theorem calcCalls_last (env : Environment) (s : Shell) (line : Line) (background : Bool) :
    ∃ s' last, s.calcCalls env (line.lexems ++ endLexems background) =
        some (s', wExitStatus (env.status last.pos)) ∧
      (Line.launched env {} line.items).getLast? = some last ∧
      s'.prevExitStatus = ⟨env.status last.pos⟩ := by
  obtain ⟨l, status, hs, hstatus, hr, _, h⟩ := calcCalls_launches env s line background
  have hl := List.getLast?_eq_getLast_of_ne_nil (@launched_items_ne_nil env line)
  have he := h.exit
  rw [List.getLast?_map, hl, Option.map_some, Option.elim_some] at he
  have hk := kept_of_rounds hr (by simp [Shell.Kept]) status hstatus
  have hst : status = env.status _ := ExitStat.mk.inj (hk.symm.trans he)
  exact ⟨l.shell, _, hst ▸ hs, hl, he⟩

theorem agreesWithSuccess_iff (opens : ℕ → Bool) (ws : ℕ → WaitStatus) (s : Shell) (line : Line)
    (background : Bool) :
    let env : Environment := ⟨opens, fun pos => (ws pos).toNat⟩
    AgreesWithSuccess env s line background ↔
      ∀ last ∈ (Line.launched env {} line.items).getLast?, (ws last.pos).isExited = true := by
  intro env
  obtain ⟨s', last, hs, hl, he⟩ := calcCalls_last env s line background
  have hlast : (∀ last ∈ (Line.launched env {} line.items).getLast?,
      (ws last.pos).isExited = true) ↔ (ws last.pos).isExited = true := by
    simp [hl]
  rw [hlast, ← (ws last.pos).success_iff, AgreesWithSuccess]
  constructor
  · rintro ⟨s₁, r, h, hr⟩
    obtain ⟨rfl, rfl⟩ := Prod.mk.inj (Option.some.inj (h.symm.trans hs))
    rwa [he] at hr
  · intro hr
    exact ⟨s', _, hs, by rwa [he]⟩

theorem not_agreesWithSuccess_of_signal :
    let ws   : ℕ → WaitStatus := fun _ => .signaled 8 false
    let env  : Environment    := ⟨fun _ => true, fun pos => (ws pos).toNat⟩
    let line : Line           := ⟨⟨⟨"a", [], []⟩, []⟩, []⟩
    (initialShell.calcCalls env (line.lexems ++ endLexems true)).map
        (fun (s', r) => (s'.prevExitStatus.success, r)) = some (false, 0) ∧
      ¬AgreesWithSuccess env initialShell line true := by
  intro ws env line
  have hc : (initialShell.calcCalls env (line.lexems ++ endLexems true)).map
      (fun (s', r) => (s'.prevExitStatus.success, r)) = some (false, 0) := by decide
  refine ⟨hc, ?_⟩
  rintro ⟨s', r, h, hr⟩
  rw [h] at hc
  obtain ⟨hf, rfl⟩ := Prod.mk.inj (Option.some.inj hc)
  exact Bool.false_ne_true (hf.symm.trans (hr.mp rfl))

end Redirected
