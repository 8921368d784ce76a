import Technosphere.Chat.Theorems.Broadcast
import Technosphere.Chat.Theorems.Bookkeeping

namespace Chat

def completeLines (bytes : List UInt8) : List UInt8 :=
  bytes.rdropWhile (· ≠ newline)

def openLine (bytes : List UInt8) : List UInt8 :=
  bytes.rtakeWhile (· ≠ newline)

section Lines

variable {xs ys : List UInt8}

theorem not_mem_openLine : newline ∉ openLine xs :=
  fun h => by simpa using List.mem_rtakeWhile_imp h

theorem completeLines_append (h : newline ∉ ys) : completeLines (xs ++ ys) = completeLines xs := by
  induction ys using List.reverseRecOn with
  | nil => simp
  | append_singleton ys y ih =>
    simp only [List.mem_append, List.mem_singleton, not_or] at h
    rw [← List.append_assoc, completeLines,
      List.rdropWhile_concat_pos _ _ _ (by simp [Ne.symm h.2])]
    exact ih h.1

theorem openLine_append (h : newline ∉ ys) : openLine (xs ++ ys) = openLine xs ++ ys := by
  induction ys using List.reverseRecOn with
  | nil => simp
  | append_singleton ys y ih =>
    simp only [List.mem_append, List.mem_singleton, not_or] at h
    rw [← List.append_assoc, openLine, List.rtakeWhile_concat_pos _ _ _ (by simp [Ne.symm h.2])]
    rw [← openLine, ih h.1, List.append_assoc]

theorem completeLines_of_getLast? (h : xs.getLast? = some newline) : completeLines xs = xs := by
  rw [completeLines, List.rdropWhile_eq_self_iff]
  intro hl
  rw [List.getLast?_eq_getLast_of_ne_nil hl] at h
  simpa using h

theorem openLine_of_getLast? (h : xs.getLast? = some newline) : openLine xs = [] := by
  rw [openLine, List.rtakeWhile_eq_nil_iff]
  intro hl
  rw [List.getLast?_eq_getLast_of_ne_nil hl] at h
  simpa using h

end Lines

structure Prompt (w : World) (socket : ℤ) : Prop where
  broadcast : messagesOf w.journal.entries socket = completeLines (w.received socket)
  kept      : w.message socket = openLine (w.received socket)

open Chat.World

variable {accepts : ℕ → ℕ → ℕ} {w w' w'' : World} {listenSocket socket k : ℤ}
  {bytes : List UInt8} {e : Event}

theorem acceptConnection_received :
    (w.acceptConnection accepts socket).received = w.received := by
  simp only [acceptConnection, World.send, setMessage]
  split_ifs <;> rfl

theorem acceptConnection_entries :
    (w.acceptConnection accepts socket).journal.entries = w.journal.entries := by
  rw [acceptConnection_journal]
  split_ifs <;> rfl

structure Silent (k : ℤ) (w w' : World) : Prop where
  broadcast : messagesOf w'.journal.entries k = messagesOf w.journal.entries k
  message   : w'.message k = w.message k
  received  : w'.received k = w.received k

namespace Silent

theorem trans (h₁ : Silent k w w') (h₂ : Silent k w' w'') : Silent k w w'' where
  broadcast := h₂.broadcast.trans h₁.broadcast
  message   := h₂.message.trans h₁.message
  received  := h₂.received.trans h₁.received

theorem terminateConnection (hk : k ≠ socket) : Silent k w (w.terminateConnection socket) where
  broadcast := rfl
  message   := by simp [World.message, World.terminateConnection, hk]
  received  := rfl

theorem append (hk : k ≠ socket) : Silent k w (w.append socket bytes) where
  broadcast := rfl
  message   := by simp [World.append, setMessage, World.message, hk]
  received  := by simp [World.append, setMessage, hk]

theorem sendMessage (hk : k ≠ socket) : Silent k w (w.sendMessage accepts socket) where
  broadcast := by simp [messagesOf_concat, hk]
  message   := by simp [World.message, hk]
  received  := by simp

theorem acceptConnection (hk : k ≠ socket) : Silent k w (w.acceptConnection accepts socket) where
  broadcast := by rw [acceptConnection_entries]
  message   := by simp [World.message, hk]
  received  := congrFun acceptConnection_received k

theorem exec (hk : k ≠ e.socket) : Silent k w (e.exec accepts w) := by
  cases e with
  | accept _ => exact acceptConnection hk
  | hangUp _ => exact terminateConnection hk
  | recv socket result =>
    cases (Event.recv_cases : Event.RecvCases accepts w socket (.recv socket result)) with
    | closed eq _      => exact eq ▸ terminateConnection hk
    | append _ eq _    => exact eq ▸ append hk
    | message _ _ eq _ => exact eq ▸ (append hk).trans (sendMessage hk)

end Silent

theorem Prompt.silent (h : Prompt w k) (hs : Silent k w w') : Prompt w' k where
  broadcast := by rw [hs.broadcast, hs.received, h.broadcast]
  kept      := by rw [hs.message, hs.received, h.kept]

theorem Prompt.buffer (h : Prompt w k) :
    messagesOf w.journal.entries k ++ w.message k = w.received k := by
  rw [h.broadcast, h.kept]
  exact List.rdropWhile_append_rtakeWhile

def Unused (w : World) (k : ℤ) : Prop :=
  w.journal.joined k = none → w.received k = [] ∧ messagesOf w.journal.entries k = []

theorem joined_exec (h : (e.exec accepts w).journal.joined k = none) :
    w.journal.joined k = none := by
  cases e with
  | accept socket =>
    rw [Event.exec, acceptConnection_journal] at h
    split_ifs at h
    · exact h
    · simp only [Journal.join] at h
      split_ifs at h
      · rw [Function.update_apply] at h
        split_ifs at h
        exact h
      · exact h
  | hangUp socket => exact h
  | recv socket result =>
    cases (Event.recv_cases : Event.RecvCases accepts w socket (.recv socket result)) with
    | closed eq _ | append _ eq _ => rwa [eq] at h
    | message _ _ eq _            => rwa [eq, sendMessage_journal, Journal.post_joined] at h

theorem Unused.exec (h : Unused w k) (ht : Tracks w) (hv : e.Valid w) :
    Unused (e.exec accepts w) k := by
  intro hj
  have hu := h (joined_exec hj)
  by_cases hk : k = e.socket
  case pos =>
    cases e with
    | accept socket =>
      rwa [Event.exec, acceptConnection_received, acceptConnection_entries]
    | hangUp socket => exact hu
    | recv socket _ =>
      obtain rfl : k = socket := hk
      exact absurd (ht.member hv.1 hv.2).1 (by simp [joined_exec hj])
  case neg =>
    have hs : Silent k w (e.exec accepts w) := .exec hk
    rwa [hs.received, hs.broadcast]

def EndsWithLine (socket : ℤ) (e : Event) : Prop :=
  ∀ bytes, e = .recv socket (some bytes) → newline ∈ bytes → bytes.getLast? = some newline

theorem append_message : (w.append socket bytes).message socket = w.message socket ++ bytes := by
  simp [World.append, setMessage, message]

theorem append_received : (w.append socket bytes).received socket = w.received socket ++ bytes := by
  simp [World.append]

theorem Prompt.append (h : Prompt w socket) (hn : newline ∉ bytes) :
    Prompt (w.append socket bytes) socket where
  broadcast := by
    rw [append_received, completeLines_append hn]
    exact h.broadcast
  kept      := by rw [append_received, append_message, openLine_append hn, h.kept]

theorem Prompt.sendMessage (hb : messagesOf w.journal.entries socket ++ w.message socket =
    w.received socket) (hl : (w.message socket).getLast? = some newline) :
    Prompt (w.sendMessage accepts socket) socket := by
  have hr : (w.received socket).getLast? = some newline := by
    rw [← hb, List.getLast?_append, hl]
    rfl
  constructor
  case broadcast =>
    rw [sendMessage_received, completeLines_of_getLast? hr, sendMessage_journal,
      Journal.post_entries, messagesOf_concat, if_pos rfl, hb]
  case kept      =>
    rw [sendMessage_received, openLine_of_getLast? hr]
    simp [message]

structure Follows (w : World) (k : ℤ) : Prop where
  tracks : Tracks w
  unused : Unused w k
  prompt : w.journal.Member k → Prompt w k

namespace Follows

theorem initial : Follows (.init listenSocket) k where
  tracks := .initial
  unused := by simp [Unused, World.init, messagesOf, Journal.empty]
  prompt := by simp [World.init, Journal.empty, Journal.Member]

theorem member_of_exec (hv : e.Valid w) (hm : (e.exec accepts w).journal.Member k)
    (hk : k ≠ e.socket) : w.journal.Member k := by
  cases e with
  | accept socket =>
    rw [Event.exec, acceptConnection_journal] at hm
    rcases hv with hs | ⟨hs, _, hj⟩
    · rwa [if_pos (hs ▸ neg_one_lt_zero)] at hm
    · rw [if_neg hs.not_gt, Journal.member_join hj] at hm
      exact hm.resolve_left hk
  | hangUp socket => exact (Journal.member_leave.mp hm).2
  | recv socket result =>
    cases (Event.recv_cases : Event.RecvCases accepts w socket (.recv socket result)) with
    | closed eq _      =>
      rw [eq] at hm
      exact (Journal.member_leave.mp hm).2
    | append _ eq _    => rwa [eq] at hm
    | message _ _ eq _ => rwa [eq, sendMessage_journal, Journal.member_post] at hm

theorem accept (h : Follows w socket) (hj : w.journal.joined socket = none) :
    Prompt (w.acceptConnection accepts socket) socket := by
  obtain ⟨hr, hb⟩ := h.unused hj
  constructor
  case broadcast =>
    rw [acceptConnection_entries, acceptConnection_received, hr, hb]
    rfl
  case kept      =>
    rw [acceptConnection_received, hr]
    simp [message, openLine]

theorem recv {result : Option (List UInt8)} (hp : Prompt w socket)
    (hc : EndsWithLine socket (.recv socket result))
    (hm : ((Event.recv socket result).exec accepts w).journal.Member socket) :
    Prompt ((Event.recv socket result).exec accepts w) socket := by
  cases (Event.recv_cases : Event.RecvCases accepts w socket (.recv socket result)) with
  | closed eq _                           =>
    rw [eq] at hm
    exact absurd rfl (Journal.member_leave.mp hm).1
  | append bytes eq _ received incomplete =>
    rw [eq]
    refine hp.append fun hn => incomplete ?_
    rw [append_message, List.getLast?_append, hc bytes received hn]
    rfl
  | message bytes complete eq _           =>
    rw [eq]
    refine Prompt.sendMessage ?_ complete
    rw [append_message, append_received, ← hp.buffer]
    exact (List.append_assoc ..).symm

theorem exec (h : Follows w k) (hv : e.Valid w) (hc : EndsWithLine k e) :
    Follows (e.exec accepts w) k := by
  refine ⟨h.tracks.exec hv, h.unused.exec h.tracks hv, fun hm => ?_⟩
  by_cases hk : k = e.socket
  case pos =>
    subst hk
    cases e with
    | accept socket =>
      have hn : 0 ≤ socket := (h.tracks.exec hv).nonneg socket hm
      exact h.accept (hv.resolve_left (fun hs => by simp [hs] at hn)).2.2
    | hangUp socket   => exact absurd rfl (Journal.member_leave.mp hm).1
    | recv socket _   => exact recv (h.prompt (h.tracks.member hv.1 hv.2)) hc hm
  case neg => exact (h.prompt (member_of_exec hv hm hk)).silent (.exec hk)

-- A line that ends inside a chunk is kept with the beginning of the next one.
theorem endsWithLine (h : Follows w k) (hv : e.Valid w)
    (hp : (e.exec accepts w).journal.Member k → Prompt (e.exec accepts w) k) :
    EndsWithLine k e := by
  rintro bytes rfl hn
  have hm := h.tracks.member hv.1 hv.2
  by_contra hne
  have hb : bytes ≠ [] := List.ne_nil_of_mem hn
  have hl : ((w.append k bytes).message k).getLast? ≠ some newline := by
    rwa [append_message, List.getLast?_append_of_ne_nil _ hb]
  have he : (Event.recv k (some bytes)).exec accepts w = w.append k bytes := by
    obtain ⟨b, bs, rfl⟩ := List.exists_cons_of_ne_nil hb
    simp [Event.exec, World.recvMessage, hl]
  rw [he] at hp
  have hk := (hp hm).kept
  rw [append_message] at hk
  exact not_mem_openLine (hk ▸ List.mem_append_right _ hn)

end Follows

theorem run_prompt_iff (r : Run (Step accepts) (.init listenSocket) w) (k : ℤ) :
    (∀ w' ∈ r.states, w'.journal.Member k → Prompt w' k) ↔
      ∀ e ∈ r.events, EndsWithLine k e := by
  rw [← r.forall_mem_steps]
  apply r.states_iff_steps (P := fun w => Follows w k) (C := fun _ e => EndsWithLine k e)
  · exact .initial
  · exact Follows.prompt
  · rintro w e _ h hc ⟨hv, rfl⟩
    exact h.exec hv hc
  · rintro w e _ h hp ⟨hv, rfl⟩
    exact h.endsWithLine hv hp

-- A chunk ends inside its second line, so that its first one is kept as well.
theorem not_prompt : ¬∀ (accepts : ℕ → ℕ → ℕ) (listenSocket : ℤ) (w : World)
    (r : Run (Step accepts) (.init listenSocket) w) (k : ℤ),
      ∀ w' ∈ r.states, w'.journal.Member k → Prompt w' k := by
  intro h
  let accepts : ℕ → ℕ → ℕ := fun _ n => n
  let w₁ := (Event.accept 5).exec accepts (.init 3)
  let w₂ := (Event.recv 5 (some [104, 105, newline, 121])).exec accepts w₁
  have h₁ : Step accepts (.init 3) (.accept 5) w₁ := ⟨.inr (by decide), rfl⟩
  have h₂ : Step accepts w₁ (.recv 5 (some [104, 105, newline, 121])) w₂ :=
    ⟨⟨by decide, by decide⟩, rfl⟩
  let r : Run (Step accepts) (.init 3) w₂ := .snoc (.snoc .refl _ h₁) _ h₂
  have hp := (h accepts 3 w₂ r 5 w₂ r.last_mem_states ⟨by decide, by decide⟩).kept
  have hn : w₂.message 5 ≠ openLine (w₂.received 5) := by decide
  exact hn hp

end Chat
