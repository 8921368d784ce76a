import Technosphere.Chat.Theorems.Send

namespace Chat

def messagesOf (entries : List (ℤ × List UInt8)) (socket : ℤ) : List UInt8 :=
  (entries.filter (·.1 = socket)).flatMap (·.2)

theorem messagesOf_concat {entries : List (ℤ × List UInt8)} : messagesOf (entries ++ [m]) k =
    if k = m.1 then messagesOf entries k ++ m.2 else messagesOf entries k := by
  by_cases h : k = m.1
  case pos => simp [messagesOf, h]
  case neg => simp [messagesOf, h, Ne.symm h]

structure Invariant (w : World) : Prop where
  bufSize  : 0 < w.server.maxBufSize
  clients  : ∀ k, k ∈ w.server.clients.keys ↔ w.journal.Member k
  epoll    : ∀ k, (w.epoll.find? k).isSome → k = w.server.listenSocket ∨ w.journal.Member k
  nonneg   : ∀ k, w.journal.Member k → 0 ≤ k
  buffer   : ∀ k, w.journal.Member k → ∃ buf, w.server.messageBuf.find? k = some buf ∧
              messagesOf w.journal.entries k ++ buf = w.received k
  within   : ∀ k, messagesOf w.journal.entries k <+: w.received k
  messages : ∀ m ∈ w.journal.entries, m.2.getLast? = some newline
  sent     : ∀ k, (w.journal.joined k).isSome →
              w.sent k = welcome ++ (w.journal.seen k).flatMap (·.2)
  fresh    : ∀ k, w.journal.joined k = none →
              w.received k = [] ∧ messagesOf w.journal.entries k = [] ∧ w.sent k = []

namespace Invariant

open Chat.World

variable {accepts : ℕ → ℕ → ℕ} {w w' : World} {socket k : ℤ} {bytes : List UInt8} {e : Event}

theorem initial (listenSocket : ℤ) : Invariant (.init listenSocket) where
  bufSize  := by simp [World.init, Server.init]
  clients  := by simp [World.init, Server.init, SortedMap.keys, Journal.empty, Journal.Member]
  epoll    := by
    intro k hk
    simp only [World.init, SortedMap.find?_insert, SortedMap.find?_empty] at hk
    split_ifs at hk with h
    · exact .inl h.1
    · simp at hk
  nonneg   := by simp [World.init, Journal.empty, Journal.Member]
  buffer   := by simp [World.init, Journal.empty, Journal.Member]
  within   := by simp [World.init, messagesOf, Journal.empty]
  messages := by simp [World.init, Journal.empty]
  sent     := by simp [World.init, Journal.empty]
  fresh    := by simp [World.init, messagesOf, Journal.empty]

theorem terminateConnection (h : Invariant w) : Invariant (w.terminateConnection socket) where
  bufSize  := h.bufSize
  clients  := by
    intro k
    rw [World.terminateConnection, SortedMap.mem_keys_erase, Journal.member_leave, h.clients k]
  epoll    := by
    intro k hk
    simp only [World.terminateConnection, SortedMap.find?_erase, Journal.member_leave] at hk ⊢
    split_ifs at hk with hs
    · simp at hk
    · exact (h.epoll k hk).imp_right (⟨hs, ·⟩)
  nonneg   := fun k hk => h.nonneg k (Journal.member_leave.mp hk).2
  buffer   := by
    intro k hk
    have ⟨hne, hk⟩ := Journal.member_leave.mp hk
    simpa [World.terminateConnection, hne, messagesOf] using h.buffer k hk
  within   := h.within
  messages := h.messages
  sent     := by
    intro k hk
    simpa [World.terminateConnection, Journal.seen_leave] using h.sent k hk
  fresh    := h.fresh

theorem member (h : Invariant w) (hs : socket ≠ w.server.listenSocket)
    (he : (w.epoll.find? socket).isSome) : w.journal.Member socket :=
  (h.epoll socket he).resolve_left hs

theorem clients_nonneg (h : Invariant w) : ∀ k ∈ w.server.clients.keys, 0 ≤ k :=
  fun k hk => h.nonneg k ((h.clients k).mp hk)

theorem message_eq (h : w.server.messageBuf.find? socket = some bytes) :
    w.message socket = bytes := by
  simp [message, h]

theorem append (h : Invariant w) (hm : w.journal.Member socket) :
    Invariant (w.append socket bytes) where
  bufSize  := h.bufSize
  clients  := h.clients
  epoll    := h.epoll
  nonneg   := h.nonneg
  buffer   := by
    intro k hk
    have ⟨buf, hb, hr⟩ := h.buffer k hk
    by_cases hs : k = socket
    case pos =>
      subst hs
      refine ⟨buf ++ bytes, ?_, ?_⟩
      · simp [World.append, setMessage, message_eq hb]
      · simp only [World.append, Function.update_self, ← hr]
        exact (List.append_assoc ..).symm
    case neg =>
      exact ⟨buf, by simpa [World.append, setMessage, hs], by simpa [World.append, hs, setMessage]⟩
  within   := by
    intro k
    by_cases hs : k = socket
    case pos =>
      subst hs
      simpa [World.append, setMessage] using (h.within k).trans (List.prefix_append ..)
    case neg => simpa [World.append, setMessage, hs] using h.within k
  messages := h.messages
  sent     := h.sent
  fresh    := by
    intro k hk
    have hs : k ≠ socket := by
      rintro rfl
      exact absurd hm.1 (by simpa [World.append, setMessage] using hk)
    simpa [World.append, setMessage, hs] using h.fresh k hk

theorem sendMessage (ha : ∀ k n, accepts k n = n) (h : Invariant w)
    (hm : w.journal.Member socket) (hl : (w.message socket).getLast? = some newline) :
    Invariant (w.sendMessage accepts socket) where
  bufSize  := by simpa using h.bufSize
  clients  := by simpa [Journal.member_post] using h.clients
  epoll    := by simpa [Journal.member_post] using h.epoll
  nonneg   := by simpa [Journal.member_post] using h.nonneg
  buffer   := by
    intro k hk
    rw [sendMessage_journal, Journal.member_post] at hk
    have ⟨buf, hb, hr⟩ := h.buffer k hk
    simp only [sendMessage_server, sendMessage_received, sendMessage_journal,
      Journal.post_entries, messagesOf_concat, SortedMap.find?_set]
    by_cases hs : k = socket
    case pos =>
      subst hs
      exact ⟨[], by simp, by simpa [message_eq hb]⟩
    case neg => exact ⟨buf, by simpa [hs], by simpa [hs]⟩
  within   := by
    intro k
    simp only [sendMessage_received, sendMessage_journal, Journal.post_entries, messagesOf_concat]
    split_ifs with hs
    · subst hs
      have ⟨buf, hb, hr⟩ := h.buffer k hm
      rw [message_eq hb, hr]
    · exact h.within k
  messages := by
    intro m hm
    simp only [sendMessage_journal, Journal.post_entries, List.mem_append,
      List.mem_singleton] at hm
    rcases hm with hm | rfl
    · exact h.messages m hm
    · exact hl
  sent     := by
    intro k hk
    rw [sendMessage_journal, Journal.post_joined] at hk
    rw [sendMessage_sent ha h.clients_nonneg h.bufSize, sendMessage_journal, h.sent k hk]
    split_ifs with hc
    · rw [Journal.seen_post_of_member ((h.clients k).mp hc)]
      simp
    · rw [Journal.seen_post_of_not_member (mt (h.clients k).mpr hc)]
  fresh    := by
    intro k hk
    rw [sendMessage_journal, Journal.post_joined] at hk
    have hs : k ≠ socket := by
      rintro rfl
      exact absurd hm.1 (by simp [hk])
    have hc : k ∉ w.server.clients.keys :=
      fun hc => absurd ((h.clients k).mp hc).1 (by simp [hk])
    simpa [sendMessage_sent ha h.clients_nonneg h.bufSize, messagesOf_concat, hs, hc]
      using h.fresh k hk

theorem acceptConnection (ha : ∀ k n, accepts k n = n) (h : Invariant w) (hs : 0 ≤ socket)
    (hj : w.journal.joined socket = none) : Invariant (w.acceptConnection accepts socket) := by
  have ⟨hr, hm, hw⟩ := h.fresh socket hj
  rw [acceptConnection_eq ha hs]
  constructor
  case bufSize  => exact h.bufSize
  case clients  =>
    intro k
    rw [SortedMap.mem_keys_insert, Journal.member_join hj, h.clients k]
  case epoll    =>
    intro k hk
    rw [SortedMap.find?_insert] at hk
    rw [Journal.member_join hj]
    by_cases hks : k = socket
    case pos => exact .inr (.inl hks)
    case neg => exact (h.epoll k (by simpa [hks] using hk)).imp_right .inr
  case nonneg   =>
    intro k hk
    rcases (Journal.member_join hj).mp hk with rfl | hk
    · exact hs
    · exact h.nonneg k hk
  case buffer   =>
    intro k hk
    by_cases hks : k = socket
    case pos =>
      subst hks
      exact ⟨[], by simp, by simp [hm, hr]⟩
    case neg =>
      have hk := ((Journal.member_join hj).mp hk).resolve_left hks
      simpa [hks] using h.buffer k hk
  case within   => exact h.within
  case messages => exact h.messages
  case sent     =>
    intro k hk
    rw [Journal.seen_join hj]
    by_cases hks : k = socket
    case pos => simp [hks, hw, Journal.seen, hj]
    case neg =>
      rw [Journal.join_joined hj, Function.update_of_ne hks] at hk
      simpa [hks] using h.sent k hk
  case fresh    =>
    intro k hk
    rw [Journal.join_joined hj, Function.update_apply] at hk
    split_ifs at hk with hks
    simpa [hks] using h.fresh k hk

theorem recv (ha : ∀ k n, accepts k n = n) (h : Invariant w) (hm : w.journal.Member socket)
    (result : Option (List UInt8)) : Invariant ((Event.recv socket result).exec accepts w) := by
  cases (Event.recv_cases : Event.RecvCases accepts w socket (.recv socket result)) with
  | closed eq _       => exact eq ▸ h.terminateConnection
  | append _ eq _     => exact eq ▸ h.append hm
  | message _ hl eq _ => exact eq ▸ (h.append hm).sendMessage ha hm hl

theorem step (ha : ∀ k n, accepts k n = n) (h : Invariant w) (hf : e ≠ .accept (-1))
    (hs : Step accepts w e w') : Invariant w' := by
  obtain ⟨hv, rfl⟩ := hs
  cases e with
  | accept socket =>
    have ⟨hs, _, hj⟩ := hv.resolve_left (by simpa using hf)
    exact h.acceptConnection ha hs hj
  | recv socket result => exact h.recv ha (h.member hv.1 hv.2) result
  | hangUp socket      => exact h.terminateConnection

theorem run (ha : ∀ k n, accepts k n = n) {listenSocket : ℤ}
    (r : Run (Step accepts) (.init listenSocket) w) (hf : ∀ e ∈ r.events, e ≠ .accept (-1)) :
    Invariant w :=
  r.states_of_steps (C := fun _ e => e ≠ .accept (-1)) (initial listenSocket) (step ha)
    (fun _ hp => hf _ (r.mem_events_of_mem_steps hp)) w r.last_mem_states

end Invariant

-- The members of the journal are the connections, and what they have seen are the messages between
-- their `accept` and their termination.
structure BroadcastSafety (w : World) : Prop where
  member   : ∀ socket, socket ∈ w.server.clients.keys ↔ w.journal.Member socket
  sender   : ∀ socket, w.journal.Member socket → ∃ buf,
              w.server.messageBuf.find? socket = some buf ∧
              messagesOf w.journal.entries socket ++ buf = w.received socket
  message  : ∀ m ∈ w.journal.entries, m.2 ≠ [] ∧ m.2.getLast? = some newline
  single   : ∀ socket, messagesOf w.journal.entries socket <+: w.received socket
  receiver : ∀ socket, (w.journal.joined socket).isSome →
              w.sent socket = welcome ++ (w.journal.seen socket).flatMap (·.2)
  agree    : ∀ socket₁ socket₂, (w.journal.joined socket₁).isSome →
              w.journal.joined socket₁ = w.journal.joined socket₂ →
              w.journal.left socket₁ = w.journal.left socket₂ → w.sent socket₁ = w.sent socket₂

theorem run_broadcastSafety {accepts : ℕ → ℕ → ℕ} (ha : ∀ k n, accepts k n = n)
    {listenSocket : ℤ} {w : World} (r : Run (Step accepts) (.init listenSocket) w)
    (hf : ∀ e ∈ r.events, e ≠ .accept (-1)) : BroadcastSafety w := by
  have h := Invariant.run ha r hf
  constructor
  case member   => exact h.clients
  case sender   => exact h.buffer
  case message  =>
    intro m hm
    have hl := h.messages m hm
    refine ⟨?_, hl⟩
    rintro hn
    simp [hn] at hl
  case single   => exact h.within
  case receiver => exact h.sent
  case agree    =>
    intro socket₁ socket₂ hs hj hl
    rw [h.sent _ hs, h.sent _ (hj ▸ hs), Journal.seen, Journal.seen, hj, hl]

theorem run_broadcastSafety_of_two :
    let accepts : ℕ → ℕ → ℕ := fun _ n => n
    let w₁ := (Event.accept 5).exec accepts (.init 3)
    let w₂ := (Event.accept 6).exec accepts w₁
    let w₃ := (Event.recv 5 (some [104, 105, newline])).exec accepts w₂
    BroadcastSafety w₃ := by
  intro accepts w₁ w₂ w₃
  have h₁ : Step accepts (.init 3) (.accept 5) w₁ := ⟨.inr (by decide), rfl⟩
  have h₂ : Step accepts w₁ (.accept 6) w₂ := ⟨.inr (by decide), rfl⟩
  have h₃ : Step accepts w₂ (.recv 5 (some [104, 105, newline])) w₃ :=
    ⟨⟨by decide, by decide⟩, rfl⟩
  exact run_broadcastSafety (fun _ _ => rfl) (.snoc (.snoc (.snoc .refl _ h₁) _ h₂) _ h₃)
    (by simp [Run.events])

end Chat
