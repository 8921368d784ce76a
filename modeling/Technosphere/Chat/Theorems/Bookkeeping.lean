import Technosphere.Chat.Theorems.Send

namespace Chat

structure Bookkeeping (w : World) : Prop where
  clients    : ∀ k, k ∈ w.server.clients.keys ↔ w.journal.Member k
  messageBuf : ∀ k, k ∈ w.server.messageBuf.keys ↔ w.journal.Member k

structure Tracks (w : World) : Prop where
  bufSize    : 0 < w.server.maxBufSize
  nonneg     : ∀ k, w.journal.Member k → 0 ≤ k
  clients    : ∀ k, 0 ≤ k → (k ∈ w.server.clients.keys ↔ w.journal.Member k)
  messageBuf : ∀ k, 0 ≤ k → (k ∈ w.server.messageBuf.keys ↔ w.journal.Member k)
  epoll      : ∀ k, k ∈ w.epoll.keys → k = w.server.listenSocket ∨ w.journal.Member k

namespace Tracks

open Chat.World

variable {accepts : ℕ → ℕ → ℕ} {w w' : World} {listenSocket socket k : ℤ} {bytes : List UInt8}
  {e : Event}

theorem initial : Tracks (.init listenSocket) where
  bufSize    := by simp [World.init, Server.init]
  nonneg     := by simp [World.init, Journal.empty, Journal.Member]
  clients    := by simp [World.init, Server.init, SortedMap.keys, Journal.empty, Journal.Member]
  messageBuf := by simp [World.init, Server.init, SortedMap.keys, Journal.empty, Journal.Member]
  epoll      := by
    intro k hk
    rw [World.init, SortedMap.mem_keys_insert] at hk
    exact .inl (hk.resolve_right (by simp [SortedMap.keys]))

theorem member (h : Tracks w) (hs : socket ≠ w.server.listenSocket)
    (he : (w.epoll.find? socket).isSome) : w.journal.Member socket :=
  (h.epoll socket (SortedMap.mem_keys.mpr he)).resolve_left hs

theorem terminateConnection (h : Tracks w) : Tracks (w.terminateConnection socket) where
  bufSize    := h.bufSize
  nonneg     := fun k hk => h.nonneg k (Journal.member_leave.mp hk).2
  clients    := by
    intro k hk
    rw [World.terminateConnection, SortedMap.mem_keys_erase, Journal.member_leave, h.clients k hk]
  messageBuf := by
    intro k hk
    rw [World.terminateConnection, SortedMap.mem_keys_erase, Journal.member_leave,
      h.messageBuf k hk]
  epoll      := by
    intro k hk
    rw [World.terminateConnection, SortedMap.mem_keys_erase] at hk
    exact (h.epoll k hk.2).imp_right fun hm => Journal.member_leave.mpr ⟨hk.1, hm⟩

theorem setMessage (h : Tracks w) (hm : w.journal.Member socket) :
    Tracks (w.setMessage socket bytes) where
  bufSize    := h.bufSize
  nonneg     := h.nonneg
  clients    := h.clients
  messageBuf := by
    intro k hk
    rw [World.setMessage, SortedMap.mem_keys_set, h.messageBuf k hk]
    exact or_iff_right_of_imp fun he => he ▸ hm
  epoll      := h.epoll

theorem append (h : Tracks w) (hm : w.journal.Member socket) : Tracks (w.append socket bytes) :=
  { h.setMessage hm with }

theorem sendMessage (h : Tracks w) (hm : w.journal.Member socket) :
    Tracks (w.sendMessage accepts socket) where
  bufSize    := by simpa using h.bufSize
  nonneg     := by simpa [Journal.member_post] using h.nonneg
  clients    := by simpa [Journal.member_post] using h.clients
  messageBuf := by
    intro k hk
    rw [sendMessage_server, sendMessage_journal, Journal.member_post, SortedMap.mem_keys_set,
      h.messageBuf k hk]
    exact or_iff_right_of_imp fun he => he ▸ hm
  epoll      := by simpa [Journal.member_post] using h.epoll

theorem acceptConnection (h : Tracks w) (hs : 0 ≤ socket) (hj : w.journal.joined socket = none) :
    Tracks (w.acceptConnection accepts socket) where
  bufSize    := by simpa using h.bufSize
  nonneg     := by
    intro k hk
    rw [acceptConnection_journal, if_neg hs.not_gt, Journal.member_join hj] at hk
    exact hk.elim (· ▸ hs) (h.nonneg k)
  clients    := by
    intro k hk
    rw [acceptConnection_server, acceptConnection_journal, if_neg hs.not_gt,
      SortedMap.mem_keys_insert, Journal.member_join hj, h.clients k hk]
  messageBuf := by
    intro k hk
    rw [acceptConnection_server, acceptConnection_journal, if_neg hs.not_gt,
      SortedMap.mem_keys_set, Journal.member_join hj, h.messageBuf k hk]
  epoll      := by
    intro k hk
    rw [acceptConnection_epoll, if_neg hs.not_gt, SortedMap.mem_keys_insert] at hk
    rw [acceptConnection_server, acceptConnection_journal, if_neg hs.not_gt, Journal.member_join hj]
    exact hk.elim (fun he => .inr (.inl he)) fun hk => (h.epoll k hk).imp_right .inr

theorem acceptConnection_failed (h : Tracks w) (hs : socket < 0) :
    Tracks (w.acceptConnection accepts socket) where
  bufSize    := by simpa using h.bufSize
  nonneg     := by simpa [hs] using h.nonneg
  clients    := by
    intro k hk
    rw [acceptConnection_server, acceptConnection_journal, if_pos hs, SortedMap.mem_keys_insert,
      h.clients k hk]
    exact or_iff_right (hs.trans_le hk).ne'
  messageBuf := by
    intro k hk
    rw [acceptConnection_server, acceptConnection_journal, if_pos hs, SortedMap.mem_keys_set,
      h.messageBuf k hk]
    exact or_iff_right (hs.trans_le hk).ne'
  epoll      := by simpa [hs] using h.epoll

theorem recv (h : Tracks w) (hm : w.journal.Member socket) (result : Option (List UInt8)) :
    Tracks ((Event.recv socket result).exec accepts w) := by
  cases (Event.recv_cases : Event.RecvCases accepts w socket (.recv socket result)) with
  | closed eq _      => exact eq ▸ h.terminateConnection
  | append _ eq _    => exact eq ▸ h.append hm
  | message _ _ eq _ => exact eq ▸ (h.append hm).sendMessage hm

theorem exec (h : Tracks w) (hv : e.Valid w) : Tracks (e.exec accepts w) := by
  cases e with
  | accept socket =>
    rcases hv with hs | ⟨hs, _, hj⟩
    · exact h.acceptConnection_failed (hs ▸ neg_one_lt_zero)
    · exact h.acceptConnection hs hj
  | recv socket result => exact h.recv (h.member hv.1 hv.2) result
  | hangUp socket      => exact h.terminateConnection

theorem run (r : Run (Step accepts) (.init listenSocket) w) : Tracks w :=
  r.invariant initial fun h ⟨hv, he⟩ => he ▸ h.exec hv

theorem bookkeeping_iff (h : Tracks w) : Bookkeeping w ↔
    ∀ k < 0, k ∉ w.server.clients.keys ∧ k ∉ w.server.messageBuf.keys where
  mp hb k hk := by
    have hm : ¬w.journal.Member k := fun hm => (h.nonneg k hm).not_gt hk
    exact ⟨mt (hb.clients k).mp hm, mt (hb.messageBuf k).mp hm⟩
  mpr hn := by
    have hm : ∀ k < 0, ¬w.journal.Member k := fun k hk hm => (h.nonneg k hm).not_gt hk
    constructor <;> intro k <;> rcases lt_or_ge k 0 with hk | hk
    · exact iff_of_false (hn k hk).1 (hm k hk)
    · exact h.clients k hk
    · exact iff_of_false (hn k hk).2 (hm k hk)
    · exact h.messageBuf k hk

end Tracks

def Event.socket : Event → ℤ
  | accept socket | recv socket _ | hangUp socket => socket

variable {accepts : ℕ → ℕ → ℕ} {w w' : World} {listenSocket socket k : ℤ} {bytes : List UInt8}
  {e : Event}

structure World.Others (socket : ℤ) (w w' : World) : Prop where
  clients    : ∀ k ≠ socket, (k ∈ w'.server.clients.keys ↔ k ∈ w.server.clients.keys)
  messageBuf : ∀ k ≠ socket, (k ∈ w'.server.messageBuf.keys ↔ k ∈ w.server.messageBuf.keys)

namespace World.Others

theorem terminateConnection : Others socket w (w.terminateConnection socket) where
  clients    := fun k hk => by simp [World.terminateConnection, SortedMap.mem_keys_erase, hk]
  messageBuf := fun k hk => by simp [World.terminateConnection, SortedMap.mem_keys_erase, hk]

theorem append : Others socket w (w.append socket bytes) where
  clients    := fun _ _ => .rfl
  messageBuf := fun k hk => by simp [World.append, setMessage, SortedMap.mem_keys_set, hk]

theorem sendMessage : Others socket w (w.sendMessage accepts socket) where
  clients    := fun k hk => by simp
  messageBuf := fun k hk => by simp [SortedMap.mem_keys_set, hk]

theorem acceptConnection : Others socket w (w.acceptConnection accepts socket) where
  clients    := fun k hk => by simp [SortedMap.mem_keys_insert, hk]
  messageBuf := fun k hk => by simp [SortedMap.mem_keys_set, hk]

theorem trans (h₁ : Others socket w₁ w₂) (h₂ : Others socket w₂ w₃) : Others socket w₁ w₃ where
  clients    := fun k hk => (h₂.clients k hk).trans (h₁.clients k hk)
  messageBuf := fun k hk => (h₂.messageBuf k hk).trans (h₁.messageBuf k hk)

theorem exec : Others e.socket w (e.exec accepts w) := by
  cases e with
  | accept _ => exact acceptConnection
  | hangUp _ => exact terminateConnection
  | recv socket result =>
    cases (Event.recv_cases : Event.RecvCases accepts w socket (.recv socket result)) with
    | closed eq _      => exact eq ▸ terminateConnection
    | append _ eq _    => exact eq ▸ append
    | message _ _ eq _ => exact eq ▸ append.trans sendMessage

end World.Others

namespace Bookkeeping

open Chat.World

theorem initial : Bookkeeping (.init listenSocket) :=
  Tracks.initial.bookkeeping_iff.mpr fun _ _ => by simp [World.init, Server.init, SortedMap.keys]

theorem exec (ht : Tracks w) (h : Bookkeeping w) (hv : e.Valid w) (hf : e ≠ .accept (-1)) :
    Bookkeeping (e.exec accepts w) := by
  have hs : 0 ≤ e.socket := by
    cases e with
    | accept socket => exact (hv.resolve_left (by simpa using hf)).1
    | recv socket _ => exact ht.nonneg _ (ht.member hv.1 hv.2)
    | hangUp socket => exact ht.nonneg _ (ht.member hv.1 hv.2)
  have ho : Others e.socket w (e.exec accepts w) := .exec
  rw [(ht.exec hv).bookkeeping_iff]
  intro k hk
  have hne : k ≠ e.socket := (hk.trans_le hs).ne
  rw [ho.clients k hne, ho.messageBuf k hne]
  exact ht.bookkeeping_iff.mp h k hk

-- A failed call of `accept` leaves an entry for its result, which is not a socket.
theorem not_acceptConnection (ht : Tracks w) (hs : socket < 0) :
    ¬Bookkeeping (w.acceptConnection accepts socket) := by
  intro hb
  have hm : (w.acceptConnection accepts socket).journal.Member socket := by
    rw [← hb.clients, acceptConnection_server, SortedMap.mem_keys_insert]
    exact .inl rfl
  exact ((ht.acceptConnection_failed hs).nonneg socket hm).not_gt hs

end Bookkeeping

theorem run_bookkeeping_iff (r : Run (Step accepts) (.init listenSocket) w) :
    (∀ w' ∈ r.states, Bookkeeping w') ↔ ∀ e ∈ r.events, e ≠ .accept (-1) := by
  rw [← r.forall_mem_steps]
  apply r.states_iff_steps (P := fun w => Tracks w ∧ Bookkeeping w)
    (C := fun _ e => e ≠ .accept (-1))
  · exact ⟨.initial, .initial⟩
  · exact And.right
  · rintro w e _ ⟨ht, hb⟩ hf ⟨hv, rfl⟩
    exact ⟨ht.exec hv, hb.exec ht hv hf⟩
  · rintro w e _ ⟨ht, _⟩ hb ⟨_, rfl⟩ rfl
    exact @Bookkeeping.not_acceptConnection accepts w (-1) ht neg_one_lt_zero hb

-- The listening socket is reported, and the connection is gone when it is accepted.
theorem not_bookkeeping : ¬∀ (accepts : ℕ → ℕ → ℕ) (listenSocket : ℤ) (w : World)
    (r : Run (Step accepts) (.init listenSocket) w), ∀ w' ∈ r.states, Bookkeeping w' := by
  intro h
  let accepts : ℕ → ℕ → ℕ := fun _ n => n
  let w := (Event.accept (-1)).exec accepts (.init 3)
  have hs : Step accepts (.init 3) (.accept (-1)) w := ⟨.inl rfl, rfl⟩
  let r : Run (Step accepts) (.init 3) w := .snoc .refl _ hs
  have hb := (h accepts 3 w r w r.last_mem_states).clients (-1)
  have hk : -1 ∈ w.server.clients.keys := by decide
  have hm : ¬w.journal.Member (-1) := by
    rintro ⟨hj, _⟩
    simp [w, Event.exec, Journal.empty, World.init] at hj
  exact hm (hb.mp hk)

end Chat
