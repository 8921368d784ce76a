import Technosphere.Chat.Network
import Technosphere.Chat.Theorems.Client
import Technosphere.Chat.Theorems.Delivery
import Technosphere.Chat.Theorems.Lines

namespace Chat

def Event.bytes (k : ℤ) : Event → List UInt8
  | recv socket result => if k = socket then result.getD [] else []
  | _                  => []

open Chat.World

variable {accepts : ℕ → ℕ → ℕ} {w : World} {listenSocket socket k : ℤ} {bytes : List UInt8}
  {e : Event} {calls : List (ℤ × List UInt8)}

theorem exec_received : (e.exec accepts w).received k = w.received k ++ e.bytes k := by
  cases e with
  | accept socket      =>
    rw [Event.exec, acceptConnection_received]
    exact (List.append_nil _).symm
  | hangUp socket      => exact (List.append_nil _).symm
  | recv socket result =>
    by_cases hk : k = socket
    case pos =>
      subst hk
      rw [Event.bytes, if_pos rfl]
      rcases result with _ | _ | ⟨b, bytes⟩
      · exact (List.append_nil _).symm
      · exact (List.append_nil _).symm
      · by_cases hl : ((w.append k (b :: bytes)).message k).getLast? = some newline
        case pos => simp [Event.exec, recvMessage, hl, append_received]
        case neg => simp [Event.exec, recvMessage, hl, append_received]
    case neg =>
      rw [Event.bytes, if_neg hk, List.append_nil]
      exact (Silent.exec hk).received

theorem sent_prefix_sendAll : w.sent k <+: (w.sendAll accepts calls).sent k := by
  induction calls generalizing w with
  | nil => exact List.prefix_rfl
  | cons call calls ih =>
    obtain ⟨socket, bytes⟩ := call
    rw [sendAll, List.foldl_cons]
    apply List.IsPrefix.trans _ ih
    by_cases hs : socket < 0
    case pos =>
      rw [send_of_neg hs]
    case neg =>
      rw [send_sent (not_lt.mp hs)]
      split_ifs
      · exact List.prefix_append ..
      · exact List.prefix_rfl

structure Serves (w : World) : Prop where
  watched : ∀ k, w.journal.Member k → k ≠ w.server.listenSocket ∧ (w.epoll.find? k).isSome
  message : ∀ k, (w.message k).getLast? ≠ some newline
  joined  : {k | (w.journal.joined k).isSome}.Finite

namespace Serves

theorem initial : Serves (.init listenSocket) where
  watched := by simp [World.init, Journal.empty, Journal.Member]
  message := by simp [World.init, Server.init, World.message]
  joined  := by simp [World.init, Journal.empty]

theorem terminateConnection (h : Serves w) : Serves (w.terminateConnection socket) where
  watched := by
    intro k hk
    have ⟨hne, hm⟩ := Journal.member_leave.mp hk
    simpa [World.terminateConnection, hne] using h.watched k hm
  message := by
    intro k
    by_cases hk : k = socket
    case pos => simp [World.message, World.terminateConnection, hk]
    case neg =>
      rw [(Silent.terminateConnection hk).message]
      exact h.message k
  joined  := h.joined

theorem append (h : Serves w)
    (hl : ((w.append socket bytes).message socket).getLast? ≠ some newline) :
    Serves (w.append socket bytes) where
  watched := h.watched
  message := by
    intro k
    by_cases hk : k = socket
    case pos => exact hk ▸ hl
    case neg =>
      rw [(Silent.append hk).message]
      exact h.message k
  joined  := h.joined

theorem sendMessage (h : Serves w) :
    Serves ((w.append socket bytes).sendMessage accepts socket) where
  watched := by
    intro k hk
    rw [sendMessage_journal, Journal.member_post] at hk
    rw [sendMessage_epoll, sendMessage_server]
    exact h.watched k hk
  message := by
    intro k
    by_cases hk : k = socket
    case pos => simp [World.message, hk]
    case neg =>
      rw [(Silent.sendMessage hk).message, (Silent.append hk).message]
      exact h.message k
  joined  := by
    rw [sendMessage_journal]
    exact h.joined

theorem acceptConnection (h : Serves w) (hs : 0 ≤ socket) (hl : socket ≠ w.server.listenSocket)
    (hj : w.journal.joined socket = none) : Serves (w.acceptConnection accepts socket) where
  watched := by
    intro k hk
    rw [acceptConnection_journal, if_neg hs.not_gt, Journal.member_join hj] at hk
    rw [acceptConnection_epoll, if_neg hs.not_gt, acceptConnection_server, SortedMap.find?_insert]
    by_cases hks : k = socket
    case pos =>
      subst hks
      refine ⟨hl, ?_⟩
      split_ifs with hn
      · rfl
      · exact Option.isSome_iff_ne_none.mpr (by simpa using hn)
    case neg => simpa [hks] using h.watched k (hk.resolve_left hks)
  message := by
    intro k
    by_cases hk : k = socket
    case pos => simp [World.message, hk]
    case neg =>
      rw [(Silent.acceptConnection hk).message]
      exact h.message k
  joined  := by
    apply (h.joined.insert socket).subset
    intro k hk
    rw [Set.mem_ofPred, acceptConnection_journal, if_neg hs.not_gt, Journal.join_joined hj,
      Function.update_apply] at hk
    split_ifs at hk with hks
    · exact .inl hks
    · exact .inr hk

theorem exec (h : Serves w) (hv : e.Valid w) (hf : e ≠ .accept (-1)) :
    Serves (e.exec accepts w) := by
  cases e with
  | accept socket =>
    have ⟨hs, hl, hj⟩ := hv.resolve_left (by simpa using hf)
    exact h.acceptConnection hs hl hj
  | hangUp socket      => exact h.terminateConnection
  | recv socket result =>
    cases (Event.recv_cases : Event.RecvCases accepts w socket (.recv socket result)) with
    | closed eq _             => exact eq ▸ h.terminateConnection
    | append _ eq _ _ incomplete => exact eq ▸ h.append incomplete
    | message _ _ eq _        => exact eq ▸ h.sendMessage

end Serves

namespace Network

variable {acceptsFrom : ℤ → ℕ → ℕ → ℕ} {n n' : Network} {e : Event} {j : ℤ}

structure Invariant (n : Network) : Prop where
  world  : Chat.Invariant n.world
  serves : Serves n.world
  client : ∀ k, (n.clients k).Invariant
  down   : ∀ k, (n.clients k).received <+: n.world.sent k
  up     : ∀ k, n.world.received k <+: (n.clients k).sent

theorem Event.Valid.world {e : Chat.Event} (hv : (server e).Valid n) : e.Valid n.world := by
  cases e with
  | recv _ result => cases result <;> first | exact hv | exact hv.1
  | _             => exact hv

theorem Event.Valid.received {e : Chat.Event} (hv : (server e).Valid n)
    (hu : n.world.received k <+: (n.clients k).sent) :
    n.world.received k ++ e.bytes k <+: (n.clients k).sent := by
  cases e with
  | recv socket result =>
    by_cases hk : k = socket
    case pos =>
      subst hk
      cases result with
      | none       => simpa [Chat.Event.bytes]
      | some bytes => simpa [Chat.Event.bytes] using hv.2.1
    case neg => simpa [Chat.Event.bytes, hk]
  | _ => simpa [Chat.Event.bytes]

section Client

variable {socket : Option Poll} {stdin : Option (Option (List UInt8))}
  (haf : ∀ k i m, acceptsFrom k i m = m)

include haf in
theorem exec_client_received (hb : 0 < (n.clients k).maxBufSize) :
    (((Event.client k socket stdin).exec accepts acceptsFrom n).clients j).received =
      (n.clients j).received ++ if j = k then Client.polled socket else [] := by
  by_cases hj : j = k
  case pos => simp [Event.exec, hj, Client.connectTo_received (haf k) hb]
  case neg => simp [Event.exec, hj]

include haf in
theorem sent_prefix_exec_client (hb : 0 < (n.clients k).maxBufSize) :
    (n.clients j).sent <+:
      (((Event.client k socket stdin).exec accepts acceptsFrom n).clients j).sent := by
  by_cases hj : j = k
  case pos => simpa [Event.exec, hj] using Client.sent_prefix_connectTo (haf k) hb
  case neg => simp [Event.exec, hj]

theorem Event.Valid.polled (hv : (client k socket stdin).Valid n)
    (hd : (n.clients k).received <+: n.world.sent k) :
    (n.clients k).received ++ Client.polled socket <+: n.world.sent k := by
  rcases socket with _ | ⟨_ | bytes⟩ | _
  · simpa [Client.polled]
  · simpa [Client.polled]
  · exact (hv.2.1 bytes rfl).1
  · simpa [Client.polled]

end Client

namespace Invariant

theorem initial : Invariant (.init listenSocket) where
  world  := .initial listenSocket
  serves := .initial
  client := fun _ => .initial
  down   := by simp [init, Client.init]
  up     := by simp [init, World.init]

variable (ha : ∀ i m, accepts i m = m) (haf : ∀ k i m, acceptsFrom k i m = m)

include ha in
theorem server {e : Chat.Event} (h : Invariant n) (hv : (Event.server e).Valid n)
    (hf : e ≠ .accept (-1)) : Invariant ((Event.server e).exec accepts acceptsFrom n) where
  world  := h.world.step ha hf ⟨hv.world, rfl⟩
  serves := h.serves.exec hv.world hf
  client := h.client
  down   := by
    intro k
    rw [Event.exec, exec_sent h.world.bufSize]
    exact (h.down k).trans sent_prefix_sendAll
  up     := by
    intro k
    rw [Event.exec, exec_received]
    exact hv.received (h.up k)

include haf in
theorem connectTo {socket : Option Poll} {stdin : Option (Option (List UInt8))} (h : Invariant n)
    (hv : (Event.client k socket stdin).Valid n) :
    Invariant ((Event.client k socket stdin).exec accepts acceptsFrom n) := by
  have ⟨hr, _, hl⟩ := hv
  have hb := (h.client k).bufSize
  constructor
  case world  => exact h.world
  case serves => exact h.serves
  case client =>
    intro j
    by_cases hj : j = k
    case pos => simpa [Event.exec, hj] using (h.client k).connectTo (haf k) hr hl
    case neg => simpa [Event.exec, hj] using h.client j
  case down   =>
    intro j
    rw [exec_client_received haf hb]
    split_ifs with hj
    · subst hj
      exact hv.polled (h.down j)
    · rw [List.append_nil]
      exact h.down j
  case up     => exact fun j => (h.up j).trans (sent_prefix_exec_client haf hb)

include ha haf

theorem step (h : Invariant n) (hf : e ≠ .server (.accept (-1)))
    (hs : Step accepts acceptsFrom n e n') : Invariant n' := by
  obtain ⟨hv, rfl⟩ := hs
  cases e with
  | server e              => exact h.server ha hv (by simpa using hf)
  | client k socket stdin => exact h.connectTo haf hv

theorem run (r : Run (Step accepts acceptsFrom) (.init listenSocket) n)
    (hf : ∀ e ∈ r.events, e ≠ .server (.accept (-1))) : Invariant n :=
  r.states_of_steps (C := fun _ e => e ≠ .server (.accept (-1))) initial (step ha haf)
    (fun _ hp => hf _ (r.mem_events_of_mem_steps hp)) n r.last_mem_states

end Invariant

end Network

end Chat
