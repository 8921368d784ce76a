import Technosphere.Chat.Basic
import Technosphere.Lib.Chunks

namespace Chat.World

variable {accepts : ℕ → ℕ → ℕ} {w w' w₁ w₂ w₃ : World} {socket k : ℤ} {bytes chunk : List UInt8}
  {it n : ℕ} {call : ℤ × List UInt8} {calls : List (ℤ × List UInt8)}

structure Sends (w w' : World) : Prop where
  server   : w'.server = w.server
  epoll    : w'.epoll = w.epoll
  received : w'.received = w.received
  journal  : w'.journal = w.journal

namespace Sends

theorem refl : Sends w w :=
  ⟨rfl, rfl, rfl, rfl⟩

theorem trans (h₁ : Sends w₁ w₂) (h₂ : Sends w₂ w₃) : Sends w₁ w₃ where
  server   := h₂.server.trans h₁.server
  epoll    := h₂.epoll.trans h₁.epoll
  received := h₂.received.trans h₁.received
  journal  := h₂.journal.trans h₁.journal

theorem send : Sends w (w.send accepts socket bytes) := by
  simp only [World.send]
  split_ifs
  · exact refl
  · exact ⟨rfl, rfl, rfl, rfl⟩

theorem foldl_send {sockets : List ℤ} :
    Sends w (sockets.foldl (fun w client => w.send accepts client chunk) w) := by
  induction sockets generalizing w with
  | nil               => exact refl
  | cons socket _ hi => exact send.trans hi

theorem sendChunk : Sends w (w.sendChunk accepts chunk) :=
  foldl_send

theorem message (h : Sends w w') : w'.message socket = w.message socket := by
  simp [World.message, h.server]

theorem sendLoop : Sends w (w.sendLoop accepts socket n it) := by
  induction n generalizing w it with
  | zero => exact refl
  | succ n hi =>
    simp only [World.sendLoop]
    split_ifs
    · exact sendChunk.trans hi
    · exact refl

end Sends

section SendMessage

@[simp]
theorem sendMessage_server : (w.sendMessage accepts socket).server =
    { w.server with messageBuf := w.server.messageBuf.set socket [] } := by
  have h : Sends w (w.sendLoop accepts socket (w.message socket).length 0) := .sendLoop
  simp [sendMessage, setMessage, h.server]

@[simp]
theorem sendMessage_epoll : (w.sendMessage accepts socket).epoll = w.epoll :=
  Sends.sendLoop.epoll

@[simp]
theorem sendMessage_received : (w.sendMessage accepts socket).received = w.received :=
  Sends.sendLoop.received

@[simp]
theorem sendMessage_journal : (w.sendMessage accepts socket).journal =
    w.journal.post (socket, w.message socket) := by
  have h : Sends w (w.sendLoop accepts socket (w.message socket).length 0) := .sendLoop
  simp only [sendMessage, setMessage, h.journal]
  rw [h.message]

end SendMessage

section AcceptConnection

@[simp]
theorem acceptConnection_server : (w.acceptConnection accepts socket).server =
    { w.server with
      clients    := w.server.clients.insert socket ()
      messageBuf := w.server.messageBuf.set socket [] } := by
  simp only [acceptConnection, send, setMessage]
  split_ifs <;> rfl

@[simp]
theorem acceptConnection_epoll : (w.acceptConnection accepts socket).epoll =
    if socket < 0 then w.epoll else w.epoll.insert socket () := by
  simp only [acceptConnection, send, setMessage]
  split_ifs <;> rfl

@[simp]
theorem acceptConnection_journal : (w.acceptConnection accepts socket).journal =
    if socket < 0 then w.journal else w.journal.join socket := by
  simp only [acceptConnection, send, setMessage]
  split_ifs <;> rfl

end AcceptConnection

def sendAll (accepts : ℕ → ℕ → ℕ) (w : World) (calls : List (ℤ × List UInt8)) : World :=
  calls.foldl (fun w call => w.send accepts call.1 call.2) w

def broadcastCalls (w : World) (message : List UInt8) : List (ℤ × List UInt8) :=
  (message.chunks w.server.maxBufSize).flatMap fun chunk => w.server.clients.keys.map (·, chunk)

theorem sendChunk_eq_sendAll :
    w.sendChunk accepts chunk = w.sendAll accepts (w.server.clients.keys.map (·, chunk)) := by
  rw [sendAll, List.foldl_map]
  rfl

theorem sendLoop_eq_sendAll (hm : 0 < w.server.maxBufSize)
    (hn : (w.message socket).length ≤ it + n) : w.sendLoop accepts socket n it =
      w.sendAll accepts (w.broadcastCalls ((w.message socket).drop it)) := by
  induction n generalizing w it with
  | zero =>
    rw [List.drop_eq_nil_of_le (by simpa using hn)]
    rfl
  | succ n ih =>
    by_cases hit : it < (w.message socket).length
    case pos =>
      let chunk := ((w.message socket).drop it).take w.server.maxBufSize
      have hw : Sends w (w.sendChunk accepts chunk) := .sendChunk
      have hne : (w.message socket).drop it ≠ [] := by
        simpa [List.drop_eq_nil_iff] using hit
      have hr := @ih (w.sendChunk accepts chunk) (it + w.server.maxBufSize)
        (by rwa [hw.server]) (by rw [hw.message]; omega)
      rw [sendLoop, if_pos hit, broadcastCalls, List.chunks_eq hm hne, List.flatMap_cons, sendAll,
        List.foldl_append]
      rw [hw.message, broadcastCalls, hw.server, ← List.drop_drop] at hr
      rw [hr, sendChunk_eq_sendAll]
      rfl
    case neg =>
      rw [sendLoop, if_neg hit, List.drop_eq_nil_of_le (not_lt.mp hit)]
      rfl

theorem sendMessage_sent_eq (hm : 0 < w.server.maxBufSize) :
    (w.sendMessage accepts socket).sent =
      (w.sendAll accepts (w.broadcastCalls (w.message socket))).sent := by
  have := @sendLoop_eq_sendAll accepts w socket 0 _ hm (Nat.le_add_left ..)
  rw [List.drop_zero] at this
  rw [sendMessage, this]
  rfl

def given (calls : List (ℤ × List UInt8)) (k : ℤ) : List UInt8 :=
  (calls.filter (·.1 = k)).flatMap (·.2)

@[simp]
theorem given_cons : given (call :: calls) k =
    if call.1 = k then call.2 ++ given calls k else given calls k := by
  by_cases h : call.1 = k <;> simp [given, h]

theorem given_broadcastCalls : given (w.broadcastCalls bytes) k =
    if k ∈ w.server.clients.keys then bytes else [] := by
  have hc : ∀ chunk : List UInt8, given (w.server.clients.keys.map (·, chunk)) k =
      if k ∈ w.server.clients.keys then chunk else [] := by
    intro chunk
    have hn : w.server.clients.keys.Nodup := w.server.clients.keys_sorted.imp fun h => h.ne
    rw [given, List.filter_map, List.flatMap_map]
    simp only [Function.comp_def, List.filter_eq]
    rw [hn.count]
    split_ifs <;> simp
  rw [given, broadcastCalls, List.filter_flatMap, List.flatMap_assoc]
  simp only [given] at hc
  simp only [hc]
  split_ifs
  · exact List.flatMap_id.trans List.chunks_flatten
  · simp

-- The calls accept all the bytes they are given, where `i` is the number of the first one.
def AcceptsAll (accepts : ℕ → ℕ → ℕ) : ℕ → List (ℤ × List UInt8) → Prop
  | _, []                       => True
  | i, (socket, bytes) :: calls =>
    if socket < 0 then AcceptsAll accepts i calls
    else bytes.length ≤ accepts i bytes.length ∧ AcceptsAll accepts (i + 1) calls

theorem acceptsAll_of_eq (ha : ∀ k n, accepts k n = n) : AcceptsAll accepts n calls := by
  induction calls generalizing n with
  | nil           => trivial
  | cons call _ ih =>
    rw [AcceptsAll]
    split_ifs
    · exact ih
    · exact ⟨(ha ..).ge, ih⟩

theorem send_of_neg (hs : socket < 0) : w.send accepts socket bytes = w :=
  if_pos hs

theorem send_sends (hs : 0 ≤ socket) : (w.send accepts socket bytes).sends = w.sends + 1 := by
  simp [send, hs.not_gt]

theorem send_sent (hs : 0 ≤ socket) : (w.send accepts socket bytes).sent k =
    if socket = k then w.sent k ++ bytes.take (accepts w.sends bytes.length) else w.sent k := by
  simp only [send, hs.not_gt, ↓reduceIte, Function.update_apply, eq_comm (a := k)]
  split_ifs with hk
  · rw [hk]
  · rfl

theorem sendAll_sent (hk : ∀ call ∈ calls, call.1 = k → 0 ≤ k)
    (h : AcceptsAll accepts w.sends calls) :
    (w.sendAll accepts calls).sent k = w.sent k ++ given calls k := by
  induction calls generalizing w with
  | nil => simp [sendAll, given]
  | cons call calls ih =>
    obtain ⟨socket, bytes⟩ := call
    have ⟨hsk, hk⟩ := List.forall_mem_cons.mp hk
    by_cases hs : socket < 0
    case pos =>
      have hne : socket ≠ k := fun he => (hsk he).not_gt (he ▸ hs)
      rw [AcceptsAll, if_pos hs] at h
      rw [given_cons, if_neg hne, ← ih hk h, sendAll, List.foldl_cons, send_of_neg hs]
      rfl
    case neg =>
      have hs := not_lt.mp hs
      rw [AcceptsAll, if_neg hs.not_gt] at h
      have hr := @ih (w.send accepts socket bytes) hk (send_sends hs ▸ h.2)
      rw [send_sent hs, List.take_of_length_le h.1] at hr
      rw [sendAll, List.foldl_cons]
      apply hr.trans
      rw [given_cons]
      split_ifs <;> simp

theorem length_sendAll_le : ((w.sendAll accepts calls).sent k).length ≤
    (w.sent k).length + (given calls k).length := by
  induction calls generalizing w with
  | nil => simp [sendAll, given]
  | cons call calls ih =>
    obtain ⟨socket, bytes⟩ := call
    have hr := @ih (w.send accepts socket bytes)
    rw [sendAll, List.foldl_cons]
    apply hr.trans
    by_cases hs : socket < 0
    case pos =>
      rw [send_of_neg hs, given_cons]
      split_ifs <;> simp
    case neg =>
      rw [send_sent (not_lt.mp hs), given_cons]
      split_ifs <;> simp
      omega

theorem acceptsAll_of_sent (h : ∀ call ∈ calls, 0 ≤ call.1 →
    (w.sendAll accepts calls).sent call.1 = w.sent call.1 ++ given calls call.1) :
    AcceptsAll accepts w.sends calls := by
  induction calls generalizing w with
  | nil => trivial
  | cons call calls ih =>
    obtain ⟨socket, bytes⟩ := call
    have ⟨hh, ht⟩ := List.forall_mem_cons.mp h
    rw [sendAll, List.foldl_cons] at hh ht
    by_cases hs : socket < 0
    case pos =>
      rw [AcceptsAll, if_pos hs]
      apply ih
      intro call hm hk
      have hr := ht call hm hk
      rw [send_of_neg hs, given_cons, if_neg (hs.trans_le hk).ne] at hr
      exact hr
    case neg =>
      have hs := not_lt.mp hs
      have hle : bytes.length ≤ accepts w.sends bytes.length := by
        have hl : ((w.send accepts socket bytes).sendAll accepts calls |>.sent socket).length ≤ _ :=
          length_sendAll_le
        have hr : ((w.send accepts socket bytes).sendAll accepts calls).sent socket = _ := hh hs
        rw [hr, send_sent hs, given_cons] at hl
        simp at hl
        omega
      rw [AcceptsAll, if_neg hs.not_gt]
      refine ⟨hle, ?_⟩
      have hn : (w.send accepts socket bytes).sends = w.sends + 1 := send_sends hs
      rw [← hn]
      apply ih
      intro call hm hk
      have hr := ht call hm hk
      rw [given_cons] at hr
      rw [send_sent hs, List.take_of_length_le hle]
      apply Eq.trans hr
      split_ifs <;> simp

theorem sendAll_sent_congr (hn : w.sends = w'.sends) (hs : w.sent = w'.sent) :
    (w.sendAll accepts calls).sent = (w'.sendAll accepts calls).sent := by
  induction calls generalizing w w' with
  | nil => exact hs
  | cons call calls ih =>
    apply ih
    · simp only [send]
      split_ifs <;> simp [hn]
    · simp only [send]
      split_ifs <;> simp [hn, hs]

@[simp]
theorem acceptConnection_sent : (w.acceptConnection accepts socket).sent =
    (w.sendAll accepts [(socket, welcome)]).sent := by
  simp only [acceptConnection, sendAll, List.foldl_cons, List.foldl_nil, send, setMessage]
  split_ifs <;> rfl

section Whole

variable (ha : ∀ k n, accepts k n = n)
include ha

theorem acceptConnection_eq (hs : 0 ≤ socket) : w.acceptConnection accepts socket =
    { server   := { w.server with
        clients    := w.server.clients.insert socket ()
        messageBuf := w.server.messageBuf.set socket [] }
      epoll    := w.epoll.insert socket ()
      sends    := w.sends + 1
      received := w.received
      sent     := Function.update w.sent socket (w.sent socket ++ welcome)
      journal  := w.journal.join socket } := by
  simp only [acceptConnection, send, setMessage, hs.not_gt, ↓reduceIte, ha, List.take_length]

theorem sendMessage_sent (hs : ∀ s ∈ w.server.clients.keys, 0 ≤ s)
    (hm : 0 < w.server.maxBufSize) : (w.sendMessage accepts socket).sent k =
      if k ∈ w.server.clients.keys then w.sent k ++ w.message socket else w.sent k := by
  have hk : ∀ call ∈ w.broadcastCalls (w.message socket), call.1 = k → 0 ≤ k := by
    intro call hc he
    have ⟨_, _, hc⟩ := List.mem_flatMap.mp hc
    have ⟨s, hm, hc⟩ := List.mem_map.mp hc
    exact he ▸ hc ▸ hs s hm
  rw [sendMessage_sent_eq hm, sendAll_sent hk (acceptsAll_of_eq ha), given_broadcastCalls]
  split_ifs <;> simp

end Whole

end Chat.World

namespace Chat.Event

variable {accepts : ℕ → ℕ → ℕ} {w : World} {socket : ℤ}

def calls (w : World) : Event → List (ℤ × List UInt8)
  | accept socket      => [(socket, welcome)]
  | recv socket result =>
    let (flag, w) := w.recvMessage socket result
    if flag = 1 then w.broadcastCalls (w.message socket) else []
  | hangUp _           => []

inductive RecvCases (accepts : ℕ → ℕ → ℕ) (w : World) (socket : ℤ) (e : Event) : Prop
  | closed (exec : e.exec accepts w = w.terminateConnection socket) (calls : e.calls w = [])
  | append (bytes : List UInt8) (exec : e.exec accepts w = w.append socket bytes)
      (calls : e.calls w = []) (received : e = .recv socket (some bytes))
      (incomplete : ((w.append socket bytes).message socket).getLast? ≠ some newline)
  | message (bytes : List UInt8)
      (complete : ((w.append socket bytes).message socket).getLast? = some newline)
      (exec : e.exec accepts w = (w.append socket bytes).sendMessage accepts socket)
      (calls : e.calls w =
        (w.append socket bytes).broadcastCalls ((w.append socket bytes).message socket))

theorem recv_cases {result : Option (List UInt8)} :
    RecvCases accepts w socket (.recv socket result) := by
  rcases result with _ | _ | ⟨b, bytes⟩
  · exact .closed rfl rfl
  · exact .closed rfl rfl
  · by_cases hl : ((w.append socket (b :: bytes)).message socket).getLast? = some newline
    case pos =>
      apply RecvCases.message (b :: bytes) hl <;> simp [exec, Event.calls, World.recvMessage, hl]
    case neg =>
      apply RecvCases.append (b :: bytes) <;> simp [exec, Event.calls, World.recvMessage, hl]

end Chat.Event
