import Technosphere.Proxy.Basic

namespace Proxy

open ProxyServer

variable {p p' : ProxyServer} {c s k : ℕ} {d d' : Direction} {bytes : List UInt8} {e : Event}
  {validIp : String → Bool}

namespace Direction

theorem source_mem : d.source c s = c ∨ d.source c s = s := by
  cases d
  · exact .inl rfl
  · exact .inr rfl

theorem sink_mem : d.sink c s = c ∨ d.sink c s = s := by
  cases d
  · exact .inr rfl
  · exact .inl rfl

theorem source_ne (hcs : c ≠ s) (hd : d' ≠ d) : d.source c s ≠ d'.source c s := by
  cases d <;> cases d' <;> simp_all [source, hcs.symm]

theorem sink_ne (hcs : c ≠ s) (hd : d' ≠ d) : d.sink c s ≠ d'.sink c s := by
  cases d <;> cases d' <;> simp_all [sink, hcs.symm]

theorem closed_source (ht : p.closed c = p.closed s) :
    p.closed (d.source c s) = p.closed c := by
  cases d
  · rfl
  · exact ht.symm

theorem closed_sink (ht : p.closed c = p.closed s) :
    p.closed (d.sink c s) = p.closed c := by
  cases d
  · exact ht.symm
  · rfl

end Direction

namespace ProxyServer

@[simp]
theorem buffer_touch : (p.touch c).buffer c = p.buffer c := by
  cases h : p.clients.find? c <;> simp [buffer, touch, SortedMap.find?_insert, h]

@[simp]
theorem channel_modify {b : ClientBuffer} {f : Channel → Channel} :
    (b.modify d f).channel d = f (b.channel d) := by
  cases d <;> rfl

theorem channel_modify_of_ne {b : ClientBuffer} {f : Channel → Channel} (hd : d' ≠ d) :
    (b.modify d f).channel d' = b.channel d' := by
  cases d <;> cases d' <;> simp_all [ClientBuffer.modify, ClientBuffer.channel]

@[simp]
theorem buffer_modify {f : Channel → Channel} :
    (p.modify c d f).buffer c = (p.buffer c).modify d f := by
  simp [buffer, ProxyServer.modify]

section Hand

theorem hand_received : (p.hand c bytes).received = p.received := by
  unfold hand
  split_ifs <;> rfl

theorem hand_clients : (p.hand c bytes).clients = p.clients := by
  unfold hand
  split_ifs <;> rfl

@[simp]
theorem hand_closed : (p.hand k bytes).closed = p.closed := by
  unfold hand
  split_ifs <;> rfl

@[simp]
theorem hand_pending : (p.hand k bytes).pending = p.pending := by
  unfold hand
  split_ifs <;> rfl

theorem hand_handed (h : p.closed c = false) :
    (p.hand c bytes).handed c = p.handed c ++ bytes := by
  simp [hand, h]

theorem hand_handed_of_ne (h : s ≠ c) : (p.hand c bytes).handed s = p.handed s := by
  unfold hand
  split_ifs
  · rfl
  · exact Function.update_of_ne h ..

end Hand

section Messages

@[simp]
theorem recvMessage_received : (p.recvMessage d c s).received = p.received :=
  rfl

@[simp]
theorem recvMessage_buffer : (p.recvMessage d c s).buffer c = p.buffer c :=
  buffer_touch

theorem recvMessage_pending : ∃ size, (p.recvMessage d c s).pending =
    p.pending ++ [.read d c s size (!p.closed (d.source c s))] :=
  ⟨_, rfl⟩

@[simp]
theorem sendMessage_received {last : Bool} : (p.sendMessage d c s last).received = p.received :=
  hand_received

@[simp]
theorem sendMessage_closed {last : Bool} : (p.sendMessage d c s last).closed = p.closed :=
  hand_closed

@[simp]
theorem sendMessage_buffer {last : Bool} :
    (p.sendMessage d c s last).buffer c = p.buffer c := by
  have hc : (p.sendMessage d c s last).clients = (p.touch c).clients := hand_clients
  rw [ProxyServer.buffer, hc]
  exact buffer_touch

theorem sendMessage_pending {last : Bool} : (p.sendMessage d c s last).pending = p.pending ++
    [.write d c s ((p.buffer c).channel d).buf last (!p.closed (d.sink c s))] := by
  rw [← buffer_touch, sendMessage, ProxyServer.start, hand_pending]
  rfl

end Messages

section Arrive

@[simp]
theorem receive_nil : p.receive k [] = p := by
  simp [receive]

theorem deliver_received : (p.deliver d c s bytes).received =
    Function.update p.received (d.source c s) (p.received (d.source c s) ++ bytes) := by
  simp only [deliver]
  split_ifs <;> rfl

theorem deliver_handed : (p.deliver d c s bytes).handed = p.handed := by
  simp only [deliver]
  split_ifs <;> rfl

theorem deliver_closed : (p.deliver d c s bytes).closed = p.closed := by
  simp only [deliver]
  split_ifs <;> rfl

@[simp]
theorem deliver_pending : (p.deliver d c s bytes).pending = p.pending := by
  simp only [deliver]
  split_ifs <;> rfl

theorem deliver_channel (h : p.closed (d.source c s) = false) :
    ((p.deliver d c s bytes).buffer c).channel d = ((p.buffer c).channel d).fill bytes := by
  have hp : p.deliver d c s bytes =
      (p.receive (d.source c s) bytes).modify c d (·.fill bytes) := by
    simp [deliver, receive, h]
  rw [hp, buffer_modify, channel_modify]
  rfl

-- The state in which the handler of a read decides what to send.
def arrive (d : Direction) (p : ProxyServer) (clientSock serverSock : ℕ) (bytes : List UInt8) :
    ProxyServer :=
  ((p.deliver d clientSock serverSock bytes).modify clientSock d (·.setSize bytes.length)).modify
    clientSock d (·.flushTempBuf)

theorem arrive_received : (p.arrive d c s bytes).received =
    Function.update p.received (d.source c s) (p.received (d.source c s) ++ bytes) :=
  deliver_received

theorem arrive_closed : (p.arrive d c s bytes).closed = p.closed :=
  deliver_closed

@[simp]
theorem arrive_pending : (p.arrive d c s bytes).pending = p.pending :=
  deliver_pending

theorem arrive_buf (h : p.closed (d.source c s) = false) :
    (((p.arrive d c s bytes).buffer c).channel d).buf =
      ((p.buffer c).channel d).buf ++ bytes := by
  rw [arrive, buffer_modify, channel_modify, buffer_modify, channel_modify, deliver_channel h]
  simp [Channel.flushTempBuf, Channel.setSize, Channel.fill]

theorem arrive_channel_of_ne (hd : d' ≠ d) :
    ((p.arrive d c s bytes).buffer c).channel d' = (p.buffer c).channel d' := by
  rw [arrive, buffer_modify, channel_modify_of_ne hd, buffer_modify, channel_modify_of_ne hd,
    deliver]
  split_ifs
  · rfl
  · rw [buffer_modify, channel_modify_of_ne hd]
    rfl

theorem arrive_nil_buf : (((p.arrive d c s []).buffer c).channel d).buf =
    ((p.buffer c).channel d).buf := by
  have hd : (((p.deliver d c s []).buffer c).channel d).buf = ((p.buffer c).channel d).buf := by
    simp only [deliver, receive_nil]
    split_ifs
    · rfl
    · rw [buffer_modify, channel_modify]
      rfl
  rw [arrive, buffer_modify, channel_modify, buffer_modify, channel_modify, ← hd]
  simp [Channel.flushTempBuf, Channel.setSize]

end Arrive

theorem terminate_modify {f : Channel → Channel} :
    (p.modify c d f).terminateClientServerConnection c s =
      p.terminateClientServerConnection c s := by
  have he : (p.clients.set c ((p.buffer c).modify d f)).erase c = p.clients.erase c := by
    apply SortedMap.ext_find?
    intro k
    by_cases hk : k = c <;> simp [hk]
  simp [terminateClientServerConnection, ProxyServer.modify, close, he]

theorem terminate_deliver_nil : (p.deliver d c s []).terminateClientServerConnection c s =
    p.terminateClientServerConnection c s := by
  simp only [deliver, receive_nil]
  split_ifs
  · rfl
  · exact terminate_modify

theorem terminate_arrive_nil : (p.arrive d c s []).terminateClientServerConnection c s =
    p.terminateClientServerConnection c s := by
  rw [arrive, terminate_modify, terminate_modify, terminate_deliver_nil]

end ProxyServer

theorem recvMessageHandler_eof {size : ℕ} :
    p.recvMessageHandler d c s .eof size =
      let p := (p.modify c d (·.setSize size)).modify c d (·.flushTempBuf)
      if ((p.buffer c).channel d).buf.length = 0 then p.terminateClientServerConnection c s
      else p.sendMessage d c s true :=
  rfl

theorem exec_read {size : ℕ} {live : Bool} (h : e.operation = .read d c s size live)
    (he : e.exec validIp p = some p') :
    p' = ((p.complete e.operation).deliver d c s
      e.bytes).recvMessageHandler d c s e.err e.bytes.length := by
  cases d <;> simp only [Event.exec, h, Option.some.injEq] at he <;> exact h ▸ he.symm

def Event.terminates (p : ProxyServer) (e : Event) : Bool :=
  match e.operation with
  | .accept _             => false
  | .connect ..           => e.err ≠ .success
  | .read d c _ _ _       => e.err = .failure ∨
    (e.err = .eof ∧ ((p.buffer c).channel d).buf = [])
  | .write _ _ _ _ last _ => e.err ≠ .success ∨ last

inductive Handled (c s : ℕ) (p : ProxyServer) (e : Event) (p' : ProxyServer) : Prop
  | terminated (terminates : e.terminates p)
      (eq : p' = (p.complete e.operation).terminateClientServerConnection c s)
  | connected (srvAddr : ServerAddress) (operation : e.operation = .connect srvAddr c s)
      (err : e.err = .success)
      (eq : p' = ((p.complete e.operation).recvMessage .toServer c s).recvMessage .toClient c s)
  | received (d : Direction) (size : ℕ) (live : Bool)
      (operation : e.operation = .read d c s size live) (err : e.err = .success)
      (eq : p' = (((p.complete e.operation).arrive d c s e.bytes).sendMessage d c s
        false).recvMessage d c s)
  | ended (d : Direction) (size : ℕ) (live : Bool)
      (operation : e.operation = .read d c s size live) (err : e.err = .eof)
      (held : ((p.buffer c).channel d).buf ≠ [])
      (eq : p' = ((p.complete e.operation).arrive d c s []).sendMessage d c s true)
  | sent (d : Direction) (bytes : List UInt8) (live : Bool)
      (operation : e.operation = .write d c s bytes false live) (err : e.err = .success)
      (eq : p' = (p.complete e.operation).modify c d (·.clear))

theorem connectToServerHandler_cases {srvAddr : ServerAddress}
    (h : e.operation = .connect srvAddr c s) :
    Handled c s p e ((p.complete e.operation).connectToServerHandler c s e.err) := by
  by_cases he : e.err = .success
  case pos =>
    apply Handled.connected srvAddr h he
    rw [connectToServerHandler, if_neg (not_not.mpr he)]
    rfl
  case neg =>
    apply Handled.terminated
    · simp [Event.terminates, h, he]
    · rw [connectToServerHandler, if_pos he]

theorem sendMessageHandler_cases {last live : Bool}
    (h : e.operation = .write d c s bytes last live) :
    Handled c s p e ((p.complete e.operation).sendMessageHandler d c s e.err last) := by
  by_cases he : e.err ≠ .success ∨ last
  case pos =>
    apply Handled.terminated
    · simpa [Event.terminates, h] using he
    · rw [sendMessageHandler, if_pos he]
  case neg =>
    have ⟨he', hl⟩ := not_or.mp he
    obtain rfl : last = false := by simpa using hl
    apply Handled.sent d bytes live h (not_not.mp he')
    rw [sendMessageHandler, if_neg he]

theorem recvMessageHandler_cases {size : ℕ} {live : Bool}
    (h : e.operation = .read d c s size live) (hb : e.err ≠ .success → e.bytes = []) :
    Handled c s p e (((p.complete e.operation).deliver d c s e.bytes).recvMessageHandler d c s
      e.err e.bytes.length) := by
  cases he : e.err with
  | success => exact .received d size live h he rfl
  | failure =>
    rw [hb (by simp [he])]
    apply Handled.terminated
    · simp [Event.terminates, h, he]
    · exact terminate_deliver_nil
  | eof =>
    rw [hb (by simp [he])]
    have hr : ((p.complete e.operation).deliver d c s []).recvMessageHandler d c s .eof 0 =
        let q := (p.complete e.operation).arrive d c s []
        if ((q.buffer c).channel d).buf.length = 0 then q.terminateClientServerConnection c s
        else q.sendMessage d c s true := rfl
    simp only [List.length_nil, hr, arrive_nil_buf, terminate_arrive_nil]
    have hp : ((p.complete e.operation).buffer c).channel d = (p.buffer c).channel d := rfl
    by_cases hn : ((p.buffer c).channel d).buf = []
    case pos =>
      apply Handled.terminated
      · simp [Event.terminates, h, he, hn]
      · rw [if_pos (by simp [hp, hn])]
    case neg =>
      apply Handled.ended d size live h he hn
      rw [if_neg (by simp [hp, hn])]

theorem Step.cases (h : Step validIp p e p') (hp : e.operation.pair = some (c, s)) :
    Handled c s p e p' := by
  obtain ⟨⟨_, hv⟩, hx⟩ := h
  cases ho : e.operation with
  | accept sock => simp [ho, Operation.pair] at hp
  | connect srvAddr c' s' =>
    simp only [ho, Operation.pair, Option.some.injEq, Prod.mk.injEq] at hp
    obtain ⟨rfl, rfl⟩ := hp
    have hh := connectToServerHandler_cases (p := p) ho
    simp only [Event.exec, ho, Option.some.injEq] at hx
    rwa [ho, hx] at hh
  | read d c' s' size live =>
    simp only [ho, Operation.pair, Option.some.injEq, Prod.mk.injEq] at hp
    obtain ⟨rfl, rfl⟩ := hp
    have hb : e.err ≠ .success → e.bytes = [] := by
      intro hn
      simp only [ho, hn, if_false] at hv
      exact hv.2
    rw [exec_read ho hx]
    exact recvMessageHandler_cases ho hb
  | write d c' s' bytes last live =>
    simp only [ho, Operation.pair, Option.some.injEq, Prod.mk.injEq] at hp
    obtain ⟨rfl, rfl⟩ := hp
    have hh := sendMessageHandler_cases (p := p) ho
    cases d <;> simp only [Event.exec, ho, Option.some.injEq] at hx <;> rwa [← hx, ← ho]

def ProxyServer.accepted (p : ProxyServer) (clientSock : ℕ) (srvAddr : ServerAddress) :
    ProxyServer :=
  { p with
    clients    := p.clients.insert clientSock .new
    server     := Function.update p.server clientSock (some p.nextSocket)
    nextSocket := p.nextSocket + 2
    pending    := p.pending ++
      [.connect srvAddr clientSock p.nextSocket, .accept (p.nextSocket + 1)] }

theorem chooseServer_mem {rand : ℕ} {srvAddr : ServerAddress}
    (h : p.chooseServer rand = some srvAddr) : srvAddr ∈ p.config.serverAddrs := by
  simp only [chooseServer] at h
  split_ifs at h
  exact List.mem_of_getElem? h

theorem chooseServer_eq (hn : p.config.serverAddrs.length % 2 ^ 32 ≠ 0) (rand : ℕ) :
    ∃ srvAddr, p.chooseServer rand = some srvAddr := by
  let cntSrv := (BitVec.ofNat 32 p.config.serverAddrs.length).toInt
  have hcnt : cntSrv ≠ 0 ∧ cntSrv.natAbs ≤ p.config.serverAddrs.length := by
    simp only [cntSrv, BitVec.toInt_eq_toNat_cond, BitVec.toNat_ofNat]
    split_ifs <;> omega
  have hlt : ((rand : ℤ).tmod cntSrv).toNat < p.config.serverAddrs.length := by
    have hnn := Int.tmod_nonneg cntSrv (Int.natCast_nonneg rand)
    have hmod : ((rand : ℤ).tmod cntSrv).natAbs = rand % cntSrv.natAbs := Int.natAbs_tmod ..
    have := Nat.mod_lt rand (Int.natAbs_pos.mpr hcnt.1)
    omega
  refine ⟨p.config.serverAddrs.get ⟨_, hlt⟩, ?_⟩
  simp only [chooseServer]
  rw [if_neg hcnt.1]
  exact List.getElem?_eq_getElem hlt

theorem acceptClientHandler_success {rand : ℕ}
    (h : p.acceptClientHandler validIp c .success rand = some p') :
    ∃ srvAddr, p.chooseServer rand = some srvAddr ∧ validIp srvAddr.ip ∧
      p' = p.accepted c srvAddr := by
  simp only [acceptClientHandler, ne_eq, not_true_eq_false, if_false, Option.bind_eq_bind,
    Option.bind_eq_some_iff] at h
  have ⟨srvAddr, hc, q, hq, hp⟩ := h
  by_cases hv : validIp srvAddr.ip
  case pos =>
    simp only [connectToServer, hv, if_true, Option.some.injEq] at hq
    subst hq
    refine ⟨srvAddr, hc, hv, ?_⟩
    simpa [accepted, touch, newSocket, ProxyServer.start, acceptClient, eq_comm] using hp
  case neg => simp [connectToServer, hv] at hq

theorem acceptClientHandler_of_ne {err : ErrorCode} {rand : ℕ} (h : err ≠ .success) :
    p.acceptClientHandler validIp c err rand =
      some ({ p with clients := p.clients.erase c }.close c) := by
  simp [acceptClientHandler, h]

theorem Step.accept_cases (h : Step validIp p e p') (hp : e.operation.pair = none) :
    (∃ c srvAddr, e.operation = .accept c ∧ e.err = .success ∧
      p' = (p.complete e.operation).accepted c srvAddr) ∨
    ∃ c, e.operation = .accept c ∧ e.err ≠ .success ∧ p' = { p.complete e.operation with
      clients := (p.complete e.operation).clients.erase c }.close c := by
  obtain ⟨_, hx⟩ := h
  obtain ⟨o, err, bytes, rand⟩ := e
  cases o with
  | connect | read | write => simp [Operation.pair] at hp
  | accept sock =>
    by_cases hr : err = .success
    case pos =>
      subst hr
      obtain ⟨srvAddr, _, _, hp'⟩ := acceptClientHandler_success hx
      exact .inl ⟨sock, srvAddr, rfl, rfl, hp'⟩
    case neg =>
      have hp' := Option.some.inj ((acceptClientHandler_of_ne hr).symm.trans hx)
      exact .inr ⟨sock, rfl, hr, hp'.symm⟩

end Proxy
