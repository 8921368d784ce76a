import Technosphere.Proxy.Theorems.Forwarding
import Technosphere.Proxy.Theorems.View

namespace Proxy

open ProxyServer

variable {p p' q : ProxyServer} {c s c' s' k : ℕ} {d : Direction} {o : Operation} {e : Event}
  {bytes : List UInt8} {err : ErrorCode} {last : Bool} {validIp : String → Bool}

-- What is done for a connection does the same to two states that agree in what belongs to it.
namespace Same

theorem complete (h : Same c s p q) : Same c s (p.complete o) (q.complete o) :=
  { h with
    pending := by
      rw [ProxyServer.complete, ProxyServer.complete, ← List.erase_filter, ← List.erase_filter,
        h.pending] }

theorem start (h : Same c s p q) : Same c s (p.start o) (q.start o) :=
  { h with
    pending := by
      rw [ProxyServer.start, ProxyServer.start, List.filter_append, List.filter_append, h.pending] }

theorem touch (h : Same c s p q) : Same c s (p.touch c) (q.touch c) :=
  { h with
    entry := by
      rw [ProxyServer.touch, ProxyServer.touch, SortedMap.find?_insert, SortedMap.find?_insert,
        h.entry] }

theorem modify {f : Channel → Channel} (h : Same c s p q) :
    Same c s (p.modify c d f) (q.modify c d f) :=
  { h with entry := by simp [ProxyServer.modify, h.buffer] }

theorem close (h : Same c s p q) : Same c s (p.close k) (q.close k) :=
  { h with
    closed := by
      intro k' hk'
      simp only [ProxyServer.close, Function.update_apply, h.closed k' hk'] }

theorem hand (h : Same c s p q) (hk : k = c ∨ k = s) :
    Same c s (p.hand k bytes) (q.hand k bytes) := by
  rw [ProxyServer.hand, ProxyServer.hand, h.closed k hk]
  split_ifs
  · exact h
  · exact { h with
      handed := by
        intro k' hk'
        simp only [Function.update_apply, h.handed k' hk', h.handed k hk] }

theorem receive (h : Same c s p q) (hk : k = c ∨ k = s) :
    Same c s (p.receive k bytes) (q.receive k bytes) :=
  { h with
    received := by
      intro k' hk'
      simp only [ProxyServer.receive, Function.update_apply, h.received k' hk', h.received k hk] }

theorem terminate (h : Same c s p q) : Same c s (p.terminateClientServerConnection c s)
    (q.terminateClientServerConnection c s) := by
  have he : Same c s { p.close s with clients := p.clients.erase c }
      { q.close s with clients := q.clients.erase c } :=
    { h.close with entry := by simp }
  exact he.close

theorem deliver (h : Same c s p q) : Same c s (p.deliver d c s bytes) (q.deliver d c s bytes) := by
  have hr : Same c s (p.receive (d.source c s) bytes) (q.receive (d.source c s) bytes) :=
    h.receive d.source_mem
  simp only [ProxyServer.deliver, hr.closed _ d.source_mem]
  split_ifs
  · exact hr
  · exact hr.modify

theorem recvMessage (h : Same c s p q) : Same c s (p.recvMessage d c s) (q.recvMessage d c s) := by
  simp only [ProxyServer.recvMessage, h.touch.buffer, h.touch.closed _ d.source_mem]
  exact h.touch.start

theorem sendMessage (h : Same c s p q) :
    Same c s (p.sendMessage d c s last) (q.sendMessage d c s last) := by
  simp only [ProxyServer.sendMessage, h.touch.buffer, h.touch.closed _ d.sink_mem]
  exact (h.touch.hand d.sink_mem).start

theorem connectToServerHandler (h : Same c s p q) :
    Same c s (p.connectToServerHandler c s err) (q.connectToServerHandler c s err) := by
  unfold ProxyServer.connectToServerHandler
  split_ifs
  · exact h.terminate
  · exact h.recvMessage.recvMessage

theorem recvMessageHandler {size : ℕ} (h : Same c s p q) :
    Same c s (p.recvMessageHandler d c s err size) (q.recvMessageHandler d c s err size) := by
  have hm : Same c s ((p.modify c d (·.setSize size)).modify c d (·.flushTempBuf))
      ((q.modify c d (·.setSize size)).modify c d (·.flushTempBuf)) := h.modify.modify
  cases err with
  | failure => exact h.terminate
  | success => exact hm.sendMessage.recvMessage
  | eof =>
    simp only [recvMessageHandler_eof, hm.buffer]
    split_ifs
    · exact hm.terminate
    · exact hm.sendMessage

theorem sendMessageHandler (h : Same c s p q) :
    Same c s (p.sendMessageHandler d c s err last) (q.sendMessageHandler d c s err last) := by
  unfold ProxyServer.sendMessageHandler
  split_ifs
  · exact h.terminate
  · exact h.modify

theorem step (h : Same c s p q) (hst : Step validIp p e p')
    (hp : e.operation.pair = some (c, s)) : ∃ q', Step validIp q e q' ∧ Same c s p' q' := by
  have ⟨⟨hm, hv⟩, hx⟩ := hst
  have hv : e.Valid q := ⟨(h.mem_pending hp).mpr hm, hv⟩
  have hc : Same c s (p.complete e.operation) (q.complete e.operation) := h.complete
  cases ho : e.operation with
  | accept sock => simp [ho, Operation.pair] at hp
  | connect srvAddr c' s' =>
    simp only [ho, Operation.pair, Option.some.injEq, Prod.mk.injEq] at hp
    obtain ⟨rfl, rfl⟩ := hp
    rw [ho] at hc
    simp only [Event.exec, ho, Option.some.injEq] at hx
    exact ⟨_, ⟨hv, by simp only [Event.exec, ho]⟩, hx ▸ hc.connectToServerHandler⟩
  | read d c' s' size live =>
    simp only [ho, Operation.pair, Option.some.injEq, Prod.mk.injEq] at hp
    obtain ⟨rfl, rfl⟩ := hp
    rw [exec_read ho hx]
    refine ⟨_, ⟨hv, ?_⟩, hc.deliver.recvMessageHandler⟩
    cases d <;> simp only [Event.exec, ho] <;> rfl
  | write d c' s' bytes last live =>
    simp only [ho, Operation.pair, Option.some.injEq, Prod.mk.injEq] at hp
    obtain ⟨rfl, rfl⟩ := hp
    rw [ho] at hc
    have hx' : p' = (p.complete (.write d c' s' bytes last live)).sendMessageHandler d c' s' e.err
        last := by
      cases d <;> simp only [Event.exec, ho, Option.some.injEq] at hx <;> exact hx.symm
    rw [hx']
    refine ⟨_, ⟨hv, ?_⟩, hc.sendMessageHandler⟩
    cases d <;> simp only [Event.exec, ho] <;> rfl

end Same

inductive Call
  | start (operation : Operation)
  | close (sock : ℕ)

def Call.concerns (clientSock serverSock : ℕ) : Call → Bool
  | start o => o.pair = some (clientSock, serverSock)
  | close k => k = clientSock ∨ k = serverSock

namespace Event

def closes (p : ProxyServer) (e : Event) : List ℕ :=
  match e.operation with
  | .accept sock                                    => if e.err = .success then [] else [sock]
  | .connect _ c s | .read _ c s .. | .write _ c s .. => if e.terminates p then [s, c] else []

-- The operations that the handler issues. Those that it starts are the last ones of those that are
-- outstanding then.
def calls (validIp : String → Bool) (p : ProxyServer) (e : Event) : List Call :=
  match e.exec validIp p with
  | none    => []
  | some p' => (e.closes p).map .close ++
    (p'.pending.drop (p.complete e.operation).pending.length).map .start

theorem closes_of_pair (hp : e.operation.pair = some (c, s)) :
    e.closes p = if e.terminates p then [s, c] else [] := by
  cases ho : e.operation with
  | accept sock => simp [ho, Operation.pair] at hp
  | connect | read | write =>
    simp only [ho, Operation.pair, Option.some.injEq, Prod.mk.injEq] at hp
    simp [closes, ho, hp]

end Event

def issued (c s : ℕ) {p₀ : ProxyServer} (r : Run (Step validIp) p₀ p) : List Call :=
  r.steps.flatMap fun q => (q.2.calls validIp q.1).filter (Call.concerns c s)

namespace Step

theorem calls_eq (hst : Step validIp p e p') : e.calls validIp p = (e.closes p).map .close ++
    (p'.pending.drop (p.complete e.operation).pending.length).map .start := by
  rw [Event.calls, hst.2]

theorem calls_of_pair (hst : Step validIp p e p') (hp : e.operation.pair = some (c, s)) :
    ∃ os, p'.pending = (p.complete e.operation).pending ++ os ∧
      (∀ o ∈ os, o.pair = some (c, s)) ∧
      e.calls validIp p = (e.closes p).map .close ++ os.map .start := by
  have ⟨os, he, ho⟩ := (hst.frame hp).pending
  refine ⟨os, he, ho, ?_⟩
  rw [hst.calls_eq, he, List.drop_left]

theorem calls_of_ne (hst : Step validIp p e p') (hp : e.operation.pair = some (c', s'))
    (hc : c ≠ c' ∧ c ≠ s') (hs : s ≠ c' ∧ s ≠ s') :
    (e.calls validIp p).filter (Call.concerns c s) = [] := by
  have ⟨os, _, ho, hcalls⟩ := hst.calls_of_pair hp
  rw [hcalls, Event.closes_of_pair hp, List.filter_eq_nil_iff]
  intro call hm
  rw [List.mem_append, List.mem_map, List.mem_map] at hm
  rcases hm with ⟨k, hk, rfl⟩ | ⟨o, hm, rfl⟩
  · split_ifs at hk
    · simp only [List.mem_cons, List.not_mem_nil, or_false] at hk
      rcases hk with rfl | rfl
      · simp [Call.concerns, hc.2.symm, hs.2.symm]
      · simp [Call.concerns, hc.1.symm, hs.1.symm]
    · simp at hk
  · simp [Call.concerns, ho o hm, hc.1.symm]

end Step

namespace Same

theorem terminates (h : Same c s p q) (hp : e.operation.pair = some (c, s)) :
    e.terminates q = e.terminates p := by
  cases ho : e.operation with
  | accept sock    => simp [ho, Operation.pair] at hp
  | connect | write => simp only [Event.terminates, ho]
  | read =>
    simp only [ho, Operation.pair, Option.some.injEq, Prod.mk.injEq] at hp
    simp only [Event.terminates, ho, hp.1, h.buffer]

theorem calls {q' : ProxyServer} (h : Same c s p q) (h' : Same c s p' q')
    (hst : Step validIp p e p') (hst' : Step validIp q e q')
    (hp : e.operation.pair = some (c, s)) : e.calls validIp q = e.calls validIp p := by
  have ⟨os, he, ho, hcalls⟩    := hst.calls_of_pair hp
  have ⟨os', he', ho', hcalls'⟩ := hst'.calls_of_pair hp
  have hos : os' = os := by
    have hf := h'.pending
    have hc : Same c s (p.complete e.operation) (q.complete e.operation) := h.complete
    rw [he, he', List.filter_append, List.filter_append, hc.pending, List.append_cancel_left_eq,
      List.filter_eq_self.mpr (by simpa using ho'),
      List.filter_eq_self.mpr (by simpa using ho)] at hf
    exact hf
  rw [hcalls, hcalls', hos, Event.closes_of_pair hp, Event.closes_of_pair hp, h.terminates hp]

end Same

theorem Step.calls_accepted {srvAddr : ServerAddress} (hst : Step validIp p e p')
    (ho : e.operation = .accept k) (he : e.err = .success)
    (hp : p' = (p.complete e.operation).accepted k srvAddr) : e.calls validIp p =
      [.start (.connect srvAddr k p.nextSocket), .start (.accept (p.nextSocket + 1))] := by
  have hd : p'.pending.drop (p.complete e.operation).pending.length =
      [.connect srvAddr k p.nextSocket, .accept (p.nextSocket + 1)] := by
    rw [hp, accepted, List.drop_left]
    rfl
  rw [hst.calls_eq, hd]
  simp [Event.closes, ho, he]

theorem Step.calls_rejected (hst : Step validIp p e p') (ho : e.operation = .accept k)
    (he : e.err ≠ .success) (hp : p'.pending = (p.complete e.operation).pending) :
    e.calls validIp p = [.close k] := by
  rw [hst.calls_eq, hp, List.drop_length]
  simp [Event.closes, ho, he]

theorem Step.calls_of_not (hst : Step validIp p e p')
    (hpair : ∀ c' s', e.operation.pair = some (c', s') → (c ≠ c' ∧ c ≠ s') ∧ s ≠ c' ∧ s ≠ s')
    (haccept : ∀ k, e.operation = .accept k → (p'.server k).isSome → c ≠ k)
    (hreject : ∀ k, e.operation = .accept k → p'.closed k → c ≠ k ∧ s ≠ k) :
    (e.calls validIp p).filter (Call.concerns c s) = [] := by
  cases hp : e.operation.pair with
  | some cs => exact hst.calls_of_ne hp (hpair _ _ hp).1 (hpair _ _ hp).2
  | none =>
    rcases hst.accept_cases hp with ⟨k, srvAddr, ho, he, hp'⟩ | ⟨k, ho, he, hp'⟩
    · have hk := haccept k ho (by simp [hp', accepted])
      rw [hst.calls_accepted ho he hp']
      simp [Call.concerns, Operation.pair, hk.symm]
    · have hk := hreject k ho (by simp [hp', close])
      rw [hst.calls_rejected ho he (by rw [hp']; rfl)]
      simp [Call.concerns, hk.1.symm, hk.2.symm]

theorem Invariant.calls_of_other (h : Invariant p) (hst : Step validIp p e p')
    (hc : p.server c = some s) (hp : e.operation.pair ≠ some (c, s)) :
    (e.calls validIp p).filter (Call.concerns c s) = [] := by
  have ha : ∀ k, e.operation = .accept k → c ≠ k ∧ s ≠ k :=
    fun k ho => (h.waiting k (ho ▸ hst.1.1)).2.ne hc
  apply hst.calls_of_not
  · intro c' s' hp'
    exact h.distinct_of_ne hc (h.exec_frame hst hp').1 (hp' ▸ hp)
  · exact fun k ho _ => (ha k ho).1
  · exact fun k ho _ => ha k ho

structure Untouched (p : ProxyServer) (k : ℕ) : Prop where
  client : p.server k = none
  server : ∀ c, p.server c ≠ some k
  closed : p.closed k = false

theorem Untouched.of_step (h : Untouched p' k) (hi : Invariant p) (hst : Step validIp p e p') :
    Untouched p k where
  client := by
    by_contra hn
    have ⟨s, hs⟩ := Option.ne_none_iff_exists'.mp hn
    have hs' := hi.server_mono hst hs
    simp [h.client] at hs'
  server := fun c hc => h.server c (hi.server_mono hst hc)
  closed := by
    by_contra hn
    have hc' := hi.closed_mono hst (by simpa using hn)
    simp [h.closed] at hc'

theorem Untouched.ne (h : Untouched p k) (hc : p.server c = some s) : k ≠ c ∧ k ≠ s := by
  constructor
  · rintro rfl
    simp [h.client] at hc
  · rintro rfl
    exact h.server c hc

theorem Untouched.issued {config : ConfigProxy} (r : Run (Step validIp) (init config).run p)
    (hc : Untouched p c) (hs : Untouched p s) :
    r.events.filter (·.operation.pair = some (c, s)) = [] ∧ issued c s r = [] := by
  induction r with
  | refl => exact ⟨rfl, rfl⟩
  | @snoc p p' r e hst ih =>
    have hi := Invariant.run r
    have hc₀ := hc.of_step hi hst
    have hs₀ := hs.of_step hi hst
    have ⟨he, hcalls⟩ := ih hc₀ hs₀
    have hp : e.operation.pair ≠ some (c, s) := by
      intro hp
      have ⟨hcs, _⟩ := hi.exec_frame hst hp
      simp [hc₀.client] at hcs
    have hnil : (e.calls validIp p).filter (Call.concerns c s) = [] := by
      apply hst.calls_of_not
      · intro c' s' hp'
        have hcs := (hi.exec_frame hst hp').1
        exact ⟨hc₀.ne hcs, hs₀.ne hcs⟩
      · rintro k _ hk rfl
        simp [hc.client] at hk
      · refine fun k _ hk => ⟨?_, ?_⟩
        · rintro rfl
          simp [hc.closed] at hk
        · rintro rfl
          simp [hs.closed] at hk
    constructor
    · simp [Run.events, he, hp]
    · simpa [Proxy.issued, Run.steps, hnil] using hcalls

theorem run_config {config : ConfigProxy} (r : Run (Step validIp) (init config).run p) :
    p.config = config := by
  apply r.invariant (P := fun p => p.config = config)
  · rfl
  · intro p e p' hc hst
    apply Eq.trans _ hc
    cases hp : e.operation.pair with
    | some cs => exact (hst.frame hp).config
    | none    => rcases hst.accept_cases hp with ⟨_, _, _, _, rfl⟩ | ⟨_, _, _, rfl⟩ <;> rfl

-- The run with all other connections deleted takes the same steps for this one.
structure Isolated {config : ConfigProxy} (r : Run (Step validIp) (init config).run p) (c s : ℕ)
    (srvAddr : ServerAddress) (r' : Run (Step validIp) (single config c s srvAddr) q) : Prop where
  events : r'.events = r.events.filter (·.operation.pair = some (c, s))
  same   : Same c s q p
  issued : issued c s r = .start (.connect srvAddr c s) :: issued c s r'

theorem run_isolated {config : ConfigProxy} (r : Run (Step validIp) (init config).run p)
    (hc : p.server c = some s) :
    ∃ (srvAddr : ServerAddress) (q : ProxyServer)
      (r' : Run (Step validIp) (single config c s srvAddr) q), Isolated r c s srvAddr r' := by
  induction r with
  | refl => simp [ProxyServer.run, init, newSocket, acceptClient, start] at hc
  | @snoc p p' r e hst ih =>
    have hi := Invariant.run r
    by_cases hcp : p.server c = some s
    case neg =>
      obtain ⟨srvAddr, ho, he, hp', hs⟩ := hi.same_single hst hcp hc
      have hn : p.nextSocket = s := by
        simpa [hp', accepted, ProxyServer.complete] using hc
      have hu := (hi.waiting c (ho ▸ hst.1.1)).2
      have hf := hi.fresh _ le_rfl
      obtain ⟨hev, hnil⟩ := Untouched.issued r (c := c) (s := s) ⟨hu.client, hu.server, hu.closed⟩
        (hn ▸ ⟨hf.client, hf.server, hf.closed⟩)
      rw [run_config r] at hs
      refine ⟨srvAddr, single config c s srvAddr, .refl, ?_, hs, ?_⟩
      · simp only [Run.events, List.filter_append, hev]
        simp [ho, Operation.pair]
      · have hcalls := hst.calls_accepted ho he hp'
        rw [hn] at hcalls
        simp only [Proxy.issued, Run.steps, List.flatMap_append, List.flatMap_cons,
          List.flatMap_nil, hcalls] at hnil ⊢
        simp [hnil, Call.concerns, Operation.pair]
    case pos =>
      obtain ⟨srvAddr, q, r', h⟩ := ih hcp
      by_cases hp : e.operation.pair = some (c, s)
      case neg =>
        have hs := (hi.same_of_ne hst hcp hp).1
        have hcalls := hi.calls_of_other hst hcp hp
        refine ⟨srvAddr, q, r', ?_, h.same.trans hs, ?_⟩
        · simp [Run.events, h.events, hp]
        · simpa [Proxy.issued, Run.steps, hcalls] using h.issued
      case pos =>
        obtain ⟨q', hst', hs⟩ := h.same.symm.step hst hp
        refine ⟨srvAddr, q', r'.snoc e hst', ?_, hs.symm, ?_⟩
        · simp [Run.events, h.events, hp]
        · have hcalls := h.same.symm.calls hs hst hst' hp
          have hi := h.issued
          simp only [issued, Run.steps, List.flatMap_append] at hi ⊢
          simp [hi, hcalls]

namespace Both

open Overlap

def accepted₂  : Event := ⟨.accept 2, .success, [], 0⟩
def connected₂ : Event := ⟨.connect srvAddr 2 3, .success, [], 0⟩
def received₂  : Event := ⟨.read .toServer 2 3 10 true, .success, [97], 0⟩

def p₂ := (p₁.complete accepted₂.operation).accepted 2 srvAddr
def p₃ := (p₂.complete connected₂.operation).connectToServerHandler 2 3 .success
def p₄ := ((p₃.complete received₂.operation).deliver .toServer 2 3 [97]).recvClientMessageHandler
  2 3 .success 1
def p₅ := (p₄.complete connected.operation).connectToServerHandler 0 1 .success

theorem step₂ : Step isLocal p₁ accepted₂ p₂ :=
  ⟨by decide, rfl⟩

theorem step₃ : Step isLocal p₂ connected₂ p₃ :=
  ⟨by decide, rfl⟩

theorem step₄ : Step isLocal p₃ received₂ p₄ :=
  ⟨by decide, rfl⟩

theorem step₅ : Step isLocal p₄ connected p₅ :=
  ⟨by decide, rfl⟩

def run : Run (Step isLocal) p₀ p₅ :=
  .snoc (.snoc (.snoc (.snoc (.snoc .refl _ step₁) _ step₂) _ step₃) _ step₄) _ step₅

end Both

theorem run_isolated_of_both : ∃ (srvAddr : ServerAddress) (q : ProxyServer)
    (r' : Run (Step Overlap.isLocal) (single ⟨[Overlap.srvAddr]⟩ 0 1 srvAddr) q),
      Isolated Both.run 0 1 srvAddr r' :=
  run_isolated Both.run rfl

end Proxy
