import Technosphere.Lib.Relay
import Technosphere.Proxy.Theorems.Connections

namespace Proxy

open ProxyServer

variable {p p' : ProxyServer} {c s c' s' : ℕ} {d d' : Direction} {bytes : List UInt8} {e : Event}
  {validIp : String → Bool}

namespace ProxyServer

def relay (p : ProxyServer) (d : Direction) (clientSock serverSock : ℕ) : Relay UInt8 where
  received := p.received (d.source clientSock serverSock)
  held     := ((p.buffer clientSock).channel d).buf
  handed   := p.handed (d.sink clientSock serverSock)

theorem recvMessage_relay : (p.recvMessage d' c s).relay d c s = p.relay d c s := by
  simp only [relay, recvMessage_buffer]
  rfl

theorem sendMessage_relay {last : Bool} (h : p.closed (d.sink c s) = false) :
    (p.sendMessage d c s last).relay d c s =
      { p.relay d c s with handed := (p.relay d c s).handed ++ (p.relay d c s).held } := by
  have hh : (p.sendMessage d c s last).handed (d.sink c s) =
      p.handed (d.sink c s) ++ ((p.buffer c).channel d).buf := by
    have : (p.sendMessage d c s last).handed =
        ((p.touch c).hand (d.sink c s) (((p.touch c).buffer c).channel d).buf).handed := rfl
    rw [this, buffer_touch]
    exact hand_handed (p := p.touch c) h
  simp only [relay, sendMessage_buffer, sendMessage_received, hh]

theorem arrive_relay (h : p.closed (d.source c s) = false) :
    (p.arrive d c s bytes).relay d c s = { p.relay d c s with
      received := (p.relay d c s).received ++ bytes
      held     := (p.relay d c s).held ++ bytes } := by
  have hr : (p.arrive d c s bytes).received (d.source c s) =
      p.received (d.source c s) ++ bytes := by
    rw [arrive_received, Function.update_self]
  have hh : (p.arrive d c s bytes).handed = p.handed := deliver_handed
  simp only [relay, arrive_buf h, hr, hh]

theorem arrive_sendMessage_relay {last : Bool} (hc : p.closed c = false) (hs : p.closed s = false) :
    ((p.arrive d c s bytes).sendMessage d c s last).relay d c s =
      (p.relay d c s).forward bytes := by
  have ht : p.closed c = p.closed s := hc.trans hs.symm
  have hcl : (p.arrive d c s bytes).closed (d.sink c s) = false := by
    rw [arrive_closed, Direction.closed_sink ht, hc]
  rw [sendMessage_relay hcl, arrive_relay ((Direction.closed_source ht).trans hc)]
  rfl

theorem arrive_sendMessage_received_of_ne (last : Bool) (hcs : c ≠ s) (hd : d' ≠ d) :
    ((p.arrive d' c s bytes).sendMessage d' c s last).received (d.source c s) =
      p.received (d.source c s) := by
  rw [sendMessage_received, arrive_received, Function.update_of_ne (Direction.source_ne hcs hd)]

theorem arrive_sendMessage_handed_of_ne (last : Bool) (hcs : c ≠ s) (hd : d' ≠ d) :
    ((p.arrive d' c s bytes).sendMessage d' c s last).handed (d.sink c s) =
      p.handed (d.sink c s) := by
  have hh : (p.arrive d' c s bytes).handed = p.handed := deliver_handed
  rw [← hh]
  exact hand_handed_of_ne (Direction.sink_ne hcs hd)

end ProxyServer

-- A read that has not failed finds the buffer of its direction empty, unless the connection has
-- been terminated.
def Event.FindsEmpty (d : Direction) (clientSock serverSock : ℕ) (p : ProxyServer) (e : Event) :
    Prop :=
  ∀ size live, e.operation = .read d clientSock serverSock size live → e.err ≠ .failure →
    p.closed clientSock = false → ((p.buffer clientSock).channel d).buf = []

structure Delivered (d : Direction) (c s : ℕ) (p : ProxyServer) : Prop where
  faithful : (p.relay d c s).Faithful
  upToDate : p.closed c = false → (p.relay d c s).UpToDate

namespace Delivered

theorem of_eq (h : Delivered d c s p) (hc : p.closed c → p'.closed c)
    (hr : p'.received (d.source c s) = p.received (d.source c s))
    (hh : p'.handed (d.sink c s) = p.handed (d.sink c s)) : Delivered d c s p' where
  faithful := h.faithful.of_prefix hh (by simp [relay, hr])
  upToDate := by
    intro ho
    have hu := h.upToDate (by simpa [ho] using hc)
    exact (hh.trans hu).trans hr.symm

theorem frame_closed (h : Delivered d c s p) (hf : Frame c s p p') (hc : p.closed c)
    (hs : p.closed s) : Delivered d c s p' where
  faithful := h.faithful.of_prefix (hf.silent _ (by cases d <;> assumption)) (hf.grows _)
  upToDate := by simp [hf.shut c hc]

theorem frame_other (h : Delivered d c s p) (hi : Invariant p) (hc : p.server c = some s)
    (hc' : p.server c' = some s') (hcc : c' ≠ c) (hf : Frame c' s' p p') :
    Delivered d c s p' := by
  have ⟨h₁, _⟩  := hi.distinct _ _ _ _ hc hc'
  have ⟨h₂, hn⟩ := hi.distinct _ _ _ _ hc' hc
  have h₃ : s' ≠ s := mt hn hcc
  apply h.of_eq (hf.shut c)
  · cases d
    · exact hf.received c hcc.symm h₁
    · exact hf.received s h₂.symm h₃.symm
  · cases d
    · exact hf.handed s h₂.symm h₃.symm
    · exact hf.handed c hcc.symm h₁

theorem handled (h : Delivered d c s p) (hcs : c ≠ s) (hc : p.closed c = false)
    (hs : p.closed s = false) (hh : Handled c s p e p') (he : e.FindsEmpty d c s p) :
    Delivered d c s p' := by
  have hcl : p.closed c → p'.closed c := hh.frame.shut c
  cases hh with
  | terminated _ eq => exact h.of_eq hcl (eq ▸ rfl) (eq ▸ rfl)
  | connected _ _ _ eq => exact h.of_eq hcl (eq ▸ rfl) (eq ▸ rfl)
  | sent _ _ _ _ _ eq => exact h.of_eq hcl (eq ▸ rfl) (eq ▸ rfl)
  | received d' size live operation err eq =>
    by_cases hd : d' = d
    case pos =>
      subst hd
      have hn : (p.relay d' c s).held = [] := he size live operation (by simp [err]) hc
      have hu : ((p.relay d' c s).forward e.bytes).UpToDate := (h.upToDate hc).forward hn
      have hr : p'.relay d' c s = (p.relay d' c s).forward e.bytes := by
        rw [eq, recvMessage_relay]
        exact arrive_sendMessage_relay (p := p.complete e.operation) hc hs
      rw [← hr] at hu
      exact ⟨hu.faithful, fun _ => hu⟩
    case neg =>
      exact h.of_eq hcl (eq ▸ arrive_sendMessage_received_of_ne false hcs hd)
        (eq ▸ arrive_sendMessage_handed_of_ne false hcs hd)
  | ended d' size live operation err held eq =>
    have hd : d' ≠ d := by
      rintro rfl
      exact held (he size live operation (by simp [err]) hc)
    exact h.of_eq hcl (eq ▸ arrive_sendMessage_received_of_ne true hcs hd)
      (eq ▸ arrive_sendMessage_handed_of_ne true hcs hd)

theorem step_of_pair (h : Delivered d c s p) (hi : Invariant p) (hst : Step validIp p e p')
    (hp : e.operation.pair = some (c, s)) (he : e.FindsEmpty d c s p) : Delivered d c s p' := by
  have ⟨hc, hf⟩ := hi.exec_frame hst hp
  have ht := hi.together c s hc
  by_cases hcl : p.closed c
  case pos =>
    have h : Delivered d c s (p.complete e.operation) := { h with }
    exact h.frame_closed hf hcl (ht ▸ hcl)
  case neg =>
    have ho : p.closed c = false := by simpa using hcl
    exact h.handled (hi.distinct _ _ _ _ hc hc).1 ho (ht ▸ ho) (hst.cases hp) he

theorem accept (h : p.server c = some s → Delivered d c s p) (hi : Invariant p)
    (hst : Step validIp p e p') (hp : e.operation.pair = none) (hc : p'.server c = some s) :
    Delivered d c s p' := by
  rcases hst.accept_cases hp with ⟨sock, srvAddr, ho, _, rfl⟩ | ⟨sock, _, _, rfl⟩
  · simp only [accepted, Function.update_apply] at hc
    split_ifs at hc with hcs
    case neg => exact (h hc).of_eq id rfl rfl
    case pos =>
      subst hcs
      obtain rfl := Option.some.inj hc
      obtain ⟨_, hu⟩ := hi.waiting c (ho ▸ hst.1.1)
      have hn := hi.fresh _ le_rfl
      have : Relay.UpToDate (((p.complete e.operation).accepted c
          srvAddr).relay d c p.nextSocket) := by
        cases d
        · exact hn.handed.trans hu.received.symm
        · exact hu.handed.trans hn.received.symm
      exact ⟨this.faithful, fun _ => this⟩
  · refine (h hc).of_eq (fun hk => ?_) rfl rfl
    simp only [close, Function.update_apply]
    split_ifs
    · rfl
    · exact hk

theorem step (h : p.server c = some s → Delivered d c s p) (hi : Invariant p)
    (hst : Step validIp p e p') (he : e.FindsEmpty d c s p) (hc : p'.server c = some s) :
    Delivered d c s p' := by
  cases hp : e.operation.pair with
  | none     => exact accept h hi hst hp hc
  | some cs' =>
    obtain ⟨c', s'⟩ := cs'
    obtain ⟨hc', hf⟩ := hi.exec_frame hst hp
    rw [hf.server] at hc
    by_cases hcc : c' = c
    case pos =>
      subst hcc
      obtain rfl := Option.some.inj (hc'.symm.trans hc)
      exact (h hc).step_of_pair hi hst hp he
    case neg =>
      have h : Delivered d c s (p.complete e.operation) := { h hc with }
      exact h.frame_other hi.complete hc hc' hcc hf

-- A read that finds something in the buffer hands it on for the second time.
theorem findsEmpty (h : p.server c = some s → Delivered d c s p) (hi : Invariant p)
    (hst : Step validIp p e p') (hq : p'.server c = some s → (p'.relay d c s).Faithful) :
    e.FindsEmpty d c s p := by
  intro size live ho hf hcl
  have hp : e.operation.pair = some (c, s) := by rw [ho, Operation.pair]
  obtain ⟨hc, hfr⟩ := hi.exec_frame hst hp
  have hsl : p.closed s = false := hi.together c s hc ▸ hcl
  have hq := hq (hfr.server ▸ hc)
  by_contra hn
  have hr : ∃ bytes, p'.relay d c s = (p.relay d c s).forward bytes := by
    cases hst.cases hp with
    | terminated terminates _ => simp [Event.terminates, ho, hf, hn] at terminates
    | connected _ operation _ _ => simp [ho] at operation
    | sent _ _ _ operation _ _ => simp [ho] at operation
    | received d' _ _ operation _ eq =>
      obtain ⟨rfl, -⟩ : d = d' ∧ _ := by simpa [ho] using operation
      rw [eq, recvMessage_relay]
      exact ⟨_, arrive_sendMessage_relay (p := p.complete e.operation) hcl hsl⟩
    | ended d' _ _ operation _ _ eq =>
      obtain ⟨rfl, -⟩ : d = d' ∧ _ := by simpa [ho] using operation
      rw [eq]
      exact ⟨_, arrive_sendMessage_relay (p := p.complete e.operation) hcl hsl⟩
  obtain ⟨bytes, hr⟩ := hr
  exact hn (((h hc).upToDate hcl).held_eq_nil (hr ▸ hq))

end Delivered

theorem forwardsInOrder_iff {config : ConfigProxy} (r : Run (Step validIp) (init config).run p)
    (d : Direction) (c s : ℕ) :
    (∀ q ∈ r.states, q.server c = some s →
      q.handed (d.sink c s) <+: q.received (d.source c s)) ↔
    ∀ q ∈ r.steps, q.2.FindsEmpty d c s q.1 := by
  apply r.states_iff_steps (P := fun q => Invariant q ∧ (q.server c = some s → Delivered d c s q))
  case hi  => exact ⟨Invariant.initial config, by simp [run, init, newSocket, acceptClient, start]⟩
  case hpq => exact fun h hc => (h.2 hc).faithful
  case hs  => exact fun h he hst => ⟨h.1.step hst, Delivered.step h.2 h.1 hst he⟩
  case hc  => exact fun h hq hst => Delivered.findsEmpty h.2 h.1 hst hq

-- The client sends two bytes, and the second one is read before the first one has been sent.
namespace Overlap

def srvAddr : ServerAddress := ⟨"127.0.0.1", 80⟩

def isLocal (ip : String) : Bool := ip = "127.0.0.1"

def accepted  : Event := ⟨.accept 0, .success, [], 0⟩
def connected : Event := ⟨.connect srvAddr 0 1, .success, [], 0⟩
def read₁     : Event := ⟨.read .toServer 0 1 10 true, .success, [97], 0⟩
def read₂     : Event := ⟨.read .toServer 0 1 10 true, .success, [98], 0⟩

def p₀ := (init ⟨[srvAddr]⟩).run
def p₁ := (p₀.complete accepted.operation).accepted 0 srvAddr
def p₂ := (p₁.complete connected.operation).connectToServerHandler 0 1 .success
def p₃ := ((p₂.complete read₁.operation).deliver .toServer 0 1 [97]).recvClientMessageHandler 0 1
  .success 1
def p₄ := ((p₃.complete read₂.operation).deliver .toServer 0 1 [98]).recvClientMessageHandler 0 1
  .success 1

theorem step₁ : Step isLocal p₀ accepted p₁ :=
  ⟨by decide, rfl⟩

theorem step₂ : Step isLocal p₁ connected p₂ :=
  ⟨by decide, rfl⟩

theorem step₃ : Step isLocal p₂ read₁ p₃ :=
  ⟨by decide, rfl⟩

theorem step₄ : Step isLocal p₃ read₂ p₄ :=
  ⟨by decide, rfl⟩

def run : Run (Step isLocal) p₀ p₄ :=
  .snoc (.snoc (.snoc (.snoc .refl _ step₁) _ step₂) _ step₃) _ step₄

end Overlap

theorem not_forwardsInOrder_of_overlap : ¬ ∀ (validIp : String → Bool) (config : ConfigProxy)
    (p : ProxyServer) (r : Run (Step validIp) (init config).run p) (d : Direction) (c s : ℕ),
    ∀ q ∈ r.states, q.server c = some s →
      q.handed (d.sink c s) <+: q.received (d.source c s) := by
  intro h
  have hp : Overlap.p₄.handed 1 <+: Overlap.p₄.received 0 :=
    h Overlap.isLocal _ _ Overlap.run .toServer 0 1 _ (Run.last_mem_states _) rfl
  have hh : Overlap.p₄.handed 1 = [97, 97, 98] := rfl
  have hr : Overlap.p₄.received 0 = [97, 98] := rfl
  rw [hh, hr] at hp
  exact absurd hp (by decide)

end Proxy
