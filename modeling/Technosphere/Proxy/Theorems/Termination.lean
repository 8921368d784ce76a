import Technosphere.Proxy.Theorems.Forwarding
import Technosphere.Proxy.Theorems.View

namespace Proxy

open ProxyServer

variable {p p' p'' : ProxyServer} {c s c' s' : ℕ} {d : Direction} {o : Operation} {e : Event}
  {validIp : String → Bool}

def Operation.live : Operation → Bool
  | accept _ | connect ..                     => true
  | read _ _ _ _ live | write _ _ _ _ _ live => live

structure StaysTerminated (c s : ℕ) (p : ProxyServer) : Prop where
  entry : p.clients.find? c = none
  live  : ∀ o ∈ p.pending, o.pair = some (c, s) → o.live

-- After the termination of a connection its handlers are called with an error, which may be that
-- the end of the stream has been reached, or for the last write.
def Event.Winds (c s : ℕ) (p : ProxyServer) (e : Event) : Prop :=
  e.operation.pair = some (c, s) → p.closed c → e.err = .success →
    ∃ d bytes live, e.operation = .write d c s bytes true live

structure Starts (live : Bool) (p p' : ProxyServer) : Prop where
  closed  : p'.closed = p.closed
  pending : ∀ o ∈ p'.pending, o ∈ p.pending ∨ o.live = live

namespace Starts

variable {live last : Bool} {bytes : List UInt8}

theorem trans (h₁ : Starts live p p') (h₂ : Starts live p' p'') : Starts live p p'' where
  closed  := h₂.closed.trans h₁.closed
  pending := fun o ho => (h₂.pending o ho).elim (h₁.pending o) .inr

theorem modify {f : Channel → Channel} : Starts live p (p.modify c d f) where
  closed  := rfl
  pending := fun _ => .inl

theorem arrive : Starts live p (p.arrive d c s bytes) where
  closed  := arrive_closed
  pending := fun _ ho => .inl (arrive_pending ▸ ho)

theorem recvMessage (hl : p.closed (d.source c s) = !live) :
    Starts live p (p.recvMessage d c s) where
  closed  := rfl
  pending := by
    intro o ho
    have ⟨size, hp⟩ := recvMessage_pending (p := p) (d := d) (c := c) (s := s)
    rw [hp, List.mem_append, List.mem_singleton] at ho
    exact ho.imp_right fun he => by simp [he, Operation.live, hl]

theorem sendMessage (hl : p.closed (d.sink c s) = !live) :
    Starts live p (p.sendMessage d c s last) where
  closed  := sendMessage_closed
  pending := by
    intro o ho
    rw [sendMessage_pending, List.mem_append, List.mem_singleton] at ho
    exact ho.imp_right fun he => by simp [he, Operation.live, hl]

end Starts

namespace Handled

theorem starts (h : Handled c s p e p') (ht : p.closed c = p.closed s) :
    p' = (p.complete e.operation).terminateClientServerConnection c s ∨
      Starts (!p.closed c) (p.complete e.operation) p' := by
  have hs : ∀ q : ProxyServer, q.closed = p.closed → ∀ d : Direction,
      q.closed (d.source c s) = !!p.closed c ∧ q.closed (d.sink c s) = !!p.closed c := by
    intro q hq d
    rw [hq, Bool.not_not, Direction.closed_source ht, Direction.closed_sink ht]
    exact ⟨rfl, rfl⟩
  have ha : ∀ d bytes, ((p.complete e.operation).arrive d c s bytes).closed = p.closed :=
    fun _ _ => arrive_closed
  cases h with
  | terminated _ eq      => exact .inl eq
  | sent _ _ _ _ _ eq    =>
    subst eq
    exact .inr .modify
  | connected _ _ _ eq   =>
    subst eq
    exact .inr (.trans (.recvMessage (hs _ rfl _).1) (.recvMessage (hs _ rfl _).1))
  | received _ _ _ _ _ eq =>
    subst eq
    refine .inr (.trans (.trans .arrive (.sendMessage (hs _ (ha ..) _).2)) (.recvMessage ?_))
    exact (hs _ (sendMessage_closed.trans (ha ..)) _).1
  | ended _ _ _ _ _ _ eq =>
    subst eq
    exact .inr (.trans .arrive (.sendMessage (hs _ (ha ..) _).2))

end Handled

-- What a connection satisfies before and after its termination.
structure Terminable (c s : ℕ) (p : ProxyServer) : Prop where
  live  : ∀ o ∈ p.pending, o.pair = some (c, s) → o.live
  entry : p.closed c → p.clients.find? c = none

namespace Terminable

theorem of_same (h : Terminable c s p) (hs : Same c s p p') : Terminable c s p' where
  live  := fun o ho hp => h.live o ((hs.mem_pending hp).mp ho) hp
  entry := fun hc => hs.entry.trans (h.entry (hs.closed c (.inl rfl) ▸ hc))

theorem single {config : ConfigProxy} {srvAddr : ServerAddress} :
    Terminable c s (single config c s srvAddr) where
  live  := by
    intro o ho _
    obtain rfl := List.mem_singleton.mp ho
    rfl
  entry := by simp [ProxyServer.single, ProxyServer.start, touch, init]

theorem terminate (h : Terminable c s p) :
    Terminable c s (p.terminateClientServerConnection c s) where
  live  := h.live
  entry := fun _ => by simp [terminateClientServerConnection, close]

theorem complete (h : Terminable c s p) : Terminable c s (p.complete o) where
  live  := fun o ho => h.live o (List.mem_of_mem_erase ho)
  entry := h.entry

theorem handled_closed (h : Terminable c s p) (hc : p.closed c) (hw : e.Winds c s p)
    (hp : e.operation.pair = some (c, s)) (hh : Handled c s p e p') :
    p' = (p.complete e.operation).terminateClientServerConnection c s := by
  have hw := hw hp hc
  cases hh with
  | terminated _ eq                => exact eq
  | connected _ operation err _    => simp [operation, err] at hw
  | received _ _ _ operation err _ => simp [operation, err] at hw
  | sent _ _ _ operation err _     => simp [operation, err] at hw
  | ended d _ _ _ _ held _         =>
    have hn : ((p.buffer c).channel d).buf = [] := by
      rw [buffer, h.entry hc]
      cases d <;> rfl
    exact absurd hn held

theorem handled (h : Terminable c s p) (ht : p.closed c = p.closed s) (hw : e.Winds c s p)
    (hp : e.operation.pair = some (c, s)) (hh : Handled c s p e p') : Terminable c s p' := by
  by_cases hc : p.closed c
  case pos => exact h.handled_closed hc hw hp hh ▸ h.complete.terminate
  case neg =>
    rcases hh.starts ht with rfl | hs
    · exact h.complete.terminate
    · have ho : p.closed c = false := by simpa using hc
      rw [ho] at hs
      constructor
      case live  =>
        intro o hm hp
        exact (hs.pending o hm).elim (h.complete.live o · hp) id
      case entry =>
        rw [hs.closed]
        exact fun hc' => absurd hc' hc

theorem winds (ht : p.closed c = p.closed s) (hh : Handled c s p e p')
    (hq : p'.closed c → StaysTerminated c s p') : e.Winds c s p := by
  intro hp hc he
  have hn : ∀ {q : ProxyServer} {d : Direction}, q.closed = p.closed →
      p' ≠ q.recvMessage d c s := by
    rintro q d hq' rfl
    have ⟨size, ho⟩ := recvMessage_pending (p := q) (d := d) (c := c) (s := s)
    have hl := (hq (hq' ▸ hc)).live _ (ho ▸ List.mem_append_right _ (List.mem_singleton_self _)) rfl
    rw [hq'] at hl
    simp [Operation.live, Direction.closed_source ht, hc] at hl
  cases hh with
  | terminated terminates _   =>
    cases ho : e.operation with
    | accept sock => simp [ho, Operation.pair] at hp
    | connect | read => simp [Event.terminates, ho, he] at terminates
    | write d c' s' bytes last live =>
      simp only [ho, Operation.pair, Option.some.injEq, Prod.mk.injEq] at hp
      obtain ⟨rfl, rfl⟩ := hp
      obtain rfl : last = true := by simpa [Event.terminates, ho, he] using terminates
      exact ⟨d, bytes, live, rfl⟩
  | connected _ _ _ eq        => exact absurd eq (hn rfl)
  | received _ _ _ _ _ eq     => exact absurd eq (hn (sendMessage_closed.trans arrive_closed))
  | ended _ _ _ _ err _ _     => simp [err] at he
  | sent d _ _ _ _ eq         =>
    have hf := (hq (eq ▸ hc)).entry
    rw [eq] at hf
    simp [ProxyServer.modify] at hf

end Terminable

theorem run_staysTerminated_iff {config : ConfigProxy}
    (r : Run (Step validIp) (init config).run p) (c s : ℕ) :
    (∀ q ∈ r.states, q.server c = some s → q.closed c → StaysTerminated c s q) ↔
      ∀ q ∈ r.steps, q.2.Winds c s q.1 := by
  apply r.states_iff_steps (P := fun q => Invariant q ∧ (q.server c = some s → Terminable c s q))
    (C := fun q e => e.Winds c s q)
  case hi  => exact ⟨.initial config, by simp [run, init, newSocket, acceptClient, start]⟩
  case hpq => exact fun h hc hcl => ⟨(h.2 hc).entry hcl, (h.2 hc).live⟩
  case hs  =>
    rintro q e q' ⟨hi, hq⟩ hw hst
    refine ⟨hi.step hst, fun hc' => ?_⟩
    by_cases hc : q.server c = some s
    case neg =>
      obtain ⟨_, _, _, _, hs⟩ := hi.same_single hst hc hc'
      exact Terminable.single.of_same hs
    case pos =>
      by_cases hp : e.operation.pair = some (c, s)
      case pos => exact (hq hc).handled (hi.together c s hc) hw hp (hst.cases hp)
      case neg => exact (hq hc).of_same (hi.same_of_ne hst hc hp).1
  case hc  =>
    rintro q e q' ⟨hi, hq⟩ hq' hst hp
    obtain ⟨hc, hf⟩ := hi.exec_frame hst hp
    have hq' := hq' ((congrFun hf.server c).trans hc)
    exact Terminable.winds (hi.together c s hc) (hst.cases hp) hq' hp

-- The read from the server fails after the read from the client has completed, but the handler of
-- the read from the client is called last.
namespace Late

open Overlap

def failed : Event := ⟨.read .toClient 0 1 10 true, .failure, [], 0⟩
def late   : Event := ⟨.read .toServer 0 1 10 true, .success, [97], 0⟩

def p₃ := ((p₂.complete failed.operation).deliver .toClient 0 1 []).recvServerMessageHandler 0 1
  .failure 0
def p₄ := ((p₃.complete late.operation).deliver .toServer 0 1 [97]).recvClientMessageHandler 0 1
  .success 1

theorem step₃ : Step isLocal p₂ failed p₃ :=
  ⟨by decide, rfl⟩

theorem step₄ : Step isLocal p₃ late p₄ :=
  ⟨by decide, rfl⟩

def run : Run (Step isLocal) p₀ p₄ :=
  .snoc (.snoc (.snoc (.snoc .refl _ step₁) _ step₂) _ step₃) _ step₄

end Late

theorem not_staysTerminated_of_late : ¬∀ (validIp : String → Bool) (config : ConfigProxy)
    (p : ProxyServer) (r : Run (Step validIp) (init config).run p) (c s : ℕ),
    ∀ q ∈ r.states, q.server c = some s → q.closed c → StaysTerminated c s q := by
  intro h
  have hs : StaysTerminated 0 1 Late.p₄ :=
    h Overlap.isLocal _ _ Late.run 0 1 _ (Run.last_mem_states _) rfl rfl
  have he : (Late.p₄.clients.find? 0).isSome := by decide
  simp [hs.entry] at he

end Proxy
