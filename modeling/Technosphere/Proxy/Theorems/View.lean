import Technosphere.Proxy.Theorems.Connections

namespace Proxy

open ProxyServer

variable {p p' p'' q : ProxyServer} {c s c' s' k : ℕ} {d : Direction} {o : Operation} {e : Event}
  {bytes : List UInt8} {validIp : String → Bool}

-- The two states agree in what belongs to the connection of these two sockets.
structure Same (c s : ℕ) (p q : ProxyServer) : Prop where
  entry    : q.clients.find? c = p.clients.find? c
  pending  : q.pending.filter (·.pair = some (c, s)) = p.pending.filter (·.pair = some (c, s))
  closed   : ∀ k, k = c ∨ k = s → q.closed k = p.closed k
  received : ∀ k, k = c ∨ k = s → q.received k = p.received k
  handed   : ∀ k, k = c ∨ k = s → q.handed k = p.handed k

namespace Same

theorem trans (h₁ : Same c s p p') (h₂ : Same c s p' p'') : Same c s p p'' where
  entry    := h₂.entry.trans h₁.entry
  pending  := h₂.pending.trans h₁.pending
  closed   := fun k hk => (h₂.closed k hk).trans (h₁.closed k hk)
  received := fun k hk => (h₂.received k hk).trans (h₁.received k hk)
  handed   := fun k hk => (h₂.handed k hk).trans (h₁.handed k hk)

theorem symm (h : Same c s p q) : Same c s q p where
  entry    := h.entry.symm
  pending  := h.pending.symm
  closed   := fun k hk => (h.closed k hk).symm
  received := fun k hk => (h.received k hk).symm
  handed   := fun k hk => (h.handed k hk).symm

theorem buffer (h : Same c s p q) : q.buffer c = p.buffer c :=
  congrArg (·.getD .new) h.entry

theorem mem_pending (h : Same c s p q) (hp : o.pair = some (c, s)) :
    o ∈ q.pending ↔ o ∈ p.pending := by
  have hm : o ∈ q.pending.filter (·.pair = some (c, s)) ↔
      o ∈ p.pending.filter (·.pair = some (c, s)) := by
    rw [h.pending]
  simpa [hp] using hm

section Other

theorem complete_of_ne (hp : o.pair ≠ some (c, s)) : Same c s p (p.complete o) where
  entry    := rfl
  pending  := by
    rw [ProxyServer.complete, ← List.erase_filter]
    exact List.erase_of_not_mem (by simp [hp])
  closed   := fun _ _ => rfl
  received := fun _ _ => rfl
  handed   := fun _ _ => rfl

theorem of_frame (hf : Frame c' s' p p') (hc : c ≠ c' ∧ c ≠ s') (hs : s ≠ c' ∧ s ≠ s') :
    Same c s p p' := by
  have hk : ∀ k, k = c ∨ k = s → k ≠ c' ∧ k ≠ s' := by
    rintro k (rfl | rfl)
    · exact hc
    · exact hs
  constructor
  case entry    => exact hf.clients c hc.1
  case pending  =>
    have ⟨os, he, ho⟩ := hf.pending
    have hn : os.filter (·.pair = some (c, s)) = [] := by
      rw [List.filter_eq_nil_iff]
      intro o hm
      simp [ho o hm, hc.1.symm]
    rw [he, List.filter_append, hn, List.append_nil]
  case closed   => exact fun k h => hf.closed k (hk k h).1 (hk k h).2
  case received => exact fun k h => hf.received k (hk k h).1 (hk k h).2
  case handed   => exact fun k h => hf.handed k (hk k h).1 (hk k h).2

theorem accepted {srvAddr : ServerAddress} (hc : c ≠ c') : Same c s p (p.accepted c' srvAddr) where
  entry    := by simp [ProxyServer.accepted, SortedMap.find?_insert, hc]
  pending  := by simp [ProxyServer.accepted, Operation.pair, hc.symm]
  closed   := fun _ _ => rfl
  received := fun _ _ => rfl
  handed   := fun _ _ => rfl

theorem reject (hc : c ≠ c') (hs : s ≠ c') :
    Same c s p ({ p with clients := p.clients.erase c' }.close c') where
  entry    := by simp [close, hc]
  pending  := rfl
  closed   := by
    rintro k (rfl | rfl)
    · simp [close, hc]
    · simp [close, hs]
  received := fun _ _ => rfl
  handed   := fun _ _ => rfl

end Other

end Same

theorem Invariant.distinct_of_ne (h : Invariant p) (hc : p.server c = some s)
    (hc' : p.server c' = some s') (hne : some (c', s') ≠ some (c, s)) :
    (c ≠ c' ∧ c ≠ s') ∧ s ≠ c' ∧ s ≠ s' := by
  have hcc : c ≠ c' := by
    rintro rfl
    obtain rfl := Option.some.inj (hc'.symm.trans hc)
    exact hne rfl
  have ⟨h₁, h₂⟩ := h.distinct _ _ _ _ hc hc'
  have ⟨h₃, _⟩  := h.distinct _ _ _ _ hc' hc
  exact ⟨⟨hcc, h₁⟩, h₃.symm, mt h₂ hcc⟩

theorem Invariant.same_of_ne (h : Invariant p) (hst : Step validIp p e p')
    (hc : p.server c = some s) (hp : e.operation.pair ≠ some (c, s)) :
    Same c s p p' ∧ p'.server c = some s := by
  have ho : Same c s p (p.complete e.operation) := .complete_of_ne hp
  cases he : e.operation.pair with
  | some cs =>
    have ⟨hc', hf⟩ := h.exec_frame hst he
    have ⟨h₁, h₂⟩ := h.distinct_of_ne hc hc' (he ▸ hp)
    exact ⟨ho.trans (.of_frame hf h₁ h₂), (congrFun hf.server c).trans hc⟩
  | none =>
    rcases hst.accept_cases he with ⟨k, srvAddr, hk, _, rfl⟩ | ⟨k, hk, _, rfl⟩
    · have ⟨hck, _⟩ := (h.waiting k (hk ▸ hst.1.1)).2.ne hc
      exact ⟨ho.trans (.accepted hck), (Function.update_of_ne hck ..).trans hc⟩
    · have ⟨hck, hsk⟩ := (h.waiting k (hk ▸ hst.1.1)).2.ne hc
      exact ⟨ho.trans (.reject hck hsk), hc⟩

def ProxyServer.single (config : ConfigProxy) (clientSock serverSock : ℕ)
    (srvAddr : ServerAddress) : ProxyServer :=
  let p := (init config).touch clientSock
  { p with server := Function.update p.server clientSock (some serverSock) }.start
    (.connect srvAddr clientSock serverSock)

theorem Same.single_accepted {srvAddr : ServerAddress} (h : Invariant p)
    (hm : .accept c ∈ p.pending) : Same c p.nextSocket
      (single p.config c p.nextSocket srvAddr) ((p.complete (.accept c)).accepted c srvAddr) := by
  have ⟨_, hu⟩ := h.waiting c hm
  have hn := h.fresh _ le_rfl
  constructor
  case entry    =>
    simp [ProxyServer.accepted, ProxyServer.complete, single, touch, ProxyServer.start,
      SortedMap.find?_insert, hu.entry, init]
  case pending  =>
    have ho : (p.complete (.accept c)).pending.filter
        (·.pair = some (c, p.nextSocket)) = [] := by
      rw [List.filter_eq_nil_iff]
      intro o hm hp
      have hc := h.paired o (List.mem_of_mem_erase hm) c p.nextSocket (by simpa using hp)
      simp [hu.client] at hc
    rw [ProxyServer.accepted, List.filter_append, ho]
    rfl
  case closed   =>
    rintro k (rfl | rfl)
    · exact hu.closed
    · exact hn.closed
  case received =>
    rintro k (rfl | rfl)
    · exact hu.received
    · exact hn.received
  case handed   =>
    rintro k (rfl | rfl)
    · exact hu.handed
    · exact hn.handed

theorem Invariant.same_single (h : Invariant p) (hst : Step validIp p e p')
    (hc : p.server c ≠ some s) (hc' : p'.server c = some s) :
    ∃ srvAddr, e.operation = .accept c ∧ e.err = .success ∧
      p' = (p.complete e.operation).accepted c srvAddr ∧
      Same c s (single p.config c s srvAddr) p' := by
  cases hp : e.operation.pair with
  | some cs => exact absurd ((congrFun (hst.frame hp).server c).symm.trans hc') hc
  | none =>
    rcases hst.accept_cases hp with ⟨k, srvAddr, ho, he, rfl⟩ | ⟨k, _, _, rfl⟩
    · by_cases hk : c = k
      case pos =>
        subst hk
        rw [ho] at hc' ⊢
        obtain rfl : p.nextSocket = s := by
          simpa [ProxyServer.accepted, ProxyServer.complete] using hc'
        exact ⟨srvAddr, rfl, he, rfl, .single_accepted h (ho ▸ hst.1.1)⟩
      case neg => exact absurd ((Function.update_of_ne hk ..).symm.trans hc') hc
    · exact absurd hc' hc

namespace Invariant

theorem mem_pending (h : Invariant p) (hst : Step validIp p e p') (ho : o ∈ p.pending)
    (hne : o ≠ e.operation) : o ∈ p'.pending := by
  have hm : o ∈ (p.complete e.operation).pending := (List.mem_erase_of_ne hne).mpr ho
  cases hp : e.operation.pair with
  | some cs =>
    have ⟨os, he, _⟩ := (h.exec_frame hst hp).2.pending
    exact he ▸ List.mem_append_left _ hm
  | none =>
    rcases hst.accept_cases hp with ⟨_, _, _, _, rfl⟩ | ⟨_, _, _, rfl⟩
    · exact List.mem_append_left _ hm
    · exact hm

theorem closed_mono (h : Invariant p) (hst : Step validIp p e p') (hc : p.closed c) :
    p'.closed c := by
  cases hp : e.operation.pair with
  | some cs => exact (h.exec_frame hst hp).2.shut c hc
  | none =>
    rcases hst.accept_cases hp with ⟨_, _, _, _, rfl⟩ | ⟨sock, _, _, rfl⟩
    · exact hc
    · by_cases hs : c = sock <;> simp [close, hs]
      exact hc

theorem server_mono (h : Invariant p) (hst : Step validIp p e p') (hc : p.server c = some s) :
    p'.server c = some s := by
  by_cases hp : e.operation.pair = some (c, s)
  case pos => exact (congrFun (hst.frame hp).server c).trans hc
  case neg => exact (h.same_of_ne hst hc hp).2

theorem run {config : ConfigProxy} (r : Run (Step validIp) (init config).run p) : Invariant p :=
  r.invariant (.initial config) .step

end Invariant

end Proxy
