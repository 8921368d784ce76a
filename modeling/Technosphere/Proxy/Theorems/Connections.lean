import Technosphere.Proxy.Theorems.Handlers

namespace Proxy

open ProxyServer

variable {p p' p'' : ProxyServer} {c s c' s' k : ℕ} {d : Direction} {o : Operation}
  {bytes : List UInt8} {e : Event} {validIp : String → Bool}

-- `p'` differs from `p` only in what belongs to the connection of these two sockets.
structure Frame (c s : ℕ) (p p' : ProxyServer) : Prop where
  config     : p'.config = p.config
  server     : p'.server = p.server
  nextSocket : p'.nextSocket = p.nextSocket
  clients    : ∀ k, k ≠ c → p'.clients.find? k = p.clients.find? k
  closed     : ∀ k, k ≠ c → k ≠ s → p'.closed k = p.closed k
  received   : ∀ k, k ≠ c → k ≠ s → p'.received k = p.received k
  handed     : ∀ k, k ≠ c → k ≠ s → p'.handed k = p.handed k
  pending    : ∃ os, p'.pending = p.pending ++ os ∧ ∀ o ∈ os, o.pair = some (c, s)
  together   : p.closed c = p.closed s → p'.closed c = p'.closed s
  shut       : ∀ k, p.closed k → p'.closed k
  grows      : ∀ k, p.received k <+: p'.received k
  silent     : ∀ k, p.closed k → p'.handed k = p.handed k

namespace Frame

theorem refl (p : ProxyServer) : Frame c s p p where
  config     := rfl
  server     := rfl
  nextSocket := rfl
  clients    := fun _ _ => rfl
  closed     := fun _ _ _ => rfl
  received   := fun _ _ _ => rfl
  handed     := fun _ _ _ => rfl
  pending    := ⟨[], by simp⟩
  together   := id
  shut       := fun _ => id
  grows      := fun _ => List.prefix_rfl
  silent     := fun _ _ => rfl

theorem trans (h₁ : Frame c s p p') (h₂ : Frame c s p' p'') : Frame c s p p'' where
  config     := h₂.config.trans h₁.config
  server     := h₂.server.trans h₁.server
  nextSocket := h₂.nextSocket.trans h₁.nextSocket
  clients    := fun k hk => (h₂.clients k hk).trans (h₁.clients k hk)
  closed     := fun k hc hs => (h₂.closed k hc hs).trans (h₁.closed k hc hs)
  received   := fun k hc hs => (h₂.received k hc hs).trans (h₁.received k hc hs)
  handed     := fun k hc hs => (h₂.handed k hc hs).trans (h₁.handed k hc hs)
  pending    := by
    have ⟨os₁, he₁, hp₁⟩ := h₁.pending
    have ⟨os₂, he₂, hp₂⟩ := h₂.pending
    refine ⟨os₁ ++ os₂, by rw [he₂, he₁, List.append_assoc], fun o ho => ?_⟩
    exact (List.mem_append.mp ho).elim (hp₁ o) (hp₂ o)
  together   := fun h => h₂.together (h₁.together h)
  shut       := fun k h => h₂.shut k (h₁.shut k h)
  grows      := fun k => (h₁.grows k).trans (h₂.grows k)
  silent     := fun k h => (h₂.silent k (h₁.shut k h)).trans (h₁.silent k h)

theorem start (h : o.pair = some (c, s)) : Frame c s p (p.start o) :=
  { refl p with pending := ⟨[o], rfl, by simpa⟩ }

theorem touch : Frame c s p (p.touch c) :=
  { refl p with clients := fun k hk => by simp [ProxyServer.touch, SortedMap.find?_insert, hk] }

theorem modify {f : Channel → Channel} : Frame c s p (p.modify c d f) :=
  { refl p with clients := fun k hk => by simp [ProxyServer.modify, hk] }

theorem hand (h : k = c ∨ k = s) : Frame c s p (p.hand k bytes) := by
  by_cases hk : p.closed k
  case pos =>
    rw [ProxyServer.hand, if_pos hk]
    exact refl p
  case neg =>
    rw [ProxyServer.hand, if_neg hk]
    refine { refl p with
      handed := fun k' hc hs => Function.update_of_ne ?_ ..
      silent := fun k' hk' => Function.update_of_ne ?_ .. }
    · rintro rfl
      exact h.elim hc hs
    · rintro rfl
      exact hk hk'

theorem receive (h : k = c ∨ k = s) : Frame c s p (p.receive k bytes) := by
  refine { refl p with
    received := fun k' hc hs => Function.update_of_ne ?_ ..
    grows    := fun k' => ?_ }
  · rintro rfl
    exact h.elim hc hs
  · by_cases hk : k' = k <;> simp [ProxyServer.receive, hk]

theorem terminate : Frame c s p (p.terminateClientServerConnection c s) :=
  { refl p with
    clients  := fun k hk => by simp [terminateClientServerConnection, close, hk]
    closed   := fun k hc hs => by simp [terminateClientServerConnection, close, hc, hs]
    together := fun _ => by
      by_cases h : s = c <;> simp [terminateClientServerConnection, close, h]
    shut     := fun k hk => by
      simp only [terminateClientServerConnection, close, Function.update_apply]
      split_ifs <;> simp [hk] }

theorem deliver : Frame c s p (p.deliver d c s bytes) := by
  simp only [ProxyServer.deliver]
  split_ifs
  · exact receive d.source_mem
  · exact (receive d.source_mem).trans modify

theorem arrive : Frame c s p (p.arrive d c s bytes) :=
  (deliver.trans modify).trans modify

theorem recvMessage : Frame c s p (p.recvMessage d c s) :=
  touch.trans (start rfl)

theorem sendMessage {last : Bool} : Frame c s p (p.sendMessage d c s last) :=
  (touch.trans (hand d.sink_mem)).trans (start rfl)

end Frame

theorem Handled.frame (h : Handled c s p e p') : Frame c s (p.complete e.operation) p' := by
  cases h with
  | terminated _ eq       => exact eq ▸ .terminate
  | connected _ _ _ eq    => exact eq ▸ Frame.recvMessage.trans .recvMessage
  | received _ _ _ _ _ eq => exact eq ▸ (Frame.arrive.trans .sendMessage).trans .recvMessage
  | ended _ _ _ _ _ _ eq  => exact eq ▸ Frame.arrive.trans .sendMessage
  | sent _ _ _ _ _ eq     => exact eq ▸ .modify

theorem Step.frame (hs : Step validIp p e p') (hp : e.operation.pair = some (c, s)) :
    Frame c s (p.complete e.operation) p' :=
  (hs.cases hp).frame

structure Unused (p : ProxyServer) (k : ℕ) : Prop where
  client   : p.server k = none
  server   : ∀ c, p.server c ≠ some k
  entry    : p.clients.find? k = none
  closed   : p.closed k = false
  received : p.received k = []
  handed   : p.handed k = []

namespace Unused

theorem ne (h : Unused p k) (hc : p.server c = some s) : c ≠ k ∧ s ≠ k := by
  constructor
  · rintro rfl
    simp [h.client] at hc
  · rintro rfl
    exact h.server c hc

theorem frame (h : Unused p k) (hc : p.server c = some s) (hf : Frame c s p p') : Unused p' k := by
  have ⟨hkc, hks⟩ := h.ne hc
  exact {
    client   := by simp [hf.server, h.client]
    server   := by simp [hf.server, h.server]
    entry    := (hf.clients k hkc.symm).trans h.entry
    closed   := (hf.closed k hkc.symm hks.symm).trans h.closed
    received := (hf.received k hkc.symm hks.symm).trans h.received
    handed   := (hf.handed k hkc.symm hks.symm).trans h.handed }

theorem reject (h : Unused p k) (hc : k ≠ c) :
    Unused ({ p with clients := p.clients.erase c }.close c) k :=
  { h with
    entry  := by simpa [close] using fun _ => h.entry
    closed := by simpa [close, hc] using h.closed }

theorem accepted {srvAddr : ServerAddress} (h : Unused p k) (hc : k ≠ c) (hn : k ≠ p.nextSocket) :
    Unused (p.accepted c srvAddr) k :=
  { h with
    client := by simpa [ProxyServer.accepted, hc] using h.client
    server := by
      intro c'
      by_cases hc' : c' = c
      · simp [ProxyServer.accepted, hc', hn.symm]
      · simpa [ProxyServer.accepted, hc'] using h.server c'
    entry  := by simpa [ProxyServer.accepted, SortedMap.find?_insert, hc] using h.entry }

end Unused

structure Invariant (p : ProxyServer) : Prop where
  accepts  : p.pending.countP Operation.isAccept ≤ 1
  waiting  : ∀ c, .accept c ∈ p.pending → c < p.nextSocket ∧ Unused p c
  fresh    : ∀ k, p.nextSocket ≤ k → Unused p k
  paired   : ∀ o ∈ p.pending, ∀ c s, o.pair = some (c, s) → p.server c = some s
  distinct : ∀ c s c' s', p.server c = some s → p.server c' = some s' → c ≠ s' ∧ (s = s' → c = c')
  together : ∀ c s, p.server c = some s → p.closed c = p.closed s

namespace Invariant

theorem frame (h : Invariant p) (hc : p.server c = some s) (hf : Frame c s p p') :
    Invariant p' := by
  obtain ⟨os, he, ho⟩ := hf.pending
  have ha : ∀ o ∈ os, ¬o.isAccept := by
    intro o hm
    have := ho o hm
    cases o <;> simp_all [Operation.isAccept, Operation.pair]
  constructor
  case accepts  =>
    rw [he, List.countP_append, List.countP_eq_zero.mpr ha]
    exact h.accepts
  case waiting  =>
    intro k hk
    rw [he, List.mem_append] at hk
    obtain ⟨hl, hu⟩ := h.waiting k (hk.resolve_right fun hk => ha _ hk rfl)
    exact ⟨hf.nextSocket ▸ hl, hu.frame hc hf⟩
  case fresh    => exact fun k hk => (h.fresh k (hf.nextSocket ▸ hk)).frame hc hf
  case paired   =>
    intro o hm c' s' hp
    rw [hf.server]
    rw [he, List.mem_append] at hm
    cases hm with
    | inl hm => exact h.paired o hm c' s' hp
    | inr hm =>
      simp only [ho o hm, Option.some.injEq, Prod.mk.injEq] at hp
      rwa [← hp.1, ← hp.2]
  case distinct => simpa only [hf.server] using h.distinct
  case together =>
    intro c' s' hc'
    rw [hf.server] at hc'
    by_cases hcc : c' = c
    case pos =>
      subst hcc
      obtain rfl : s' = s := Option.some.inj (hc'.symm.trans hc)
      exact hf.together (h.together _ _ hc)
    case neg =>
      obtain ⟨h₁, h₂⟩ := h.distinct _ _ _ _ hc' hc
      obtain ⟨h₃, _⟩  := h.distinct _ _ _ _ hc hc'
      rw [hf.closed c' hcc h₁, hf.closed s' h₃.symm (mt h₂ hcc)]
      exact h.together _ _ hc'

theorem complete (h : Invariant p) : Invariant (p.complete o) where
  accepts  := List.erase_sublist.countP_le.trans h.accepts
  waiting  := by
    intro k hk
    have ⟨hl, hu⟩ := h.waiting k (List.mem_of_mem_erase hk)
    exact ⟨hl, { hu with }⟩
  fresh    := fun k hk => { h.fresh k hk with }
  paired   := fun o ho => h.paired o (List.mem_of_mem_erase ho)
  distinct := h.distinct
  together := h.together

theorem accept_not_mem (h : Invariant p) (ha : .accept c ∈ p.pending) :
    ∀ o ∈ (p.complete (.accept c)).pending, ¬o.isAccept := by
  have hp : p.pending.countP Operation.isAccept =
      (p.complete (.accept c)).pending.countP Operation.isAccept + 1 :=
    ((List.perm_cons_erase ha).countP_eq _).trans (List.countP_cons_of_pos rfl)
  have := h.accepts
  exact List.countP_eq_zero.mp (by omega)

theorem reject (h : Invariant p) (hn : ∀ o ∈ p.pending, ¬o.isAccept) (hl : c < p.nextSocket)
    (hu : Unused p c) : Invariant ({ p with clients := p.clients.erase c }.close c) where
  accepts  := h.accepts
  waiting  := fun k hk => absurd rfl (hn _ hk)
  fresh    := fun k hk => (h.fresh k hk).reject (hl.trans_le hk).ne'
  paired   := h.paired
  distinct := h.distinct
  together := by
    intro c' s' hc'
    have ⟨h₁, h₂⟩ := hu.ne hc'
    simpa [close, h₁, h₂] using h.together c' s' hc'

theorem distinct_accepted {srvAddr : ServerAddress} (h : Invariant p) (hl : c < p.nextSocket)
    (hu : Unused p c) (c₁ s₁ c₂ s₂ : ℕ) (h₁ : (p.accepted c srvAddr).server c₁ = some s₁)
    (h₂ : (p.accepted c srvAddr).server c₂ = some s₂) : c₁ ≠ s₂ ∧ (s₁ = s₂ → c₁ = c₂) := by
  have hf := h.fresh _ le_rfl
  simp only [accepted, Function.update_apply] at h₁ h₂
  split_ifs at h₁ h₂ with e₁ e₂ e₂
  · cases h₁
    cases h₂
    exact ⟨e₁ ▸ hl.ne, fun _ => e₁.trans e₂.symm⟩
  · cases h₁
    exact ⟨e₁ ▸ (hu.ne h₂).2.symm, fun he => absurd he.symm (hf.ne h₂).2⟩
  · cases h₂
    exact ⟨(hf.ne h₁).1, fun he => absurd he (hf.ne h₁).2⟩
  · exact h.distinct _ _ _ _ h₁ h₂

theorem accepted {srvAddr : ServerAddress} (h : Invariant p) (hn : ∀ o ∈ p.pending, ¬o.isAccept)
    (hl : c < p.nextSocket) (hu : Unused p c) : Invariant (p.accepted c srvAddr) := by
  have hf : ∀ k, p.nextSocket < k → Unused (p.accepted c srvAddr) k := fun k hk =>
    (h.fresh k hk.le).accepted (hl.trans hk).ne' hk.ne'
  constructor
  case accepts  =>
    rw [ProxyServer.accepted, List.countP_append, List.countP_eq_zero.mpr hn]
    exact le_rfl
  case waiting  =>
    intro k hk
    simp only [ProxyServer.accepted, List.mem_append, List.mem_cons, reduceCtorEq,
      Operation.accept.injEq, List.not_mem_nil, or_false, false_or] at hk
    obtain rfl := hk.resolve_left fun hk => hn _ hk rfl
    exact ⟨by simp [ProxyServer.accepted], hf _ (by omega)⟩
  case fresh    =>
    intro k hk
    have hk : p.nextSocket + 2 ≤ k := hk
    exact hf k (by omega)
  case paired   =>
    intro o ho c' s' hp
    simp only [ProxyServer.accepted, List.mem_append, List.mem_cons, List.not_mem_nil,
      or_false] at ho
    rcases ho with ho | rfl | rfl
    · have hc := h.paired o ho c' s' hp
      simpa [ProxyServer.accepted, (hu.ne hc).1] using hc
    · simp only [Operation.pair, Option.some.injEq, Prod.mk.injEq] at hp
      simp [ProxyServer.accepted, ← hp.1, hp.2]
    · simp [Operation.pair] at hp
  case distinct => exact h.distinct_accepted hl hu
  case together =>
    intro c' s' hc'
    simp only [ProxyServer.accepted, Function.update_apply] at hc' ⊢
    split_ifs at hc' with hcc
    · rw [hcc, hu.closed, ← Option.some.inj hc', (h.fresh _ le_rfl).closed]
    · exact h.together c' s' hc'

theorem initial (config : ConfigProxy) : Invariant (init config).run where
  accepts  := by simp [run, init, newSocket, acceptClient, ProxyServer.start, Operation.isAccept]
  waiting  := by
    intro k hk
    obtain rfl : k = 0 := by
      simpa [run, init, newSocket, acceptClient, ProxyServer.start] using hk
    exact ⟨Nat.one_pos, ⟨rfl, fun _ => by simp [run, init, newSocket, acceptClient,
      ProxyServer.start], rfl, rfl, rfl, rfl⟩⟩
  fresh    := fun k _ => ⟨rfl, fun _ => by simp [run, init, newSocket, acceptClient,
    ProxyServer.start], rfl, rfl, rfl, rfl⟩
  paired   := by
    simp [run, init, newSocket, acceptClient, ProxyServer.start, Operation.pair]
  distinct := by simp [run, init, newSocket, acceptClient, ProxyServer.start]
  together := by simp [run, init, newSocket, acceptClient, ProxyServer.start]

theorem exec_frame (h : Invariant p) (hs : Step validIp p e p')
    (hp : e.operation.pair = some (c, s)) :
    p.server c = some s ∧ Frame c s (p.complete e.operation) p' :=
  ⟨h.paired _ hs.1.1 c s hp, hs.frame hp⟩

theorem step (h : Invariant p) (hs : Step validIp p e p') : Invariant p' := by
  cases hp : e.operation.pair with
  | none =>
    rcases hs.accept_cases hp with ⟨sock, srvAddr, ho, _, rfl⟩ | ⟨sock, ho, _, rfl⟩
    all_goals
      have hm : .accept sock ∈ p.pending := ho ▸ hs.1.1
      have hn := h.accept_not_mem hm
      have ⟨hl, hu⟩ := h.waiting sock hm
      rw [ho]
    · exact h.complete.accepted hn hl { hu with }
    · exact h.complete.reject hn hl { hu with }
  | some cs =>
    have ⟨hc, hf⟩ := h.exec_frame hs hp
    exact h.complete.frame hc hf

end Invariant

end Proxy
