import Technosphere.Proxy.Theorems.Drivers

namespace Proxy

open ProxyServer

variable {p p' q : ProxyServer} {c s : ℕ} {d : Direction} {o : Operation} {e : Event}
  {os : List Operation} {validIp : String → Bool} {config : ConfigProxy}

def Event.Concerns (clientSock serverSock : ℕ) (e : Event) : Bool :=
  e.operation.pair = some (clientSock, serverSock)

def ProxyServer.traffic (p : ProxyServer) (clientSock serverSock : ℕ) : ℕ :=
  (p.received clientSock).length + (p.received serverSock).length

-- An operation's share of the handlers that are called for a connection. A read that brings bytes
-- is paid for by them.
def Operation.price : Operation → ℕ
  | accept _   => 0
  | connect .. => 5
  | read ..    => 2
  | write ..   => 1

-- The same after the sockets have been closed, when the reads and writes that are started fail.
def Operation.latePrice : Operation → ℕ
  | accept _            => 0
  | connect ..          => 1
  | read _ _ _ _ live   => if live then 3 else 1
  | write ..            => 1

theorem Operation.price_pos (h : o.pair = some (c, s)) : 0 < o.price := by
  cases o <;> simp_all [price, pair]

theorem Operation.latePrice_pos (h : o.pair = some (c, s)) : 0 < o.latePrice := by
  cases o <;> simp_all [latePrice, pair]
  split_ifs <;> omega

theorem Event.Valid.success_of_read {size : ℕ} {live : Bool} (h : e.Valid p)
    (ho : e.operation = .read d c s size live) (he : e.err = .success) : e.bytes ≠ [] := by
  simp only [Event.Valid, ho, he, if_true] at h
  exact h.2.2.1

theorem Event.Valid.live_of_read {size : ℕ} {live : Bool} (h : e.Valid p)
    (ho : e.operation = .read d c s size live) (he : e.err ≠ .failure) : live = true := by
  simp only [Event.Valid, ho] at h
  by_contra hn
  exact he (h.2.1 (by simpa using hn))

theorem Frame.traffic (h : Frame c s p p') : p.traffic c s ≤ p'.traffic c s :=
  add_le_add (h.grows c).length_le (h.grows s).length_le

theorem Handled.traffic {size : ℕ} {live : Bool} (h : Handled c s p e p')
    (ho : e.operation = .read d c s size live) (he : e.err = .success) :
    p.traffic c s + e.bytes.length ≤ p'.traffic c s := by
  have hc := (h.frame.grows c).length_le
  have hs := (h.frame.grows s).length_le
  have hr : (p'.received (d.source c s)).length =
      (p.received (d.source c s)).length + e.bytes.length := by
    cases h with
    | terminated terminates _         => simp [Event.terminates, ho, he] at terminates
    | connected _ operation _ _       => simp [ho] at operation
    | sent _ _ _ operation _ _        => simp [ho] at operation
    | ended _ _ _ _ err _ _           => simp [he] at err
    | received d' _ _ operation _ eq =>
      obtain ⟨rfl, -⟩ : d = d' ∧ _ := by simpa [ho] using operation
      simp [eq, arrive_received, complete]
  simp only [ProxyServer.traffic]
  cases d <;> simp only [Direction.source, complete] at hr hc hs <;> omega

namespace Follows

variable {live : Bool}

theorem price (h : Follows c s live e os) (hh : Handled c s p e p') (hv : e.Valid p) :
    (os.map Operation.price).sum + 1 + 2 * p.traffic c s ≤
      e.operation.price + 2 * p'.traffic c s := by
  have ht : p.traffic c s ≤ p'.traffic c s := hh.frame.traffic
  cases h with
  | received d size n was bytes operation err eq =>
    have hb := List.length_pos_of_ne_nil (hv.success_of_read operation err)
    have := hh.traffic operation err
    simp only [eq, operation, Operation.price, List.map_cons, List.map_nil,
      List.sum_cons, List.sum_nil]
    omega
  | connected _ _ _ operation eq | ended _ _ _ _ operation _ eq | sent _ _ _ operation _ eq =>
    simp only [eq, operation, Operation.price, List.map_cons, List.map_nil,
      List.sum_cons, List.sum_nil]
    omega

theorem latePrice (h : Follows c s false e os) (hv : e.Valid p)
    (hc : ∀ srvAddr, e.operation ≠ .connect srvAddr c s) :
    (os.map Operation.latePrice).sum + 1 ≤ e.operation.latePrice := by
  cases h with
  | connected srvAddr _ _ operation _ => exact absurd operation (hc srvAddr)
  | received d size n was bytes operation err eq =>
    obtain rfl := hv.live_of_read operation (by simp [err])
    simp [eq, operation, Operation.latePrice]
  | ended d size was bytes operation err eq =>
    obtain rfl := hv.live_of_read operation (by simp [err])
    simp [eq, operation, Operation.latePrice]
  | sent _ _ _ operation _ eq => simp [eq, operation, Operation.latePrice]

end Follows

namespace ProxyServer

def stock (p : ProxyServer) (price : Operation → ℕ) (clientSock serverSock : ℕ) : ℕ :=
  ((p.operations clientSock serverSock).map price).sum

def earned (p : ProxyServer) (clientSock serverSock : ℕ) : ℕ :=
  if p.server clientSock = some serverSock then 5 + 2 * p.traffic clientSock serverSock else 0

theorem operations_terminate : ((p.complete o).terminateClientServerConnection c s).operations c s =
    (p.operations c s).erase o :=
  (List.erase_filter ..).symm

end ProxyServer

theorem Handled.stock {price : Operation → ℕ} {earned earned' : ℕ} (h : Handled c s p e p')
    (ht : p.closed c = p.closed s) (hm : e.operation ∈ p.operations c s)
    (hp : 0 < price e.operation) (hl : earned ≤ earned')
    (hf : ∀ os, Follows c s (!p.closed c) e os →
      (os.map price).sum + 1 + earned ≤ price e.operation + earned') :
    1 + p'.stock price c s + earned ≤ p.stock price c s + earned' := by
  rcases h.follows ht with ⟨_, rfl⟩ | ⟨_, _, os, he, hw⟩
  · have hs := Budget.sum_complete price hm (operations_terminate.trans (List.append_nil _).symm)
    simp only [ProxyServer.stock, List.map_nil, List.sum_nil] at hs ⊢
    omega
  · have hs := Budget.sum_complete price hm (operations_complete he hw.pair.2)
    have := hf os hw
    simp only [ProxyServer.stock]
    omega

theorem Same.operations (h : Same c s p p') : p'.operations c s = p.operations c s :=
  h.pending

theorem Same.traffic (h : Same c s p p') : p'.traffic c s = p.traffic c s := by
  rw [ProxyServer.traffic, ProxyServer.traffic, h.received c (.inl rfl), h.received s (.inr rfl)]

theorem single_operations {srvAddr : ServerAddress} :
    (single config c s srvAddr).operations c s = [.connect srvAddr c s] := by
  simp [operations, single, ProxyServer.start, touch, init, Operation.pair]

namespace Invariant

theorem operations_eq_nil (h : Invariant p) (hc : p.server c ≠ some s) :
    p.operations c s = [] := by
  rw [List.eq_nil_iff_forall_not_mem]
  intro o ho
  have ⟨hm, hp⟩ := mem_operations.mp ho
  exact hc (h.paired o hm c s hp)

theorem step_stock (h : Invariant p) (hst : Step validIp p e p') :
    (if e.Concerns c s then 1 else 0) + p'.stock Operation.price c s + p.earned c s ≤
      p.stock Operation.price c s + p'.earned c s := by
  by_cases hc : p.server c = some s
  case neg =>
    have hp : e.operation.pair ≠ some (c, s) := fun hp => hc (h.paired _ hst.1.1 c s hp)
    rw [earned, if_neg hc, if_neg (by simpa [Event.Concerns] using hp), earned]
    by_cases hc' : p'.server c = some s
    case pos =>
      obtain ⟨srvAddr, _, _, _, hs⟩ := h.same_single hst hc hc'
      rw [if_pos hc', ProxyServer.stock, hs.operations, single_operations]
      simp [Operation.price]
      omega
    case neg =>
      simp [ProxyServer.stock, (h.step hst).operations_eq_nil hc']
  case pos =>
    have ht := h.together c s hc
    rw [earned, if_pos hc, earned, if_pos (h.server_mono hst hc)]
    by_cases hp : e.operation.pair = some (c, s)
    case pos =>
      have hh := hst.cases hp
      have hl : p.traffic c s ≤ p'.traffic c s := hh.frame.traffic
      have hs : 1 + p'.stock Operation.price c s + 2 * p.traffic c s ≤
          p.stock Operation.price c s + 2 * p'.traffic c s :=
        hh.stock ht (mem_operations.mpr ⟨hst.1.1, hp⟩) (Operation.price_pos hp) (by omega)
          fun os hf => hf.price hh hst.1
      rw [if_pos (by simpa [Event.Concerns] using hp)]
      omega
    case neg =>
      have hs := (h.same_of_ne hst hc hp).1
      rw [if_neg (by simpa [Event.Concerns] using hp), ProxyServer.stock, hs.operations, hs.traffic]
      simp [ProxyServer.stock]

theorem step_lateStock (h : Invariant p) (hst : Step validIp p e p') (hc : p.server c = some s)
    (hcl : p.closed c) (hs : Served c s p) :
    (if e.Concerns c s then 1 else 0) + p'.stock Operation.latePrice c s ≤
      p.stock Operation.latePrice c s := by
  by_cases hp : e.operation.pair = some (c, s)
  case pos =>
    have hm : e.operation ∈ p.operations c s := mem_operations.mpr ⟨hst.1.1, hp⟩
    have hn : ∀ srvAddr, e.operation ≠ .connect srvAddr c s := by
      intro srvAddr ho
      have ⟨hop, _⟩ := hs.connect srvAddr (ho ▸ hm)
      simp [hcl] at hop
    have hs' : 1 + p'.stock Operation.latePrice c s + 0 ≤ p.stock Operation.latePrice c s + 0 := by
      apply (hst.cases hp).stock (h.together c s hc) hm (Operation.latePrice_pos hp) le_rfl
      intro os hf
      rw [hcl] at hf
      exact hf.latePrice hst.1 hn
    rwa [if_pos (by simpa [Event.Concerns] using hp)]
  case neg =>
    have hs := (h.same_of_ne hst hc hp).1
    rw [if_neg (by simpa [Event.Concerns] using hp), ProxyServer.stock, hs.operations, zero_add]
    rfl

end Invariant

theorem Served.lateStock_le (h : Served c s p) :
    p.stock Operation.latePrice c s ≤ (p.operations c s).length + 4 := by
  have hs : p.stock Operation.latePrice c s ≤ (p.operations c s).length +
      2 * (p.drivers .toServer c s + p.drivers .toClient c s) := by
    apply Budget.sum_le_countP
    intro o ho
    have hp := (mem_operations.mp ho).2
    cases o with
    | accept => simp [Operation.pair] at hp
    | connect | write => simp [Operation.latePrice]
    | read d c' s' size live =>
      obtain ⟨rfl, rfl⟩ : c' = c ∧ s' = s := by simpa [Operation.pair] using hp
      cases d <;> cases live <;> simp [Operation.latePrice, Operation.drives]
  have := h.shut .toServer
  have := h.shut .toClient
  omega

theorem run_work (r : Run (Step validIp) (init config).run q) (hc : q.server c = some s) :
    r.events.countP (·.Concerns c s) + (q.operations c s).length ≤ 5 + 2 * q.traffic c s ∧
      (q.closed c → ∀ p (r' : Run (Step validIp) q p),
        r'.events.countP (·.Concerns c s) + (p.operations c s).length ≤
          (q.operations c s).length + 4) := by
  constructor
  case left =>
    have hr : r.events.countP (·.Concerns c s) + q.stock Operation.price c s +
        (init config).run.earned c s ≤
        (init config).run.stock Operation.price c s + q.earned c s := by
      apply @Budget.countP_events _ _ (Step validIp) _ _ Invariant (·.stock Operation.price c s)
        (·.earned c s)
      · exact .initial config
      · exact fun h hst => ⟨h.step hst, h.step_stock hst⟩
    have hl : (q.operations c s).length ≤ q.stock Operation.price c s :=
      Budget.length_le_sum fun o ho => Operation.price_pos (mem_operations.mp ho).2
    have hi : (init config).run.stock Operation.price c s = 0 := by
      rw [ProxyServer.stock, (Invariant.initial config).operations_eq_nil, List.map_nil,
        List.sum_nil]
      simp [ProxyServer.run, init, newSocket, acceptClient, start]
    have he : q.earned c s = 5 + 2 * q.traffic c s := if_pos hc
    omega
  case right =>
    intro hcl p r'
    have hr : r'.events.countP (·.Concerns c s) + p.stock Operation.latePrice c s + 0 ≤
        q.stock Operation.latePrice c s + 0 := by
      apply @Budget.countP_events _ _ (Step validIp) _ _
        (fun p => Invariant p ∧ p.server c = some s ∧ p.closed c ∧ Served c s p)
        (·.stock Operation.latePrice c s) (fun _ => 0)
      · exact ⟨.run r, hc, hcl, .run r hc⟩
      · rintro p e p' ⟨hi, hc, hcl, hs⟩ hst
        have hc' := hi.server_mono hst hc
        exact ⟨⟨hi.step hst, hc', hi.closed_mono hst hcl, .step (fun _ => hs) hi hst hc'⟩,
          hi.step_lateStock hst hc hcl hs⟩
    have hl : (p.operations c s).length ≤ p.stock Operation.latePrice c s :=
      Budget.length_le_sum fun o ho => Operation.latePrice_pos (mem_operations.mp ho).2
    have := (Served.run r hc).lateStock_le
    omega

def EndsWithWrite (c s : ℕ) (es : List Event) : Prop :=
  ∃ e ∈ (es.filter (·.Concerns c s)).getLast?, e.err = .success ∧
    ∃ d bytes live, e.operation = .write d c s bytes false live

theorem Handled.entry_iff (h : Handled c s p e p') (ht : p.closed c = p.closed s)
    (ho : p'.operations c s = []) : (p'.clients.find? c).isSome ↔
      e.err = .success ∧ ∃ d bytes live, e.operation = .write d c s bytes false live := by
  rcases h.follows ht with ⟨terminates, rfl⟩ | ⟨_, hs, os, he, hf⟩
  · have hn : ¬(e.err = .success ∧
        ∃ d bytes live, e.operation = .write d c s bytes false live) := by
      rintro ⟨hr, d, bytes, live, hw⟩
      simp [Event.terminates, hw, hr] at terminates
    exact iff_of_false (by simp [terminateClientServerConnection, close]) hn
  · have hn : os = [] := (List.append_eq_nil_iff.mp ((operations_complete he hf.pair.2) ▸ ho)).2
    cases hf with
    | connected _ _ _ _ eq             => simp [hn] at eq
    | received _ _ _ _ _ _ _ eq        => simp [hn] at eq
    | ended _ _ _ _ _ _ eq             => simp [hn] at eq
    | sent d bytes was operation err _ => exact iff_of_true hs ⟨err, d, bytes, was, operation⟩

theorem run_drained (r : Run (Step validIp) (init config).run p) (hc : p.server c = some s)
    (ho : p.operations c s = []) : p.closed c ∧ p.closed s ∧
      ((p.clients.find? c).isSome ↔ EndsWithWrite c s r.events) := by
  have hcl : p.closed c := by
    by_contra hn
    have hd := (Served.run r hc).opened (by simpa using hn) .toServer
    simp [drivers, ho] at hd
  refine ⟨hcl, (Invariant.run r).together c s hc ▸ hcl, ?_⟩
  clear hcl
  induction r with
  | refl => simp [ProxyServer.run, init, newSocket, acceptClient, start] at hc
  | @snoc p p' r e hst ih =>
    have hi := Invariant.run r
    by_cases hp : e.operation.pair = some (c, s)
    case pos =>
      obtain ⟨hc, _⟩ := hi.exec_frame hst hp
      rw [(hst.cases hp).entry_iff (hi.together c s hc) ho]
      simp [EndsWithWrite, Run.events, Event.Concerns, hp]
    case neg =>
      have he : EndsWithWrite c s (r.snoc e hst).events ↔ EndsWithWrite c s r.events := by
        simp [EndsWithWrite, Run.events, Event.Concerns, hp]
      by_cases hcp : p.server c = some s
      case pos =>
        have hs := (hi.same_of_ne hst hcp hp).1
        rw [he, hs.entry, ih hcp (hs.operations ▸ ho)]
      case neg =>
        obtain ⟨_, _, _, _, hs⟩ := hi.same_single hst hcp hc
        simp [hs.operations, single_operations] at ho

-- Both reads fail while a byte from the client is being written.
namespace Leaked

open Overlap

def failed₁ : Event := ⟨.read .toClient 0 1 10 true, .failure, [], 0⟩
def failed₂ : Event := ⟨.read .toServer 0 1 10 true, .failure, [], 0⟩
def sent    : Event := ⟨.write .toServer 0 1 [97] false true, .success, [], 0⟩

def p₄ := ((p₃.complete failed₁.operation).deliver .toClient 0 1 []).recvServerMessageHandler 0 1
  .failure 0
def p₅ := ((p₄.complete failed₂.operation).deliver .toServer 0 1 []).recvClientMessageHandler 0 1
  .failure 0
def p₆ := (p₅.complete sent.operation).sendClientMessageHandler 0 1 .success false

theorem step₄ : Step isLocal p₃ failed₁ p₄ :=
  ⟨by decide, rfl⟩

theorem step₅ : Step isLocal p₄ failed₂ p₅ :=
  ⟨by decide, rfl⟩

theorem step₆ : Step isLocal p₅ sent p₆ :=
  ⟨by decide, rfl⟩

def run₄ : Run (Step isLocal) p₀ p₄ :=
  .snoc (.snoc (.snoc (.snoc .refl _ step₁) _ step₂) _ step₃) _ step₄

def run₆ : Run (Step isLocal) p₄ p₆ :=
  .snoc (.snoc .refl _ step₅) _ step₆

end Leaked

theorem run_work_of_leaked : Leaked.run₆.events.countP (·.Concerns 0 1) +
    (Leaked.p₆.operations 0 1).length ≤ (Leaked.p₄.operations 0 1).length + 4 :=
  (run_work Leaked.run₄ rfl).2 rfl _ Leaked.run₆

theorem run_drained_of_leaked : (Leaked.p₆.clients.find? 0).isSome ↔
    EndsWithWrite 0 1 (Leaked.run₄.append Leaked.run₆).events :=
  (run_drained (Leaked.run₄.append Leaked.run₆) rfl rfl).2.2

end Proxy
