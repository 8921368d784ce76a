import Technosphere.Lib.Budget
import Technosphere.Proxy.Theorems.Buffers
import Technosphere.Proxy.Theorems.Forwarding
import Technosphere.Proxy.Theorems.View

namespace Proxy

open ProxyServer

variable {p p' : ProxyServer} {c s : ℕ} {d : Direction} {o : Operation} {e : Event}
  {os : List Operation} {validIp : String → Bool}

def Operation.drives (d : Direction) (clientSock serverSock : ℕ) : Operation → Bool
  | accept _              => false
  | connect _ c s         => c = clientSock ∧ s = serverSock
  | read d' c s ..        => d' = d ∧ c = clientSock ∧ s = serverSock
  | write d' c s _ last _ => last ∧ d' = d ∧ c = clientSock ∧ s = serverSock

namespace ProxyServer

def operations (p : ProxyServer) (clientSock serverSock : ℕ) : List Operation :=
  p.pending.filter (·.pair = some (clientSock, serverSock))

def drivers (p : ProxyServer) (d : Direction) (clientSock serverSock : ℕ) : ℕ :=
  (p.operations clientSock serverSock).countP (·.drives d clientSock serverSock)

theorem mem_operations : o ∈ p.operations c s ↔ o ∈ p.pending ∧ o.pair = some (c, s) := by
  simp [operations]

theorem operations_complete (hp : p'.pending = p.pending.erase o ++ os)
    (ho : ∀ o ∈ os, o.pair = some (c, s)) :
    p'.operations c s = (p.operations c s).erase o ++ os := by
  rw [operations, hp, List.filter_append, ← List.erase_filter,
    @List.filter_eq_self _ _ os |>.mpr (by simpa using ho)]
  rfl

end ProxyServer

-- What the handlers that do not close the connection start.
inductive Follows (c s : ℕ) (live : Bool) (e : Event) (os : List Operation) : Prop
  | connected (srvAddr : ServerAddress) (n m : ℕ) (operation : e.operation = .connect srvAddr c s)
      (eq : os = [.read .toServer c s n live, .read .toClient c s m live])
  | received (d : Direction) (size n : ℕ) (was : Bool) (bytes : List UInt8)
      (operation : e.operation = .read d c s size was) (err : e.err = .success)
      (eq : os = [.write d c s bytes false live, .read d c s n live])
  | ended (d : Direction) (size : ℕ) (was : Bool) (bytes : List UInt8)
      (operation : e.operation = .read d c s size was) (err : e.err = .eof)
      (eq : os = [.write d c s bytes true live])
  | sent (d : Direction) (bytes : List UInt8) (was : Bool)
      (operation : e.operation = .write d c s bytes false was) (err : e.err = .success)
      (eq : os = [])

theorem Follows.pair {live : Bool} (h : Follows c s live e os) :
    e.operation.pair = some (c, s) ∧ ∀ o ∈ os, o.pair = some (c, s) := by
  cases h <;> simp_all [Operation.pair]

theorem Follows.drives {live : Bool} (h : Follows c s live e os) :
    os.countP (·.drives d c s) = if e.operation.drives d c s then 1 else 0 := by
  cases h with
  | connected _ _ _ operation eq       => cases d <;> simp [eq, operation, Operation.drives]
  | received d' _ _ _ _ operation _ eq =>
    by_cases hd : d' = d <;> simp [eq, operation, Operation.drives, hd]
  | ended d' _ _ _ operation _ eq      =>
    by_cases hd : d' = d <;> simp [eq, operation, Operation.drives, hd]
  | sent _ _ _ operation _ eq          => simp [eq, operation, Operation.drives]

section Starts

theorem recvMessage_starts : ∃ n, (p.recvMessage d c s).pending =
    p.pending ++ [.read d c s n (!p.closed (d.source c s))] ∧
    (p.recvMessage d c s).closed = p.closed ∧ ((p.recvMessage d c s).clients.find? c).isSome := by
  refine ⟨_, rfl, rfl, ?_⟩
  change ((p.clients.insert c .new).find? c).isSome
  cases h : p.clients.find? c <;> simp [SortedMap.find?_insert, h]

theorem sendMessage_starts {last : Bool} : ∃ bytes, (p.sendMessage d c s last).pending =
    p.pending ++ [.write d c s bytes last (!p.closed (d.sink c s))] ∧
    (p.sendMessage d c s last).closed = p.closed ∧
    ((p.sendMessage d c s last).clients.find? c).isSome := by
  refine ⟨_, sendMessage_pending, sendMessage_closed, ?_⟩
  have hc : (p.sendMessage d c s last).clients = p.clients.insert c .new := hand_clients
  cases h : p.clients.find? c <;> simp [hc, SortedMap.find?_insert, h]

end Starts

namespace Handled

theorem follows (h : Handled c s p e p') (ht : p.closed c = p.closed s) :
    e.terminates p ∧ p' = (p.complete e.operation).terminateClientServerConnection c s ∨
      p'.closed = p.closed ∧ (p'.clients.find? c).isSome ∧ ∃ os,
        p'.pending = p.pending.erase e.operation ++ os ∧ Follows c s (!p.closed c) e os := by
  have hq : (p.complete e.operation).closed = p.closed := rfl
  cases h with
  | terminated terminates eq            => exact .inl ⟨terminates, eq⟩
  | connected srvAddr operation _ eq    =>
    obtain ⟨n, hp₁, hc₁, _⟩ := @recvMessage_starts (p.complete e.operation) c s .toServer
    obtain ⟨m, hp₂, hc₂, hs⟩ := @recvMessage_starts
      ((p.complete e.operation).recvMessage .toServer c s) c s .toClient
    rw [← eq] at hp₂ hc₂ hs
    refine .inr ⟨hc₂.trans hc₁, hs, _, ?_, .connected srvAddr n m operation rfl⟩
    rw [hp₂, hp₁, hc₁, hq, Direction.closed_source ht, Direction.closed_source ht]
    simp [complete]
  | received d size was operation err eq =>
    let q := (p.complete e.operation).arrive d c s e.bytes
    have hqc : q.closed = p.closed := arrive_closed
    obtain ⟨bytes, hp₁, hc₁, _⟩ := @sendMessage_starts q c s d false
    obtain ⟨n, hp₂, hc₂, hs⟩ := @recvMessage_starts (q.sendMessage d c s false) c s d
    rw [← eq] at hp₂ hc₂ hs
    refine .inr ⟨hc₂.trans (hc₁.trans hqc), hs, _, ?_,
      .received d size n was bytes operation err rfl⟩
    rw [hp₂, hp₁, hc₁, hqc, Direction.closed_source ht, Direction.closed_sink ht, arrive_pending]
    simp [complete]
  | ended d size was operation err _ eq  =>
    let q := (p.complete e.operation).arrive d c s []
    have hqc : q.closed = p.closed := arrive_closed
    obtain ⟨bytes, hp₁, hc₁, hs⟩ := @sendMessage_starts q c s d true
    rw [← eq] at hp₁ hc₁ hs
    refine .inr ⟨hc₁.trans hqc, hs, _, ?_, .ended d size was bytes operation err rfl⟩
    rw [hp₁, hqc, Direction.closed_sink ht, arrive_pending]
    rfl
  | sent d bytes was operation err eq    =>
    refine .inr ⟨by rw [eq]; rfl, ?_, [], ?_, .sent d bytes was operation err rfl⟩
    · simp [eq, ProxyServer.modify]
    · rw [eq, List.append_nil]
      rfl

end Handled

-- An open connection has one driver in each direction. The connect is the first operation.
structure Served (c s : ℕ) (p : ProxyServer) : Prop where
  entry   : p.closed c = false → (p.clients.find? c).isSome
  opened  : p.closed c = false → ∀ d, p.drivers d c s = 1
  shut    : ∀ d, p.drivers d c s ≤ 1
  connect : ∀ srvAddr, .connect srvAddr c s ∈ p.operations c s →
              p.closed c = false ∧ p.operations c s = [.connect srvAddr c s]

namespace Served

theorem connect_not_mem {srvAddr : ServerAddress} (h : Served c s p)
    (hm : o ∈ p.operations c s) : .connect srvAddr c s ∉ (p.operations c s).erase o := by
  intro hc
  obtain ⟨_, ho⟩ := h.connect srvAddr (List.mem_of_mem_erase hc)
  rw [ho, List.mem_singleton] at hm
  simp [ho, hm] at hc

theorem handled (h : Served c s p) (ht : p.closed c = p.closed s)
    (hm : e.operation ∈ p.operations c s) (hh : Handled c s p e p') : Served c s p' := by
  rcases hh.follows ht with ⟨_, rfl⟩ | ⟨hc, hs, os, hp, hf⟩
  · have ho : ((p.complete e.operation).terminateClientServerConnection c s).operations c s =
        (p.operations c s).erase e.operation := (List.erase_filter ..).symm
    have hcl : ((p.complete e.operation).terminateClientServerConnection c s).closed c := by
      simp [terminateClientServerConnection, close]
    constructor
    case entry   => simp [hcl]
    case opened  => simp [hcl]
    case shut    =>
      intro d
      rw [drivers, ho]
      exact List.erase_sublist.countP_le.trans (h.shut d)
    case connect =>
      intro srvAddr hm'
      exact absurd (ho ▸ hm') (h.connect_not_mem hm)
  · have ho := operations_complete hp hf.pair.2
    have hd : ∀ d, p'.drivers d c s = p.drivers d c s := by
      intro d
      have hb := Budget.countP_complete (q := (·.drives d c s)) hm ho
      rw [hf.drives] at hb
      exact Nat.add_right_cancel hb
    constructor
    case entry   => exact fun _ => hs
    case opened  => exact fun hcl d => (hd d).trans (h.opened (hc ▸ hcl) d)
    case shut    => exact fun d => hd d ▸ h.shut d
    case connect =>
      intro srvAddr hm'
      rw [ho, List.mem_append] at hm'
      rcases hm' with hm' | hm'
      · exact absurd hm' (h.connect_not_mem hm)
      · cases hf <;> simp_all

theorem of_same (h : Served c s p) (hs : Same c s p p') : Served c s p' := by
  have ho : p'.operations c s = p.operations c s := hs.pending
  have hc : p'.closed c = p.closed c := hs.closed c (.inl rfl)
  constructor
  case entry   => exact fun hcl => hs.entry ▸ h.entry (hc ▸ hcl)
  case opened  => exact fun hcl d => by rw [drivers, ho]; exact h.opened (hc ▸ hcl) d
  case shut    => exact fun d => by rw [drivers, ho]; exact h.shut d
  case connect => exact fun srvAddr hm => by rw [ho, hc]; exact h.connect srvAddr (ho ▸ hm)

theorem single {config : ConfigProxy} {srvAddr : ServerAddress} :
    Served c s (single config c s srvAddr) := by
  have ho : (ProxyServer.single config c s srvAddr).operations c s = [.connect srvAddr c s] := by
    simp [operations, ProxyServer.single, ProxyServer.start, touch, init, Operation.pair]
  have hd : ∀ d, (ProxyServer.single config c s srvAddr).drivers d c s = 1 := by
    intro d
    simp [drivers, ho, Operation.drives]
  constructor
  case entry   =>
    intro _
    simp [ProxyServer.single, ProxyServer.start, touch, SortedMap.find?_insert, init]
  case opened  => exact fun _ => hd
  case shut    => exact fun d => (hd d).le
  case connect =>
    intro srvAddr' hm
    rw [ho, List.mem_singleton] at hm
    exact ⟨rfl, ho.trans (by rw [hm])⟩

theorem step (h : p.server c = some s → Served c s p) (hi : Invariant p)
    (hst : Step validIp p e p') (hc' : p'.server c = some s) : Served c s p' := by
  by_cases hc : p.server c = some s
  case neg =>
    obtain ⟨_, _, _, _, hs⟩ := hi.same_single hst hc hc'
    exact single.of_same hs
  case pos =>
    by_cases hp : e.operation.pair = some (c, s)
    case pos =>
      exact (h hc).handled (hi.together c s hc) (mem_operations.mpr ⟨hst.1.1, hp⟩) (hst.cases hp)
    case neg => exact (h hc).of_same (hi.same_of_ne hst hc hp).1

theorem run {config : ConfigProxy} (r : Run (Step validIp) (init config).run p)
    (hc : p.server c = some s) : Served c s p := by
  have h : Invariant p ∧ (p.server c = some s → Served c s p) := by
    apply r.invariant (P := fun p => Invariant p ∧ (p.server c = some s → Served c s p))
    case hi =>
      exact ⟨.initial config, by simp [ProxyServer.run, init, newSocket, acceptClient, start]⟩
    case hs => exact fun h hst => ⟨h.1.step hst, step h.2 h.1 hst⟩
  exact h.2 hc

end Served

structure Configured (validIp : String → Bool) (config : ConfigProxy) (p : ProxyServer) : Prop where
  eq      : p.config = config
  connect : ∀ srvAddr c s, .connect srvAddr c s ∈ p.pending →
              srvAddr ∈ config.serverAddrs ∧ validIp srvAddr.ip

theorem Step.accepted_mem (h : Step validIp p e p') (ho : e.operation = .accept c)
    (he : e.err = .success) : ∃ srvAddr ∈ p.config.serverAddrs, validIp srvAddr.ip ∧
      p' = (p.complete e.operation).accepted c srvAddr := by
  obtain ⟨_, hx⟩ := h
  simp only [Event.exec, ho, he] at hx
  obtain ⟨srvAddr, hc, hv, hp⟩ := acceptClientHandler_success hx
  exact ⟨srvAddr, chooseServer_mem hc, hv, ho ▸ hp⟩

namespace Configured

variable {config : ConfigProxy}

theorem step (h : Configured validIp config p) (hi : Invariant p) (hst : Step validIp p e p') :
    Configured validIp config p' := by
  cases hp : e.operation.pair with
  | none    =>
    rcases hst.accept_cases hp with ⟨k, _, ho, he, _⟩ | ⟨k, _, _, rfl⟩
    · obtain ⟨srvAddr, hm, hv, rfl⟩ := hst.accepted_mem ho he
      refine ⟨h.eq, fun srvAddr' c s hc => ?_⟩
      rcases List.mem_append.mp hc with hc | hc
      · exact h.connect srvAddr' c s (List.mem_of_mem_erase hc)
      · obtain ⟨rfl, _⟩ : srvAddr' = srvAddr ∧ _ := by simpa using hc
        exact ⟨h.eq ▸ hm, hv⟩
    · exact ⟨h.eq, fun srvAddr c s hc => h.connect srvAddr c s (List.mem_of_mem_erase hc)⟩
  | some cs =>
    have ⟨hc, hf⟩ := hi.exec_frame hst hp
    refine ⟨hf.config.trans h.eq, fun srvAddr c s hm => ?_⟩
    rcases (hst.cases hp).follows (hi.together _ _ hc) with ⟨_, rfl⟩ | ⟨_, _, os, ho, hw⟩
    · exact h.connect srvAddr c s (List.mem_of_mem_erase hm)
    · rw [ho, List.mem_append] at hm
      rcases hm with hm | hm
      · exact h.connect srvAddr c s (List.mem_of_mem_erase hm)
      · cases hw <;> simp_all

theorem run (r : Run (Step validIp) (init config).run p) : Configured validIp config p := by
  have h : Invariant p ∧ Configured validIp config p := by
    apply r.invariant (P := fun p => Invariant p ∧ Configured validIp config p)
    case hi =>
      exact ⟨.initial config, rfl, by simp [ProxyServer.run, init, newSocket, acceptClient, start]⟩
    case hs => exact fun h hst => ⟨h.1.step hst, h.2.step h.1 hst⟩
  exact h.2

end Configured

theorem run_served {config : ConfigProxy} (r : Run (Step validIp) (init config).run p) :
    Fits p ∧ Configured validIp config p ∧
      ∀ c s, p.server c = some s → p.closed c = p.closed s ∧ Served c s p :=
  ⟨.run r, .run r, fun c s hc => ⟨(Invariant.run r).together c s hc, .run r hc⟩⟩

theorem run_served_of_overlap : Overlap.p₄.closed 0 = Overlap.p₄.closed 1 ∧
    Served 0 1 Overlap.p₄ :=
  (run_served Overlap.run).2.2 0 1 rfl

end Proxy
