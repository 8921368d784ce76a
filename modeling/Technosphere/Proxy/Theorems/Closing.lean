import Technosphere.Proxy.Theorems.Forwarding
import Technosphere.Proxy.Theorems.View

namespace Proxy

open ProxyServer

variable {p p' p₀ : ProxyServer} {c s first past : ℕ} {d d' : Direction} {o : Operation} {e : Event}
  {bytes before : List UInt8} {validIp : String → Bool}

-- The write `o` is started in this step, for the bytes from the position `first` up to `past` of
-- those that have been received from the other side.
def StartsWrite (validIp : String → Bool) (d : Direction) (clientSock serverSock : ℕ)
    (q : ProxyServer × Event) (first past : ℕ) (o : Operation) : Prop :=
  ∃ q' last live, Step validIp q.1 q.2 q' ∧
    o ∈ q'.pending.drop (q.1.complete q.2.operation).pending.length ∧
    past = (q'.received (d.source clientSock serverSock)).length ∧
    o = .write d clientSock serverSock
      ((q'.received (d.source clientSock serverSock)).drop first) last live

def FullyWritten (r : Run (Step validIp) p₀ p) (d : Direction) (clientSock serverSock i : ℕ) :
    Prop :=
  ∃ q ∈ r.steps, ∃ first past o, StartsWrite validIp d clientSock serverSock q first past o ∧
    first ≤ i ∧ i < past ∧ o ∉ p.pending ∧
    ∃ q ∈ r.steps, q.2.operation = o ∧ q.2.err = .success

-- What has been received is written when the handler of `e` has closed the connection. If it has
-- done so at the end of one side's stream, the other side's bytes are neither held nor being
-- written.
structure NothingDropped (r : Run (Step validIp) p₀ p') (p : ProxyServer) (e : Event)
    (clientSock serverSock : ℕ) : Prop where
  written : ∀ d, ∀ i < (p'.received (d.source clientSock serverSock)).length,
              FullyWritten r d clientSock serverSock i
  eof     : ∀ d size live, e.operation = .read d clientSock serverSock size live → ∀ d' ≠ d,
              ((p.buffer clientSock).channel d').buf = [] ∧
              ∀ bytes last live, .write d' clientSock serverSock bytes last live ∉ p'.pending

structure Event.Closes (c s : ℕ) (p : ProxyServer) (e : Event) : Prop where
  pair       : e.operation.pair = some (c, s)
  opened     : p.closed c = false
  terminates : e.terminates p
  err        : e.err ≠ .failure

def NeverDrops (c s : ℕ) {p : ProxyServer} : Run (Step validIp) p₀ p → Prop
  | .refl                     => True
  | @Run.snoc _ _ _ _ q _ r e h => NeverDrops c s r ∧
    (e.Closes c s q → NothingDropped (r.snoc e h) q e c s)

def Event.ClosesIdle (c s : ℕ) (p : ProxyServer) (e : Event) : Prop :=
  e.Closes c s p → ∀ d bytes last live,
    .write d c s bytes last live ∉ (p.complete e.operation).pending

theorem Handled.eq_of_terminates (h : Handled c s p e p') (ht : e.terminates p) :
    p' = (p.complete e.operation).terminateClientServerConnection c s := by
  cases h with
  | terminated _ eq                => exact eq
  | connected _ operation err _    => simp [Event.terminates, operation, err] at ht
  | received _ _ _ operation err _ => simp [Event.terminates, operation, err] at ht
  | ended _ _ _ operation err held => simp [Event.terminates, operation, err, held] at ht
  | sent _ _ _ operation err _     => simp [Event.terminates, operation, err] at ht

section Runs

variable {config : ConfigProxy}

theorem StartsWrite.pending_or_completed (r : Run (Step validIp) (init config).run p) :
    ∀ q ∈ r.steps, StartsWrite validIp d c s q first past o →
      o ∈ p.pending ∨ ∃ q ∈ r.steps, q.2.operation = o := by
  induction r with
  | refl => simp [Run.steps]
  | snoc r e hst ih =>
    intro q hq hw
    simp only [Run.steps, List.mem_append, List.mem_singleton] at hq ⊢
    rcases hq with hq | rfl
    · rcases ih q hq hw with ho | ⟨q', hq', ho⟩
      · by_cases he : o = e.operation
        case pos => exact .inr ⟨_, .inr rfl, he.symm⟩
        case neg => exact .inl ((Invariant.run r).mem_pending hst ho he)
      · exact .inr ⟨q', .inl hq', ho⟩
    · obtain ⟨q', _, _, hst', ho, _⟩ := hw
      obtain rfl := Option.some.inj (hst'.2.symm.trans hst.2)
      exact .inl (List.mem_of_mem_drop ho)

theorem closed_of_failure (r : Run (Step validIp) (init config).run p) :
    ∀ q ∈ r.steps, q.2.operation.pair = some (c, s) → q.2.err = .failure → p.closed c := by
  induction r with
  | refl => simp [Run.steps]
  | @snoc p _ r e hst ih =>
    intro q hq hp he
    simp only [Run.steps, List.mem_append, List.mem_singleton] at hq
    rcases hq with hq | rfl
    · exact (Invariant.run r).closed_mono hst (ih q hq hp he)
    · have hh := hst.cases hp
      have ht : e.terminates p := by
        cases ho : e.operation with
        | accept sock => simp [ho, Operation.pair] at hp
        | connect | read | write => simp_all [Event.terminates]
      rw [hh.eq_of_terminates ht]
      simp [terminateClientServerConnection, close]

theorem not_failure (r : Run (Step validIp) (init config).run p) (hst : Step validIp p e p')
    (hcl : e.Closes c s p) : ∀ q ∈ (r.snoc e hst).steps,
      q.2.operation.pair = some (c, s) → q.2.err ≠ .failure := by
  intro q hq hp he
  simp only [Run.steps, List.mem_append, List.mem_singleton] at hq
  rcases hq with hq | rfl
  · have hc := closed_of_failure r q hq hp he
    simp [hcl.opened] at hc
  · exact hcl.err he

end Runs

theorem Event.Valid.ne_eof_of_write {last live : Bool} (h : e.Valid p)
    (ho : e.operation = .write d c s bytes last live) : e.err ≠ .eof := by
  simp only [Event.Valid, ho] at h
  exact h.2.1

-- What is held for one direction are the last bytes that have been received, and if there are any,
-- a write is outstanding.
structure Holds (d : Direction) (c s : ℕ) (p : ProxyServer) : Prop where
  suffix      : ((p.buffer c).channel d).buf <:+ p.received (d.source c s)
  outstanding : ((p.buffer c).channel d).buf ≠ [] →
                  ∃ bytes last live, .write d c s bytes last live ∈ p.pending

theorem Holds.mono (h : Holds d c s p)
    (hb : ((p'.buffer c).channel d).buf = ((p.buffer c).channel d).buf)
    (hr : p'.received (d.source c s) = p.received (d.source c s))
    (hp : ∀ bytes last live, .write d c s bytes last live ∈ p.pending →
      .write d c s bytes last live ∈ p'.pending) : Holds d c s p' where
  suffix      := by rw [hb, hr]; exact h.suffix
  outstanding := by
    intro hn
    have ⟨bytes, last, live, hm⟩ := h.outstanding (hb ▸ hn)
    exact ⟨bytes, last, live, hp _ _ _ hm⟩

def Given (r : Run (Step validIp) p₀ p) (d : Direction) (c s : ℕ) : Prop :=
  ∀ i < (p.received (d.source c s)).length, ∃ q ∈ r.steps, ∃ first past o,
    StartsWrite validIp d c s q first past o ∧ first ≤ i ∧ i < past

theorem Given.snoc {r : Run (Step validIp) p₀ p} (h : Given r d c s) (hst : Step validIp p e p')
    (hr : p'.received (d.source c s) = p.received (d.source c s)) :
    Given (r.snoc e hst) d c s := by
  intro i hi
  have ⟨q, hq, hw⟩ := h i (hr ▸ hi)
  exact ⟨q, List.mem_append_left _ hq, hw⟩

theorem received_step (ho : p.closed (d.source c s) = false)
    (hs : before ++ ((p.buffer c).channel d).buf = p.received (d.source c s))
    (eq : p' = (((p.complete e.operation).arrive d c s e.bytes).sendMessage d c s
      false).recvMessage d c s) :
    p'.received (d.source c s) = p.received (d.source c s) ++ e.bytes ∧
      ((p'.buffer c).channel d).buf = (p'.received (d.source c s)).drop before.length ∧
      ∃ live rest, p'.pending = (p.complete e.operation).pending ++
        .write d c s ((p'.received (d.source c s)).drop before.length) false live :: rest := by
  have hr : p'.received (d.source c s) = p.received (d.source c s) ++ e.bytes := by
    rw [eq, recvMessage_received, sendMessage_received, arrive_received, Function.update_self]
    rfl
  have hd : (p'.received (d.source c s)).drop before.length =
      ((p.buffer c).channel d).buf ++ e.bytes := by
    rw [hr, ← hs, List.append_assoc, List.drop_left]
  have hb : (((p.complete e.operation).arrive d c s e.bytes).buffer c |>.channel d).buf =
      ((p.buffer c).channel d).buf ++ e.bytes := arrive_buf ho
  refine ⟨hr, ?_, ?_⟩
  · rw [hd, ← hb, eq, recvMessage_buffer, sendMessage_buffer]
  · have ⟨size, hp⟩ := recvMessage_pending (d := d) (c := c) (s := s)
      (p := ((p.complete e.operation).arrive d c s e.bytes).sendMessage d c s false)
    rw [← eq, sendMessage_pending, arrive_pending, hb, ← hd, List.append_assoc] at hp
    exact ⟨_, _, hp⟩

-- A byte that arrives is in the write that is started then, together with those that are held.
theorem Given.snoc_received {r : Run (Step validIp) p₀ p} (h : Given r d c s)
    (hst : Step validIp p e p') (hh : Holds d c s p) (ho : p.closed (d.source c s) = false)
    (eq : p' = (((p.complete e.operation).arrive d c s e.bytes).sendMessage d c s
      false).recvMessage d c s) : Given (r.snoc e hst) d c s := by
  have ⟨before, hs⟩ := hh.suffix
  have ⟨_, _, live, rest, hp⟩ := received_step ho hs eq
  intro i hi
  by_cases hlt : i < (p.received (d.source c s)).length
  case pos =>
    have ⟨q, hq, hw⟩ := h i hlt
    exact ⟨q, List.mem_append_left _ hq, hw⟩
  case neg =>
    have hl : before.length ≤ (p.received (d.source c s)).length := by simp [← hs]
    have hw : StartsWrite validIp d c s (p, e) before.length _ _ :=
      ⟨p', false, live, hst, by simp [hp], rfl, rfl⟩
    exact ⟨(p, e), by simp [Run.steps], before.length, _, _, hw, by omega, hi⟩

theorem Holds.received (hh : Holds d c s p) (ho : p.closed (d.source c s) = false)
    (eq : p' = (((p.complete e.operation).arrive d c s e.bytes).sendMessage d c s
      false).recvMessage d c s) : Holds d c s p' := by
  have ⟨before, hs⟩ := hh.suffix
  have ⟨_, hb, live, rest, hp⟩ := received_step ho hs eq
  constructor
  case suffix      => exact hb ▸ List.drop_suffix ..
  case outstanding =>
    exact fun _ => ⟨_, _, _, hp ▸ List.mem_append_right _ List.mem_cons_self⟩

namespace Holds

theorem recvMessage (h : Holds d c s p) : Holds d c s (p.recvMessage d' c s) := by
  apply h.mono
  · rw [recvMessage_buffer]
  · rfl
  · intro _ _ _ hm
    have ⟨_, hp⟩ := recvMessage_pending (p := p) (d := d') (c := c) (s := s)
    exact hp ▸ List.mem_append_left _ hm

theorem sendMessage {last : Bool} (h : Holds d c s p) :
    Holds d c s (p.sendMessage d' c s last) := by
  apply h.mono
  · rw [sendMessage_buffer]
  · rw [sendMessage_received]
  · intro _ _ _ hm
    exact sendMessage_pending ▸ List.mem_append_left _ hm

theorem arrive_nil (h : Holds d c s p) : Holds d c s (p.arrive d' c s []) := by
  apply h.mono
  · by_cases hd : d = d'
    case pos => rw [hd, arrive_nil_buf]
    case neg => rw [arrive_channel_of_ne hd]
  · simp [arrive_received]
  · intro _ _ _ hm
    rwa [arrive_pending]

theorem arrive_of_ne (h : Holds d c s p) (hcs : c ≠ s) (hd : d ≠ d') :
    Holds d c s (p.arrive d' c s bytes) := by
  apply h.mono
  · rw [arrive_channel_of_ne hd]
  · rw [arrive_received, Function.update_of_ne (Direction.source_ne hcs hd.symm)]
  · intro _ _ _ hm
    rwa [arrive_pending]

theorem complete (h : Holds d c s p)
    (ho : ∀ bytes last live, e.operation ≠ .write d c s bytes last live) :
    Holds d c s (p.complete e.operation) := by
  apply h.mono
  · rfl
  · rfl
  · exact fun _ _ _ hm => (List.mem_erase_of_ne (Ne.symm (ho _ _ _))).mpr hm

theorem clear : Holds d c s (p.modify c d (·.clear)) := by
  have hb : (((p.modify c d (·.clear)).buffer c).channel d).buf = [] := by
    rw [buffer_modify, channel_modify]
    rfl
  constructor
  case suffix      => exact hb ▸ List.nil_suffix
  case outstanding => exact fun hn => absurd hb hn

theorem clear_of_ne (h : Holds d c s p) (hd : d ≠ d') :
    Holds d c s (p.modify c d' (·.clear)) := by
  apply h.mono
  · rw [buffer_modify, channel_modify_of_ne hd]
  · rfl
  · exact fun _ _ _ hm => hm

theorem handled (h : Holds d c s p) (hcs : c ≠ s) (ho : p.closed (d.source c s) = false)
    (hh : Handled c s p e p') (hn : ¬e.terminates p) : Holds d c s p' := by
  cases hh with
  | terminated terminates _                => exact absurd terminates hn
  | connected _ operation _ eq             =>
    exact eq ▸ (h.complete (by simp [operation])).recvMessage.recvMessage
  | ended _ _ _ operation _ _ eq           =>
    exact eq ▸ (h.complete (by simp [operation])).arrive_nil.sendMessage
  | received d' size live operation err eq =>
    by_cases hd : d = d'
    case pos => exact h.received ho (hd ▸ eq)
    case neg =>
      have hc : Holds d c s ((p.complete e.operation).arrive d' c s e.bytes) :=
        (h.complete (by simp [operation])).arrive_of_ne hcs hd
      exact eq ▸ hc.sendMessage.recvMessage
  | sent d' bytes live operation err eq    =>
    by_cases hd : d = d'
    case pos => exact eq ▸ hd ▸ clear
    case neg => exact eq ▸ (h.complete (by simp [operation, Ne.symm hd])).clear_of_ne hd

theorem of_same (h : Holds d c s p) (hs : Same c s p p') : Holds d c s p' := by
  apply h.mono
  · rw [hs.buffer]
  · exact hs.received _ d.source_mem
  · exact fun _ _ _ hm => (hs.mem_pending rfl).mpr hm

theorem single {config : ConfigProxy} {srvAddr : ServerAddress} :
    Holds d c s (single config c s srvAddr) := by
  have hn : (ProxyServer.single config c s srvAddr).buffer c = .new := by
    simp [ProxyServer.single, ProxyServer.start, buffer, touch, SortedMap.find?_insert, init]
  have hb : (((ProxyServer.single config c s srvAddr).buffer c).channel d).buf = [] := by
    rw [hn]
    cases d <;> rfl
  constructor
  case suffix      => exact hb ▸ List.nil_suffix
  case outstanding => exact fun hn => absurd hb hn

end Holds

theorem Given.handled {r : Run (Step validIp) p₀ p} (h : Given r d c s) (hst : Step validIp p e p')
    (hh : Holds d c s p) (hcs : c ≠ s) (ho : p.closed (d.source c s) = false)
    (hd : Handled c s p e p') : Given (r.snoc e hst) d c s := by
  cases hd with
  | terminated _ eq        => exact h.snoc hst (by rw [eq]; rfl)
  | connected _ _ _ eq     => exact h.snoc hst (by rw [eq]; rfl)
  | sent _ _ _ _ _ eq      => exact h.snoc hst (by rw [eq]; rfl)
  | ended d' _ _ _ _ _ eq  =>
    apply h.snoc hst
    rw [eq, sendMessage_received, arrive_received, List.append_nil, Function.update_eq_self]
    rfl
  | received d' _ _ _ _ eq =>
    by_cases hd : d = d'
    case pos => exact h.snoc_received hst hh ho (hd ▸ eq)
    case neg =>
      apply h.snoc hst
      rw [eq, recvMessage_received, sendMessage_received, arrive_received,
        Function.update_of_ne (Direction.source_ne hcs (Ne.symm hd))]
      rfl

theorem holds_given {config : ConfigProxy} (r : Run (Step validIp) (init config).run p)
    (hc : p.server c = some s) (ho : p.closed c = false) : Holds d c s p ∧ Given r d c s := by
  induction r with
  | refl => simp [ProxyServer.run, init, newSocket, acceptClient, start] at hc
  | @snoc p p' r e hst ih =>
    have hi := Invariant.run r
    by_cases hcp : p.server c = some s
    case neg =>
      obtain ⟨_, _, _, _, hs⟩ := hi.same_single hst hcp hc
      refine ⟨Holds.single.of_same hs, fun i hi => ?_⟩
      have hr : p'.received (d.source c s) = [] := hs.received _ d.source_mem
      simp [hr] at hi
    case pos =>
      have hop : p.closed c = false := by
        by_contra hn
        have hc' := hi.closed_mono hst (by simpa using hn)
        simp [ho] at hc'
      have ht := hi.together c s hcp
      obtain ⟨hh, hg⟩ := ih hcp hop
      by_cases hp : e.operation.pair = some (c, s)
      case pos =>
        have hcs := (hi.distinct _ _ _ _ hcp hcp).1
        have hso : p.closed (d.source c s) = false := (Direction.closed_source ht).trans hop
        refine ⟨hh.handled hcs hso (hst.cases hp) ?_, hg.handled hst hh hcs hso (hst.cases hp)⟩
        intro hte
        have hcl : p'.closed c := by
          rw [(hst.cases hp).eq_of_terminates hte]
          simp [terminateClientServerConnection, close]
        simp [ho] at hcl
      case neg =>
        have hs := (hi.same_of_ne hst hcp hp).1
        exact ⟨hh.of_same hs, hg.snoc hst (hs.received _ d.source_mem)⟩

theorem nothingDropped {config : ConfigProxy} (r : Run (Step validIp) (init config).run p)
    (hst : Step validIp p e p') (hcl : e.Closes c s p) (hid : e.ClosesIdle c s p) :
    NothingDropped (r.snoc e hst) p e c s := by
  have hi := Invariant.run r
  obtain ⟨hc, _⟩ := hi.exec_frame hst hcl.pair
  have hh := hst.cases hcl.pair
  have hcs := (hi.distinct _ _ _ _ hc hc).1
  have hnp : ∀ d bytes last live, Operation.write d c s bytes last live ∉ p'.pending := by
    rw [hh.eq_of_terminates hcl.terminates]
    exact hid hcl
  constructor
  case written =>
    intro d i hlt
    obtain ⟨hd, hg⟩ := holds_given (d := d) r hc hcl.opened
    have ho : p.closed (d.source c s) = false :=
      (Direction.closed_source (hi.together c s hc)).trans hcl.opened
    obtain ⟨q, hq, first, past, o, hw, hf, hp⟩ := hg.handled hst hd hcs ho hh i hlt
    rcases id hw with ⟨_, last, live, _, _, _, heq⟩
    have hno : o ∉ p'.pending := heq ▸ hnp _ _ _ _
    obtain ⟨q', hq', hoq⟩ :=
      (StartsWrite.pending_or_completed (r.snoc e hst) q hq hw).resolve_left hno
    refine ⟨q, hq, first, past, o, hw, hf, hp, hno, q', hq', hoq, ?_⟩
    obtain ⟨_, hv, _⟩ := (r.snoc e hst).exists_step_of_mem_steps hq'
    have hoq := hoq.trans heq
    have hnf := not_failure r hst hcl q' hq' (by rw [hoq, Operation.pair])
    have hne := hv.ne_eof_of_write hoq
    cases he : q'.2.err with
    | success => rfl
    | failure => exact absurd he hnf
    | eof     => exact absurd he hne
  case eof     =>
    intro d size live ho d' hd
    refine ⟨?_, fun _ _ _ => hnp _ _ _ _⟩
    by_contra hn
    obtain ⟨bytes, last, live', hm⟩ := (holds_given (d := d') r hc hcl.opened).1.outstanding hn
    exact hid hcl d' bytes last live' ((List.mem_erase_of_ne (by simp [ho])).mpr hm)

theorem run_neverDrops {config : ConfigProxy} (r : Run (Step validIp) (init config).run p)
    (h : ∀ q ∈ r.steps, q.2.ClosesIdle c s q.1) : NeverDrops c s r := by
  induction r with
  | refl => trivial
  | snoc r e hst ih =>
    simp only [Run.steps, List.mem_append, List.mem_singleton, or_imp, forall_and,
      forall_eq] at h
    exact ⟨ih h.1, fun hcl => nothingDropped r hst hcl h.2⟩

namespace Drained

open Overlap

def sent  : Event := ⟨.write .toServer 0 1 [97] false true, .success, [], 0⟩
def ended : Event := ⟨.read .toServer 0 1 10 true, .eof, [], 0⟩

def p₄ := (p₃.complete sent.operation).sendClientMessageHandler 0 1 .success false
def p₅ := ((p₄.complete ended.operation).deliver .toServer 0 1 []).recvClientMessageHandler 0 1
  .eof 0

theorem step₄ : Step isLocal p₃ sent p₄ :=
  ⟨by decide, rfl⟩

theorem step₅ : Step isLocal p₄ ended p₅ :=
  ⟨by decide, rfl⟩

def run : Run (Step isLocal) Overlap.p₀ p₅ :=
  .snoc (.snoc (.snoc (.snoc (.snoc .refl _ step₁) _ step₂) _ step₃) _ step₄) _ step₅

theorem closes : ended.Closes 0 1 p₄ :=
  ⟨rfl, rfl, rfl, by decide⟩

end Drained

theorem run_neverDrops_of_drained : Drained.ended.Closes 0 1 Drained.p₄ ∧
    NeverDrops 0 1 Drained.run := by
  refine ⟨Drained.closes, run_neverDrops Drained.run fun q hq hcl => ?_⟩
  simp only [Drained.run, Run.steps, List.nil_append, List.cons_append, List.mem_cons,
    List.not_mem_nil, or_false] at hq
  rcases hq with rfl | rfl | rfl | rfl | rfl
  · exact absurd hcl.terminates (by decide)
  · exact absurd hcl.terminates (by decide)
  · exact absurd hcl.terminates (by decide)
  · exact absurd hcl.terminates (by decide)
  · intro d bytes last live hm
    have hp : (Drained.p₄.complete Drained.ended.operation).pending =
        [.accept 2, .read .toClient 0 1 10 true] := rfl
    simp [hp] at hm

-- The server's byte is being written to the client when the client closes its side.
namespace Cut

open Overlap

def received : Event := ⟨.read .toClient 0 1 10 true, .success, [97], 0⟩
def ended    : Event := ⟨.read .toServer 0 1 10 true, .eof, [], 0⟩

def p₃ := ((p₂.complete received.operation).deliver .toClient 0 1 [97]).recvServerMessageHandler 0 1
  .success 1
def p₄ := ((p₃.complete ended.operation).deliver .toServer 0 1 []).recvClientMessageHandler 0 1
  .eof 0

theorem step₃ : Step isLocal p₂ received p₃ :=
  ⟨by decide, rfl⟩

theorem step₄ : Step isLocal p₃ ended p₄ :=
  ⟨by decide, rfl⟩

def run : Run (Step isLocal) Overlap.p₀ p₄ :=
  .snoc (.snoc (.snoc (.snoc .refl _ step₁) _ step₂) _ step₃) _ step₄

theorem closes : ended.Closes 0 1 p₃ :=
  ⟨rfl, rfl, rfl, by decide⟩

end Cut

theorem not_neverDrops_of_cut : ¬∀ (validIp : String → Bool) (config : ConfigProxy)
    (p : ProxyServer) (r : Run (Step validIp) (init config).run p) (c s : ℕ),
    NeverDrops c s r := by
  intro h
  have hn : NothingDropped Cut.run Cut.p₃ Cut.ended 0 1 :=
    (h Overlap.isLocal _ _ Cut.run 0 1).2 Cut.closes
  have ⟨_, _, _, _, _, ⟨_, _, _, _, _, _, heq⟩, _, _, _, q, hq, ho, _⟩ :=
    hn.written .toClient 0 (by decide)
  -- No write has completed.
  simp only [Cut.run, Run.steps, List.nil_append, List.cons_append, List.mem_cons,
    List.not_mem_nil, or_false] at hq
  rw [heq] at ho
  rcases hq with rfl | rfl | rfl | rfl
  all_goals exact absurd ho (by simp [Overlap.accepted, Overlap.connected, Cut.received, Cut.ended])

end Proxy
