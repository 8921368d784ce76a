import Technosphere.Proxy.Theorems.Handlers

namespace Proxy

open ProxyServer

variable {p p' : ProxyServer} {c s k : ℕ} {d : Direction} {o : Operation} {e : Event}
  {bytes : List UInt8} {validIp : String → Bool}

-- What is read fits into the array it is put into, and what is flushed lies in it.
def Channel.Fits (ch : Channel) : Prop :=
  ch.tempBuf.length = 10 ∧ ch.size ≤ ch.tempBuf.length

structure ClientBuffer.Fits (b : ClientBuffer) : Prop where
  tempSize : b.tempSize = 10
  channel  : ∀ d, (b.channel d).Fits

namespace ClientBuffer.Fits

theorem new : ClientBuffer.new.Fits :=
  ⟨rfl, fun d => by cases d <;> exact ⟨rfl, Nat.zero_le _⟩⟩

theorem modify {b : ClientBuffer} {f : Channel → Channel} (h : b.Fits)
    (hf : (f (b.channel d)).Fits) : (b.modify d f).Fits where
  tempSize := by cases d <;> exact h.tempSize
  channel  := by
    intro d'
    by_cases hd : d' = d
    case pos =>
      rw [hd, channel_modify]
      exact hf
    case neg =>
      rw [channel_modify_of_ne hd]
      exact h.channel d'

end ClientBuffer.Fits

namespace Channel.Fits

variable {ch : Channel}

theorem fill (h : ch.Fits) (hb : bytes.length ≤ 10) : (ch.fill bytes).Fits := by
  have hl : (ch.fill bytes).tempBuf.length = 10 := by
    have := h.1
    simp only [Channel.fill, List.length_append, List.length_drop]
    omega
  exact ⟨hl, h.2.trans (h.1.trans hl.symm).le⟩

theorem setSize {n : ℕ} (h : ch.Fits) (hn : n ≤ 10) : (ch.setSize n).Fits :=
  ⟨h.1, hn.trans h.1.ge⟩

end Channel.Fits

structure Fits (p : ProxyServer) : Prop where
  entries : ∀ k b, p.clients.find? k = some b → b.Fits
  reads   : ∀ d c s size live, .read d c s size live ∈ p.pending → size ≤ 10

namespace Fits

theorem buffer (h : Fits p) (k : ℕ) : (p.buffer k).Fits := by
  rw [ProxyServer.buffer]
  cases hk : p.clients.find? k with
  | none   => exact .new
  | some b => exact h.entries k b hk

theorem touch (h : Fits p) : Fits (p.touch k) := by
  refine ⟨fun k' b hb => ?_, h.reads⟩
  simp only [ProxyServer.touch, SortedMap.find?_insert] at hb
  split_ifs at hb
  · exact Option.some.inj hb ▸ .new
  · exact h.entries k' b hb

theorem modify {f : Channel → Channel} (h : Fits p) (hf : (f ((p.buffer k).channel d)).Fits) :
    Fits (p.modify k d f) := by
  refine ⟨fun k' b hb => ?_, h.reads⟩
  simp only [ProxyServer.modify, SortedMap.find?_set] at hb
  split_ifs at hb
  · exact Option.some.inj hb ▸ (h.buffer k).modify hf
  · exact h.entries k' b hb

theorem start (h : Fits p) (ho : ∀ d c s size live, o = .read d c s size live → size ≤ 10) :
    Fits (p.start o) := by
  refine ⟨h.entries, fun d c s size live hm => ?_⟩
  rcases List.mem_append.mp hm with hm | hm
  · exact h.reads d c s size live hm
  · exact ho d c s size live (List.mem_singleton.mp hm).symm

theorem hand (h : Fits p) : Fits (p.hand k bytes) where
  entries := by
    rw [hand_clients]
    exact h.entries
  reads   := by
    rw [hand_pending]
    exact h.reads

theorem complete (h : Fits p) : Fits (p.complete o) :=
  ⟨h.entries, fun d c s size live hm => h.reads d c s size live (List.mem_of_mem_erase hm)⟩

theorem erase (h : Fits p) : Fits { p with clients := p.clients.erase k } := by
  refine ⟨fun k' b hb => ?_, h.reads⟩
  simp only [SortedMap.find?_erase] at hb
  split_ifs at hb
  exact h.entries k' b hb

theorem terminate (h : Fits p) : Fits (p.terminateClientServerConnection c s) :=
  { h.erase with }

theorem recvMessage (h : Fits p) : Fits (p.recvMessage d c s) := by
  refine h.touch.start ?_
  rintro _ _ _ _ _ ⟨⟩
  exact (min_le_right _ _).trans (h.touch.buffer c).tempSize.le

theorem sendMessage {last : Bool} (h : Fits p) : Fits (p.sendMessage d c s last) := by
  exact Fits.start h.touch.hand (by simp)

theorem deliver (h : Fits p) (hb : bytes.length ≤ 10) : Fits (p.deliver d c s bytes) := by
  have hr : Fits (p.receive (d.source c s) bytes) := { h with }
  simp only [ProxyServer.deliver]
  split_ifs
  · exact hr
  · exact hr.modify (((hr.buffer c).channel d).fill hb)

theorem arrive (h : Fits p) (hb : bytes.length ≤ 10) : Fits (p.arrive d c s bytes) := by
  have hd := h.deliver (d := d) (c := c) (s := s) hb
  have hs := hd.modify (f := (·.setSize bytes.length)) (((hd.buffer c).channel d).setSize hb)
  exact hs.modify ((hs.buffer c).channel d)

theorem handled (h : Fits p) (hh : Handled c s p e p')
    (hb : ∀ d size live, e.operation = .read d c s size live → e.bytes.length ≤ size)
    (hm : e.operation ∈ p.pending) : Fits p' := by
  cases hh with
  | terminated _ eq               => exact eq ▸ h.complete.terminate
  | connected _ _ _ eq            => exact eq ▸ h.complete.recvMessage.recvMessage
  | received d size live operation _ eq =>
    have hl := (hb d size live operation).trans (h.reads d c s size live (operation ▸ hm))
    exact eq ▸ (h.complete.arrive hl).sendMessage.recvMessage
  | ended _ _ _ _ _ _ eq          => exact eq ▸ (h.complete.arrive (Nat.zero_le _)).sendMessage
  | sent d _ _ _ _ eq             => exact eq ▸ h.complete.modify ((h.complete.buffer c).channel d)

theorem accepted {srvAddr : ServerAddress} (h : Fits p) : Fits (p.accepted c srvAddr) where
  entries := h.touch.entries
  reads   := by
    intro d c' s' size live hm
    rcases List.mem_append.mp hm with hm | hm
    · exact h.reads d c' s' size live hm
    · simp at hm

theorem step (h : Fits p) (hst : Step validIp p e p') : Fits p' := by
  cases hp : e.operation.pair with
  | none    =>
    rcases hst.accept_cases hp with ⟨c, srvAddr, _, _, rfl⟩ | ⟨c, _, _, rfl⟩
    · exact h.complete.accepted
    · exact { h.complete.erase with }
  | some cs =>
    refine h.handled (hst.cases hp) (fun d size live ho => ?_) hst.1.1
    have hv := hst.1.2
    simp only [ho] at hv
    split_ifs at hv
    · exact hv.2.2
    · simp [hv.2]

theorem run {config : ConfigProxy} (r : Run (Step validIp) (init config).run p) : Fits p := by
  apply r.invariant
  case hi =>
    constructor <;> simp [ProxyServer.run, init, newSocket, acceptClient, ProxyServer.start]
  case hs => exact step

end Fits

end Proxy
