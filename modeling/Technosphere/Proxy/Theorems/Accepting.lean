import Technosphere.Proxy.Theorems.Connections

namespace Proxy

open ProxyServer

variable {p p' : ProxyServer} {c s sock : ℕ} {e : Event} {validIp : String → Bool}

def ProxyServer.accepts (p : ProxyServer) : ℕ :=
  p.pending.countP Operation.isAccept

def Event.Accepts (e : Event) : Prop :=
  e.operation.isAccept → e.err = .success

theorem accepts_complete_of_pair (hp : e.operation.pair = some (c, s)) :
    (p.complete e.operation).accepts = p.accepts := by
  have ha : ¬e.operation.isAccept := by
    cases ho : e.operation <;> simp_all [Operation.isAccept, Operation.pair]
  rw [accepts, complete, List.countP_erase, if_neg (fun h => ha h.2)]
  rfl

theorem Frame.accepts (hf : Frame c s p p') : p'.accepts = p.accepts := by
  have ⟨os, he, ho⟩ := hf.pending
  have hn : os.countP Operation.isAccept = 0 := by
    rw [List.countP_eq_zero]
    intro o hm
    have := ho o hm
    cases o <;> simp_all [Operation.isAccept, Operation.pair]
  rw [ProxyServer.accepts, he, List.countP_append, hn]
  rfl

namespace Invariant

theorem accepts_step_of_pair (h : Invariant p) (hst : Step validIp p e p')
    (hp : e.operation.pair = some (c, s)) : p'.accepts = p.accepts :=
  (h.exec_frame hst hp).2.accepts.trans (accepts_complete_of_pair hp)

theorem accepts_step_of_accept (h : Invariant p) (hst : Step validIp p e p')
    (ho : e.operation = .accept sock) : p'.accepts = if e.err = .success then 1 else 0 := by
  have hn : (p.complete e.operation).accepts = 0 := by
    rw [ho]
    exact List.countP_eq_zero.mpr (h.accept_not_mem (ho ▸ hst.1.1))
  rcases hst.accept_cases (by rw [ho, Operation.pair]) with ⟨_, _, _, he, hp⟩ | ⟨_, _, he, hp⟩
  · have ha : p'.accepts = (p.complete e.operation).accepts + 1 := by
      rw [hp, ProxyServer.accepts, ProxyServer.accepted, List.countP_append]
      rfl
    rw [ha, hn, if_pos he]
  · rw [if_neg he, hp]
    exact hn

end Invariant

-- With servers whose addresses are valid, no handler throws an exception.
theorem Event.Valid.progress (h : e.Valid p) (hn : p.config.serverAddrs.length % 2 ^ 32 ≠ 0)
    (hip : ∀ srvAddr ∈ p.config.serverAddrs, validIp srvAddr.ip) : ∃ p', Step validIp p e p' := by
  obtain ⟨op, err, bytes, rand⟩ := e
  cases op with
  | accept sock =>
    obtain ⟨srvAddr, hc⟩ := chooseServer_eq (p := (p.complete (.accept sock)).touch sock) hn rand
    have hs : (acceptClientHandler validIp (p.complete (.accept sock)) sock err rand).isSome := by
      simp only [acceptClientHandler]
      split_ifs
      · rfl
      · simp [hc, connectToServer, hip srvAddr (chooseServer_mem hc)]
    obtain ⟨p', hp'⟩ := Option.isSome_iff_exists.mp hs
    exact ⟨p', h, hp'⟩
  | connect => exact ⟨_, h, rfl⟩
  | read d  => cases d <;> exact ⟨_, h, rfl⟩
  | write d => cases d <;> exact ⟨_, h, rfl⟩

theorem Step.config (hst : Step validIp p e p') : p'.config = p.config := by
  cases hp : e.operation.pair with
  | none => rcases hst.accept_cases hp with ⟨_, _, _, _, rfl⟩ | ⟨_, _, _, rfl⟩ <;> rfl
  | some => exact (hst.frame hp).config

theorem run_progress {config : ConfigProxy} (hn : config.serverAddrs.length % 2 ^ 32 ≠ 0)
    (hip : ∀ srvAddr ∈ config.serverAddrs, validIp srvAddr.ip)
    (r : Run (Step validIp) (init config).run p) (h : e.Valid p) : ∃ p', Step validIp p e p' := by
  have hc : p.config = config :=
    r.invariant (P := fun q => q.config = config) rfl fun hq hst => (Step.config hst).trans hq
  exact h.progress (hc ▸ hn) (hc ▸ hip)

theorem run_accepts_iff {config : ConfigProxy} (r : Run (Step validIp) (init config).run p) :
    (∀ q ∈ r.states, q.accepts = 1) ↔ ∀ e ∈ r.events, e.Accepts := by
  rw [← r.forall_mem_steps]
  apply r.states_iff_steps (P := fun q => Invariant q ∧ q.accepts = 1) (C := fun _ e => e.Accepts)
  case hi  => exact ⟨.initial config, rfl⟩
  case hpq => exact And.right
  case hs  =>
    rintro q e q' ⟨hi, hq⟩ ha hst
    refine ⟨hi.step hst, ?_⟩
    cases hp : e.operation.pair with
    | some => exact (hi.accepts_step_of_pair hst hp).trans hq
    | none =>
      cases ho : e.operation with
      | accept sock            =>
        have hr : e.err = .success := ha (by simp [ho, Operation.isAccept])
        rw [hi.accepts_step_of_accept hst ho, if_pos hr]
      | connect | read | write => simp [ho, Operation.pair] at hp
  case hc  =>
    rintro q e q' ⟨hi, _⟩ hq hst ha
    cases ho : e.operation with
    | accept sock            =>
      rw [hi.accepts_step_of_accept hst ho] at hq
      by_contra hn
      simp [hn] at hq
    | connect | read | write => simp [ho, Operation.isAccept] at ha

theorem not_accepts : ¬∀ (validIp : String → Bool) (config : ConfigProxy) (p : ProxyServer)
    (r : Run (Step validIp) (init config).run p), config.serverAddrs ≠ [] →
      (∀ srvAddr ∈ config.serverAddrs, validIp srvAddr.ip) → ∀ q ∈ r.states, q.accepts = 1 := by
  intro h
  let config : ConfigProxy := ⟨[⟨"127.0.0.1", 80⟩]⟩
  let e : Event := ⟨.accept 0, .failure, [], 0⟩
  let p := { (init config).run.complete e.operation with clients := ∅ }.close 0
  have hst : Step (fun _ => true) (init config).run e p := ⟨by decide, rfl⟩
  let r : Run (Step fun _ => true) (init config).run p := .snoc .refl _ hst
  have ha : p.accepts = 1 := h _ config p r (by simp [config]) (by simp) p r.last_mem_states
  exact absurd ha (by decide)

end Proxy
