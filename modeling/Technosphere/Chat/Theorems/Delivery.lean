import Technosphere.Chat.Theorems.Bookkeeping

namespace Chat

variable {accepts : ℕ → ℕ → ℕ} {w w' : World} {listenSocket socket k : ℤ} {bytes : List UInt8}
  {e : Event}

def World.expected (w : World) (k : ℤ) : List UInt8 :=
  if (w.journal.joined k).isSome then welcome ++ (w.journal.seen k).flatMap (·.2) else []

-- The bytes that the connection has accepted are in order and without a gap, and those that are
-- missing can still be sent: there is a way to go on after which nothing is missing.
structure Delivers (accepts : ℕ → ℕ → ℕ) (w : World) (k : ℤ) : Prop where
  unbroken : w.sent k <+: w.expected k
  whole    : ∃ w', Nonempty (Run (Step accepts) w w') ∧ w'.journal.Member k ∧
              w'.sent k = w'.expected k

namespace World

theorem expected_terminateConnection :
    (w.terminateConnection socket).expected k = w.expected k := by
  simp [expected, terminateConnection, Journal.seen_leave]

theorem expected_sendMessage (h : Tracks w) (hk : 0 ≤ k) :
    (w.sendMessage accepts socket).expected k =
      w.expected k ++ given (w.broadcastCalls (w.message socket)) k := by
  rw [given_broadcastCalls, expected, expected, sendMessage_journal, Journal.post_joined]
  by_cases hm : w.journal.Member k
  case pos =>
    rw [if_pos hm.1, if_pos hm.1, if_pos ((h.clients k hk).mpr hm), Journal.seen_post_of_member hm]
    simp
  case neg =>
    rw [if_neg (mt (h.clients k hk).mp hm), Journal.seen_post_of_not_member hm, List.append_nil]

theorem expected_acceptConnection (hs : 0 ≤ socket) (hj : w.journal.joined socket = none) :
    (w.acceptConnection accepts socket).expected k =
      w.expected k ++ given [(socket, welcome)] k := by
  rw [expected, expected, acceptConnection_journal, if_neg hs.not_gt, Journal.join_joined hj,
    Journal.seen_join hj]
  by_cases hk : k = socket
  case pos => simp [hk, hj, given, Journal.seen]
  case neg => simp [hk, Ne.symm hk, given]

-- What an event adds to what is to be sent is what its calls of `send` are given.
theorem expected_exec (h : Tracks w) (hv : e.Valid w) (hk : 0 ≤ k) :
    (e.exec accepts w).expected k = w.expected k ++ given (e.calls w) k := by
  cases e with
  | accept socket =>
    rcases hv with rfl | ⟨hs, _, hj⟩
    · have hne : -1 ≠ k := (neg_one_lt_zero.trans_le hk).ne
      simp [Event.exec, Event.calls, expected, given, hne]
    · exact expected_acceptConnection hs hj
  | hangUp socket =>
    rw [Event.exec, expected_terminateConnection]
    exact (List.append_nil _).symm
  | recv socket result =>
    cases (Event.recv_cases : Event.RecvCases accepts w socket (.recv socket result)) with
    | closed eq calls          =>
      rw [eq, calls, expected_terminateConnection]
      exact (List.append_nil _).symm
    | append _ eq calls        =>
      rw [eq, calls]
      exact (List.append_nil _).symm
    | message bytes _ eq calls =>
      rw [eq, calls, expected_sendMessage (h.append (h.member hv.1 hv.2)) hk]
      rfl

theorem exec_sent (hm : 0 < w.server.maxBufSize) :
    (e.exec accepts w).sent = (w.sendAll accepts (e.calls w)).sent := by
  cases e with
  | accept socket => exact acceptConnection_sent
  | hangUp socket => rfl
  | recv socket result =>
    cases (Event.recv_cases : Event.RecvCases accepts w socket (.recv socket result)) with
    | closed eq calls      => rw [eq, calls]; rfl
    | append _ eq calls    => rw [eq, calls]; rfl
    | message _ _ eq calls =>
      rw [eq, calls, sendMessage_sent_eq (by exact hm)]
      exact sendAll_sent_congr rfl rfl

theorem member_of_mem_calls (h : Tracks w) (hv : e.Valid w) :
    ∀ call ∈ e.calls w, 0 ≤ call.1 → (e.exec accepts w).journal.Member call.1 := by
  intro call hc hk
  cases e with
  | accept socket =>
    obtain rfl := List.mem_singleton.mp hc
    obtain ⟨hs, _, hj⟩ := hv.resolve_left fun hf => by simp [hf] at hk
    rw [Event.exec, acceptConnection_journal, if_neg hs.not_gt, Journal.member_join hj]
    exact .inl rfl
  | hangUp socket => simp [Event.calls] at hc
  | recv socket result =>
    cases (Event.recv_cases : Event.RecvCases accepts w socket (.recv socket result)) with
    | closed _ calls       => simp [calls] at hc
    | append _ _ calls     => simp [calls] at hc
    | message _ _ eq calls =>
      rw [calls] at hc
      obtain ⟨_, _, hc⟩ := List.mem_flatMap.mp hc
      obtain ⟨s, hs, hc⟩ := List.mem_map.mp hc
      subst hc
      rw [eq, sendMessage_journal, Journal.member_post]
      exact (h.clients s hk).mp hs

end World

theorem Tracks.length_sent_le (h : Tracks w) (hk : 0 ≤ k) (r : Run (Step accepts) w w') :
    (w'.sent k).length + (w.expected k).length ≤ (w.sent k).length + (w'.expected k).length := by
  have hr : Tracks w' ∧ (w'.sent k).length + (w.expected k).length ≤
      (w.sent k).length + (w'.expected k).length := by
    apply r.invariant (P := fun s => Tracks s ∧
      (s.sent k).length + (w.expected k).length ≤ (w.sent k).length + (s.expected k).length)
    · exact ⟨h, le_rfl⟩
    · rintro s e _ ⟨ht, hl⟩ ⟨hv, rfl⟩
      refine ⟨ht.exec hv, ?_⟩
      have hs : ((s.sendAll accepts (e.calls s)).sent k).length ≤ _ := World.length_sendAll_le
      rw [World.exec_sent ht.bufSize, World.expected_exec ht hv hk, List.length_append]
      omega
  exact hr.2

theorem Delivers.iff (h : Tracks w) (hm : w.journal.Member k) :
    Delivers accepts w k ↔ w.sent k = w.expected k where
  mp hd := by
    have ⟨w', ⟨r⟩, _, hw⟩ := hd.whole
    apply hd.unbroken.eq_of_length_le
    have := h.length_sent_le (h.nonneg k hm) r
    rw [hw] at this
    omega
  mpr hs := ⟨hs ▸ List.prefix_rfl, w, ⟨.refl⟩, hm, hs⟩

theorem run_delivers_iff (r : Run (Step accepts) (.init listenSocket) w) :
    (∀ w' ∈ r.states, ∀ k, w'.journal.Member k → Delivers accepts w' k) ↔
      ∀ p ∈ r.steps, World.AcceptsAll accepts p.1.sends (p.2.calls p.1) := by
  apply r.states_iff_steps (P := fun w => Tracks w ∧ ∀ k, 0 ≤ k → w.sent k = w.expected k)
    (C := fun w e => World.AcceptsAll accepts w.sends (e.calls w))
  · refine ⟨.initial, fun k _ => ?_⟩
    simp [World.init, World.expected, Journal.empty]
  · rintro w ⟨ht, hs⟩ k hm
    exact (Delivers.iff ht hm).mpr (hs k (ht.nonneg k hm))
  · rintro w e _ ⟨ht, hs⟩ ha ⟨hv, rfl⟩
    refine ⟨ht.exec hv, fun k hk => ?_⟩
    rw [World.exec_sent ht.bufSize, World.sendAll_sent (fun _ _ _ => hk) ha, hs k hk,
      World.expected_exec ht hv hk]
  · rintro w e _ ⟨ht, hs⟩ hd ⟨hv, rfl⟩
    apply World.acceptsAll_of_sent
    intro call hc hk
    have hm : (e.exec accepts w).journal.Member call.1 := World.member_of_mem_calls ht hv call hc hk
    have hd := (Delivers.iff (ht.exec hv) hm).mp (hd _ hm)
    rw [← World.exec_sent ht.bufSize, hd, World.expected_exec ht hv hk, hs _ hk]

-- The first message is cut off by the client's full buffer, and the second one is not. The client
-- gets the start of the first message and right after it the second one.
theorem not_delivers : ¬∀ (accepts : ℕ → ℕ → ℕ) (listenSocket : ℤ) (w : World)
    (r : Run (Step accepts) (.init listenSocket) w),
      ∀ w' ∈ r.states, ∀ k, w'.journal.Member k → Delivers accepts w' k := by
  intro h
  let accepts : ℕ → ℕ → ℕ := fun i n => if i = 1 then 1 else n
  let w₁ := (Event.accept 5).exec accepts (.init 3)
  let w₂ := (Event.recv 5 (some [104, 105, newline])).exec accepts w₁
  let w₃ := (Event.recv 5 (some [121, 111, newline])).exec accepts w₂
  have h₁ : Step accepts (.init 3) (.accept 5) w₁ := ⟨.inr (by decide), rfl⟩
  have h₂ : Step accepts w₁ (.recv 5 (some [104, 105, newline])) w₂ :=
    ⟨⟨by decide, by decide⟩, rfl⟩
  have h₃ : Step accepts w₂ (.recv 5 (some [121, 111, newline])) w₃ :=
    ⟨⟨by decide, by decide⟩, rfl⟩
  let r : Run (Step accepts) (.init 3) w₃ := .snoc (.snoc (.snoc .refl _ h₁) _ h₂) _ h₃
  have hd := (h accepts 3 w₃ r w₃ r.last_mem_states 5 ⟨by decide, by decide⟩).unbroken
  have hn : ¬w₃.sent 5 <+: w₃.expected 5 := by decide
  exact hn hd

end Chat
