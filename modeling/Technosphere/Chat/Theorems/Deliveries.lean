import Technosphere.Chat.Theorems.Conversation

namespace Chat.Network

inductive Event.Delivery : Event → Prop
  | up (k : ℤ) (h : bytes ≠ []) : Delivery (server (.recv k (some bytes)))
  | down (k : ℤ) (h : bytes ≠ []) : Delivery (client k (some (.input (some bytes))) none)

structure Complete (n : Network) : Prop where
  printed : ∀ k, n.world.journal.Member k → (n.clients k).running →
              (n.clients k).printed = Lines.unlines newline (n.world.addressed k)
  lines   : ∀ k, n.world.journal.Member k →
              linesOf (n.world.journal.entries.filter (·.1 = k)) = (n.clients k).said

-- However the bytes that are under way are delivered, this comes to an end, and by then all lines
-- have reached those they are meant for.
structure Drains (accepts : ℕ → ℕ → ℕ) (acceptsFrom : ℤ → ℕ → ℕ → ℕ) (n : Network) : Prop where
  bounded  : ∃ bound, ∀ n' (r : Run (Step accepts acceptsFrom) n n'),
              (∀ e ∈ r.events, e.Delivery) → r.events.length ≤ bound
  complete : ∀ n' (r : Run (Step accepts acceptsFrom) n n'), (∀ e ∈ r.events, e.Delivery) →
              (∀ e : Event, e.Delivery → ¬e.Valid n') → Complete n'

variable {accepts : ℕ → ℕ → ℕ} {acceptsFrom : ℤ → ℕ → ℕ → ℕ} {listenSocket k : ℤ} {n n' : Network}
  {e : Event} {S : Finset ℤ} {bytes : List UInt8}

-- What is a proper prefix can be continued.
theorem eq_of_forall_singleton {xs ys : List UInt8} (hp : xs <+: ys)
    (h : ∀ b, ¬xs ++ [b] <+: ys) : xs = ys := by
  obtain ⟨_ | ⟨b, rest⟩, rfl⟩ := hp
  · exact (List.append_nil _).symm
  · exact absurd ⟨rest, by simp⟩ (h b)

namespace Invariant

theorem received_eq (h : Invariant n) (hq : ∀ e : Event, e.Delivery → ¬e.Valid n)
    (hm : n.world.journal.Member k) : n.world.received k = (n.clients k).sent := by
  apply eq_of_forall_singleton (h.up k)
  intro b hb
  exact hq (.server (.recv k (some [b]))) (.up k (List.cons_ne_nil _ _))
    ⟨h.serves.watched k hm, hb, h.world.bufSize⟩

theorem client_received_eq (h : Invariant n) (hq : ∀ e : Event, e.Delivery → ¬e.Valid n)
    (hr : (n.clients k).running) : (n.clients k).received = n.world.sent k := by
  apply eq_of_forall_singleton (h.down k)
  intro b hb
  refine hq (.client k (some (.input (some [b]))) none) (.down k (List.cons_ne_nil _ _))
    ⟨hr, ?_, by simp⟩
  rintro bytes ⟨⟩
  exact ⟨hb, (h.client k).bufSize⟩

theorem complete (h : Invariant n) (hq : ∀ e : Event, e.Delivery → ¬e.Valid n) :
    Complete n where
  printed := by
    intro k hm hr
    have ⟨shown, hs, hb, _⟩ := (h.client k).printed
    rw [h.client_received_eq hq hr, h.world.sent_eq_unlines] at hb
    have hn := Lines.eq_nil_of_append_eq_unlines hb (h.client k).message
    rw [hs, Client.farewell, if_pos hr, List.append_nil, ← hb, hn, List.append_nil]
  lines   := by
    intro k hm
    obtain ⟨buf, hf, hb⟩ := h.world.buffer k hm
    have hl := h.serves.message k
    rw [Chat.Invariant.message_eq hf] at hl
    rw [h.received_eq hq hm, (h.client k).sent] at hb
    have hn := Lines.eq_nil_of_append_eq_unlines hb hl
    rw [hn, List.append_nil, h.world.messagesOf_eq_unlines] at hb
    exact Lines.unlines_inj h.world.not_mem_linesOf_filter (h.client k).lines hb

end Invariant

-- How much is under way from the connection and to it. A byte that the server has not got yet may
-- lead to one for each connection.
def underWay (n : Network) (k : ℤ) : ℕ :=
  (n.world.server.clients.keys.length + 1) *
      ((n.clients k).sent.length - (n.world.received k).length) +
    n.world.server.clients.keys.length * (n.world.message k).length +
    ((n.world.sent k).length - (n.clients k).received.length)

theorem recv_some {w : World} (hb : bytes ≠ []) :
    (Chat.Event.recv k (some bytes)).exec accepts w = w.append k bytes ∨
      (Chat.Event.recv k (some bytes)).exec accepts w =
        (w.append k bytes).sendMessage accepts k := by
  obtain ⟨b, bytes, rfl⟩ := List.exists_cons_of_ne_nil hb
  by_cases hl : ((w.append k (b :: bytes)).message k).getLast? = some newline
  case pos => exact .inr (by simp [Chat.Event.exec, World.recvMessage, hl])
  case neg => exact .inl (by simp [Chat.Event.exec, World.recvMessage, hl])

theorem sum_broadcast_le {m : ℕ} {keys : List ℤ} :
    ∑ j ∈ S, (if j ∈ keys then m else 0) ≤ keys.length * m := by
  calc ∑ j ∈ S, (if j ∈ keys then m else 0)
    _ = ∑ j ∈ S, (if j ∈ keys.toFinset then m else 0) := by simp
    _ = (S ∩ keys.toFinset).card * m := by
      rw [Finset.sum_ite_mem, Finset.sum_const, smul_eq_mul]
    _ ≤ keys.length * m := by
      apply Nat.mul_le_mul_right
      exact (Finset.card_le_card Finset.inter_subset_right).trans (List.toFinset_card_le _)

theorem sum_underWay_lt (hk : k ∈ S) (hb : bytes ≠ [])
    (h : ∀ j, n'.underWay j + (if j = k then bytes.length else 0) = n.underWay j) :
    ∑ j ∈ S, n'.underWay j < ∑ j ∈ S, n.underWay j := by
  have hs : ∑ j ∈ S, n.underWay j = ∑ j ∈ S, n'.underWay j + bytes.length := by
    rw [← Finset.sum_congr rfl fun j _ => h j, Finset.sum_add_distrib, Finset.sum_ite_eq' S k,
      if_pos hk]
  have := List.length_pos_of_ne_nil hb
  omega

theorem Event.Valid.length_le (hv : (server (.recv k (some bytes))).Valid n) :
    (n.clients k).sent.length - (n.world.received k).length =
      (n.clients k).sent.length - (n.world.received k ++ bytes).length + bytes.length := by
  have := hv.2.1.length_le
  rw [List.length_append] at this ⊢
  omega

theorem underWay_append (hv : (Event.server (.recv k (some bytes))).Valid n) (j : ℤ) :
    underWay { n with world := n.world.append k bytes } j + (if j = k then bytes.length else 0) =
      n.underWay j := by
  by_cases hj : j = k
  case pos =>
    subst hj
    rw [underWay, underWay, append_received, append_message, hv.length_le, if_pos rfl,
      @List.length_append _ (n.world.message j)]
    simp only [World.append, World.setMessage]
    ring
  case neg =>
    have hs : Silent j n.world (n.world.append k bytes) := .append hj
    rw [underWay, underWay, hs.received, hs.message, if_neg hj]
    rfl

theorem underWay_sendMessage (ha : ∀ i m, accepts i m = m) (h : Invariant n)
    (hv : (Event.server (.recv k (some bytes))).Valid n) (j : ℤ) :
    let keys := n.world.server.clients.keys
    let message := n.world.message k ++ bytes
    underWay { n with world := (n.world.append k bytes).sendMessage accepts k } j +
        (if j = k then keys.length * message.length + bytes.length else 0) =
      n.underWay j + (if j ∈ keys then message.length else 0) := by
  intro keys message
  let w := n.world.append k bytes
  have hm : w.message k = message := append_message
  have hd : ((w.sendMessage accepts k).sent j).length - (n.clients j).received.length =
      (n.world.sent j).length - (n.clients j).received.length +
        (if j ∈ keys then message.length else 0) := by
    have hl := (h.down j).length_le
    have hs : (w.sendMessage accepts k).sent j =
        if j ∈ keys then n.world.sent j ++ message else n.world.sent j := by
      rw [← hm]
      exact World.sendMessage_sent ha h.world.clients_nonneg h.world.bufSize
    rw [hs]
    split_ifs
    · rw [List.length_append]
      omega
    · rfl
  rw [underWay, underWay, hd, World.sendMessage_received, World.sendMessage_server]
  by_cases hj : j = k
  case pos =>
    subst hj
    have hn : (w.sendMessage accepts j).message j = [] := by simp [World.message]
    rw [hn, append_received, hv.length_le, if_pos rfl]
    simp only [message, keys, List.length_append, List.length_nil, World.append, World.setMessage]
    ring
  case neg =>
    have ha : Silent j n.world w := .append hj
    have hs : Silent j w (w.sendMessage accepts k) := .sendMessage hj
    rw [hs.message, ha.message, ha.received, if_neg hj]
    simp only [keys, World.append, World.setMessage]
    ring

theorem underWay_client (haf : ∀ k i m, acceptsFrom k i m = m) (h : Invariant n)
    (hv : (Event.client k (some (.input (some bytes))) none).Valid n) (j : ℤ) :
    underWay ((Event.client k (some (.input (some bytes))) none).exec accepts acceptsFrom n) j +
      (if j = k then bytes.length else 0) = n.underWay j := by
  have hr := @exec_client_received accepts k acceptsFrom n j (some (.input (some bytes))) none haf
    (h.client k).bufSize
  rw [Client.polled] at hr
  by_cases hj : j = k
  case pos =>
    subst hj
    have hl := ((hv.2.1 bytes rfl).1).length_le
    rw [if_pos rfl] at hr ⊢
    rw [List.length_append] at hl
    rw [underWay, hr]
    simp only [underWay, Event.exec, Function.update_self, Client.connectTo_none_sent,
      List.length_append]
    omega
  case neg => simp [underWay, Event.exec, hj]

theorem joined_of_delivery (hd : e.Delivery) : (e.exec accepts acceptsFrom n).world.journal.joined =
    n.world.journal.joined := by
  cases hd with
  | up k hb =>
    rcases @recv_some accepts k _ n.world hb with eq | eq
    · rw [Event.exec, eq]
      rfl
    · rw [Event.exec, eq, World.sendMessage_journal]
      rfl
  | down k _ => rfl

section Drains

variable (ha : ∀ i m, accepts i m = m) (haf : ∀ k i m, acceptsFrom k i m = m)
include ha haf

theorem Invariant.delivery_lt (h : Invariant n)
    (hS : ∀ j, (n.world.journal.joined j).isSome → j ∈ S) (hd : e.Delivery) (hv : e.Valid n) :
    ∑ j ∈ S, (e.exec accepts acceptsFrom n).underWay j < ∑ j ∈ S, n.underWay j := by
  cases hd with
  | @up bytes k hb   =>
    have hm := h.world.member hv.world.1 hv.world.2
    rcases @recv_some accepts k _ n.world hb with eq | eq
    · rw [Event.exec, eq]
      exact sum_underWay_lt (hS k hm.1) hb (underWay_append hv)
    · have hs := Finset.sum_congr (rfl : S = S) fun j _ => underWay_sendMessage ha h hv j
      rw [Finset.sum_add_distrib, Finset.sum_add_distrib, Finset.sum_ite_eq' S k,
        if_pos (hS k hm.1)] at hs
      rw [Event.exec, eq]
      have hb := List.length_pos_of_ne_nil hb
      have hl := @sum_broadcast_le S (n.world.message k ++ bytes).length
        n.world.server.clients.keys
      omega
  | @down bytes k hb =>
    apply sum_underWay_lt _ hb (underWay_client haf h hv)
    apply hS
    by_contra hj
    have hp := (hv.2.1 bytes rfl).1
    rw [(h.world.fresh k (by simpa using hj)).2.2] at hp
    exact hb (List.append_eq_nil_iff.mp (List.prefix_nil.mp hp)).2

theorem Invariant.deliveries (h : Invariant n)
    (hS : ∀ j, (n.world.journal.joined j).isSome → j ∈ S) (r : Run (Step accepts acceptsFrom) n n')
    (hd : ∀ e ∈ r.events, e.Delivery) : Invariant n' ∧
      (∀ j, (n'.world.journal.joined j).isSome → j ∈ S) ∧
      r.events.length + ∑ j ∈ S, n'.underWay j ≤ ∑ j ∈ S, n.underWay j := by
  induction r with
  | refl => exact ⟨h, hS, by simp [Run.events]⟩
  | snoc r e hs ih =>
    obtain ⟨hr, he⟩ := List.forall_mem_append.mp hd
    have he := List.forall_mem_singleton.mp he
    obtain ⟨h, hS, hl⟩ := ih hr
    obtain ⟨hv, rfl⟩ := hs
    refine ⟨h.step ha haf (by rintro rfl; cases he) ⟨hv, rfl⟩, ?_, ?_⟩
    · rwa [joined_of_delivery he]
    · have := h.delivery_lt ha haf hS he hv
      simp only [Run.events, List.length_append, List.length_singleton]
      omega

theorem run_drains (r : Run (Step accepts acceptsFrom) (.init listenSocket) n)
    (hf : ∀ e ∈ r.events, e ≠ .server (.accept (-1))) : Drains accepts acceptsFrom n := by
  have h := Invariant.run ha haf r hf
  have hS : ∀ j, (n.world.journal.joined j).isSome → j ∈ h.serves.joined.toFinset := by simp
  constructor
  case bounded  =>
    refine ⟨∑ j ∈ h.serves.joined.toFinset, n.underWay j, fun n' r hd => ?_⟩
    have := (h.deliveries ha haf hS r hd).2.2
    omega
  case complete => exact fun n' r hd hq => (h.deliveries ha haf hS r hd).1.complete hq

end Drains

-- A client has said something and come to the end of its input, and the server has received none of
-- it yet.
theorem run_drains_of_two :
    let accepts : ℕ → ℕ → ℕ := fun _ m => m
    let acceptsFrom : ℤ → ℕ → ℕ → ℕ := fun _ _ m => m
    let n₁ := (Event.server (.accept 5)).exec accepts acceptsFrom (.init 3)
    let n₂ := (Event.client 5 none (some (some [104, 105]))).exec accepts acceptsFrom n₁
    let n₃ := (Event.client 5 none (some none)).exec accepts acceptsFrom n₂
    Drains accepts acceptsFrom n₃ := by
  intro accepts acceptsFrom n₁ n₂ n₃
  have h₁ : Step accepts acceptsFrom (.init 3) (.server (.accept 5)) n₁ := ⟨.inr (by decide), rfl⟩
  have h₂ : Step accepts acceptsFrom n₁ (.client 5 none (some (some [104, 105]))) n₂ :=
    ⟨⟨rfl, by simp, by simp [newline]; rfl⟩, rfl⟩
  have h₃ : Step accepts acceptsFrom n₂ (.client 5 none (some none)) n₃ :=
    ⟨⟨rfl, by simp, by simp⟩, rfl⟩
  exact run_drains (fun _ _ => rfl) (fun _ _ _ => rfl) (.snoc (.snoc (.snoc .refl _ h₁) _ h₂) _ h₃)
    (by simp [Run.events])

end Chat.Network
