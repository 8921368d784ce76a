import Technosphere.Chat.Theorems.Network

namespace Chat

-- `"Welcome"`
def greeting : List UInt8 :=
  welcome.dropLast

def linesOf (entries : List (ℤ × List UInt8)) : List (List UInt8) :=
  entries.flatMap (Lines.lines newline ·.2)

-- The lines that are meant for a connection: the greeting, and then those that are broadcast
-- between its `accept` and its termination.
def World.addressed (w : World) (k : ℤ) : List (List UInt8) :=
  if (w.journal.joined k).isSome then greeting :: linesOf (w.journal.seen k) else []

-- Each client prints the first lines of those that are meant for it, and nothing else until its
-- connection is lost. The lines that are broadcast for a connection are the first ones of those
-- that its client has said.
structure Network.Safety (n : Network) : Prop where
  printed : ∀ k, ∃ m, (n.clients k).printed =
              Lines.unlines newline ((n.world.addressed k).take m) ++ (n.clients k).farewell
  lines   : ∀ k, linesOf (n.world.journal.entries.filter (·.1 = k)) <+: (n.clients k).said

variable {accepts : ℕ → ℕ → ℕ} {acceptsFrom : ℤ → ℕ → ℕ → ℕ} {listenSocket k : ℤ} {w : World}
  {n n' : Network} {entries : List (ℤ × List UInt8)}

theorem unlines_linesOf (h : ∀ m ∈ entries, m.2.getLast? = some newline) :
    Lines.unlines newline (linesOf entries) = entries.flatMap (·.2) := by
  induction entries with
  | nil            => rfl
  | cons m _ ih =>
    obtain ⟨hm, h⟩ := List.forall_mem_cons.mp h
    rw [linesOf, List.flatMap_cons, Lines.unlines_append, Lines.unlines_lines (.inr hm)]
    exact congrArg _ (ih h)

theorem not_mem_linesOf (h : ∀ m ∈ entries, m.2.getLast? = some newline) :
    ∀ l ∈ linesOf entries, newline ∉ l := by
  intro l hl
  obtain ⟨m, hm, hl⟩ := List.mem_flatMap.mp hl
  exact Lines.not_mem_of_mem_lines (.inr (h m hm)) l hl

namespace Invariant

theorem sent_eq_expected (h : Invariant w) : w.sent k = w.expected k := by
  rw [World.expected]
  split_ifs with hj
  · exact h.sent k hj
  · exact (h.fresh k (by simpa using hj)).2.2

theorem sent_eq_unlines (h : Invariant w) :
    w.sent k = Lines.unlines newline (w.addressed k) := by
  rw [h.sent_eq_expected, World.expected, World.addressed]
  split_ifs
  · rw [Lines.unlines_cons, unlines_linesOf fun m hm => h.messages m (Journal.mem_of_mem_seen hm)]
    rfl
  · rfl

theorem not_mem_addressed (h : Invariant w) : ∀ l ∈ w.addressed k, newline ∉ l := by
  rw [World.addressed]
  split_ifs
  · exact List.forall_mem_cons.mpr
      ⟨by decide, not_mem_linesOf fun m hm => h.messages m (Journal.mem_of_mem_seen hm)⟩
  · simp

theorem messagesOf_eq_unlines (h : Invariant w) : messagesOf w.journal.entries k =
    Lines.unlines newline (linesOf (w.journal.entries.filter (·.1 = k))) :=
  (unlines_linesOf fun m hm => h.messages m (List.mem_of_mem_filter hm)).symm

theorem not_mem_linesOf_filter (h : Invariant w) :
    ∀ l ∈ linesOf (w.journal.entries.filter (·.1 = k)), newline ∉ l :=
  not_mem_linesOf fun m hm => h.messages m (List.mem_of_mem_filter hm)

end Invariant

namespace Network

theorem Invariant.safety (h : Invariant n) : Safety n where
  printed := by
    intro k
    have ⟨shown, hs, hm, hl⟩ := (h.client k).printed
    have hp : shown <+: Lines.unlines newline (n.world.addressed k) := by
      rw [← h.world.sent_eq_unlines]
      exact (hm ▸ List.prefix_append ..).trans (h.down k)
    obtain ⟨m, rfl⟩ := Lines.eq_unlines_take h.world.not_mem_addressed hp hl
    exact ⟨m, hs⟩
  lines   := by
    intro k
    have hp := (h.world.within k).trans (h.up k)
    rw [h.world.messagesOf_eq_unlines, (h.client k).sent] at hp
    have ⟨m, hm⟩ := Lines.eq_unlines_take (h.client k).lines hp Lines.unlines_getLast?
    rw [Lines.unlines_inj h.world.not_mem_linesOf_filter
      (fun l hl => (h.client k).lines l (List.mem_of_mem_take hl)) hm]
    exact List.take_prefix ..

theorem run_safety (ha : ∀ i m, accepts i m = m) (haf : ∀ k i m, acceptsFrom k i m = m)
    (r : Run (Step accepts acceptsFrom) (.init listenSocket) n)
    (hf : ∀ e ∈ r.events, e ≠ .server (.accept (-1))) : Safety n :=
  (Invariant.run ha haf r hf).safety

theorem run_safety_of_two :
    let accepts : ℕ → ℕ → ℕ := fun _ m => m
    let acceptsFrom : ℤ → ℕ → ℕ → ℕ := fun _ _ m => m
    let n₁ := (Event.server (.accept 5)).exec accepts acceptsFrom (.init 3)
    let n₂ := (Event.client 5 none (some (some [104, 105]))).exec accepts acceptsFrom n₁
    let n₃ := (Event.server (.recv 5 (some [104, 105, newline]))).exec accepts acceptsFrom n₂
    let n₄ := (Event.client 5 (some (.input (some (welcome ++ [104, 105, newline])))) none).exec
      accepts acceptsFrom n₃
    Safety n₄ := by
  intro accepts acceptsFrom n₁ n₂ n₃ n₄
  have h₁ : Step accepts acceptsFrom (.init 3) (.server (.accept 5)) n₁ := ⟨.inr (by decide), rfl⟩
  have h₂ : Step accepts acceptsFrom n₁ (.client 5 none (some (some [104, 105]))) n₂ :=
    ⟨⟨rfl, by simp, by simp [newline]; rfl⟩, rfl⟩
  have h₃ : Step accepts acceptsFrom n₂ (.server (.recv 5 (some [104, 105, newline]))) n₃ :=
    ⟨⟨⟨by decide, by decide⟩, by decide, by decide⟩, rfl⟩
  have h₄ : Step accepts acceptsFrom n₃
      (.client 5 (some (.input (some (welcome ++ [104, 105, newline])))) none) n₄ := by
    refine ⟨⟨by decide, ?_, by simp⟩, rfl⟩
    intro bytes hb
    obtain rfl : welcome ++ [104, 105, newline] = bytes := by simpa using hb
    decide
  exact run_safety (fun _ _ => rfl) (fun _ _ _ => rfl)
    (.snoc (.snoc (.snoc (.snoc .refl _ h₁) _ h₂) _ h₃) _ h₄) (by simp [Run.events])

end Network

end Chat
