import Technosphere.Lib.Run

-- The accounting of runs in which each step completes an operation that is outstanding and may
-- start others. Operations have a price that covers what they can still lead to.
namespace Budget

section Prices

variable {α : Type u} {pending pending' started : List α} {o : α}

theorem length_le_sum {price : α → ℕ} (h : ∀ o ∈ pending, 0 < price o) :
    pending.length ≤ (pending.map price).sum := by
  have hp : ∀ n ∈ pending.map price, 1 ≤ n := List.forall_mem_map.mpr h
  simpa using List.length_le_sum_of_one_le _ hp

theorem sum_le_countP {price : α → ℕ} {n : ℕ} {q q' : α → Bool} (h : ∀ o ∈ pending,
    price o ≤ 1 + n * ((if q o then 1 else 0) + (if q' o then 1 else 0))) :
    (pending.map price).sum ≤ pending.length + n * (pending.countP q + pending.countP q') := by
  induction pending with
  | nil            => simp
  | cons o pending ih =>
    have ⟨ho, hp⟩ := List.forall_mem_cons.mp h
    simp only [List.map_cons, List.sum_cons, List.length_cons, List.countP_cons]
    calc price o + (pending.map price).sum
      _ ≤ 1 + n * ((if q o then 1 else 0) + (if q' o then 1 else 0)) +
          (pending.length + n * (pending.countP q + pending.countP q')) := add_le_add ho (ih hp)
      _ = _ := by ring

variable [DecidableEq α]

theorem sum_complete (price : α → ℕ) (hm : o ∈ pending)
    (hp : pending' = pending.erase o ++ started) :
    (pending'.map price).sum + price o = (pending.map price).sum + (started.map price).sum := by
  rw [hp, List.map_append, List.sum_append, ← List.sum_map_erase price hm]
  ring

theorem countP_complete {q : α → Bool} (hm : o ∈ pending)
    (hp : pending' = pending.erase o ++ started) :
    pending'.countP q + (if q o then 1 else 0) = pending.countP q + started.countP q := by
  rw [hp, List.countP_append, (List.perm_cons_erase hm).countP_eq q, List.countP_cons]
  ring

end Prices

section Runs

variable {σ : Type u} {ε : Type v} {step : σ → ε → σ → Prop} {s₁ s₂ : σ} {P : σ → Prop}
  {stock earned : σ → ℕ} {counts : ε → Bool}

theorem countP_events (hi : P s₁)
    (hs : ∀ {s e s'}, P s → step s e s' → P s' ∧
      (if counts e then 1 else 0) + stock s' + earned s ≤ stock s + earned s')
    (r : Run step s₁ s₂) :
    r.events.countP counts + stock s₂ + earned s₁ ≤ stock s₁ + earned s₂ := by
  suffices h : P s₂ ∧ r.events.countP counts + stock s₂ + earned s₁ ≤ stock s₁ + earned s₂ from h.2
  induction r with
  | refl => exact ⟨hi, by simp [Run.events]⟩
  | snoc r e hst ih =>
    obtain ⟨hp, hle⟩ := ih
    obtain ⟨hp', hle'⟩ := hs hp hst
    refine ⟨hp', ?_⟩
    rw [Run.events, List.countP_append, List.countP_singleton]
    omega

end Runs

end Budget
