import Mathlib

-- A run of a system that is given by its labelled transition relation `step`. Runs grow at their
-- end, so induction over a run goes from its first state forwards.
inductive Run {σ : Type u} {ε : Type v} (step : σ → ε → σ → Prop) (s₁ : σ) : σ → Type (max u v)
  | refl : Run step s₁ s₁
  | snoc : Run step s₁ s₂ → (e : ε) → (step s₂ e s₃) → Run step s₁ s₃

namespace Run

variable {σ : Type u} {ε : Type v} {step : σ → ε → σ → Prop} {s₁ : σ}

def events {s₂ : σ} : Run step s₁ s₂ → List ε
  | refl       => []
  | snoc r e _ => r.events ++ [e]

def states {s₂ : σ} : Run step s₁ s₂ → List σ
  | refl       => [s₁]
  | snoc r _ _ => r.states ++ [s₂]

def steps {s₂ : σ} : Run step s₁ s₂ → List (σ × ε)
  | refl                    => []
  | @snoc _ _ _ _ s _ r e _ => r.steps ++ [(s, e)]

theorem forall_mem_steps_snoc {Q : σ × ε → Prop} {s₂ s₃ : σ} {e : ε} {r : Run step s₁ s₂}
    {h : step s₂ e s₃} :
    (∀ p ∈ (r.snoc e h).steps, Q p) ↔ (∀ p ∈ r.steps, Q p) ∧ Q (s₂, e) := by
  simp [steps, or_imp, forall_and]

theorem map_steps {s₂ : σ} : (r : Run step s₁ s₂) → r.steps.map (·.2) = r.events
  | refl       => rfl
  | snoc r _ _ => by simp [steps, events, r.map_steps]

theorem forall_mem_steps {D : ε → Prop} {s₂ : σ} (r : Run step s₁ s₂) :
    (∀ p ∈ r.steps, D p.2) ↔ ∀ e ∈ r.events, D e := by
  rw [← r.map_steps, List.forall_mem_map]

theorem exists_step_of_mem_steps {p : σ × ε} {s₂ : σ} :
    (r : Run step s₁ s₂) → (p ∈ r.steps) → ∃ s, step p.1 p.2 s
  | snoc r e hs, h => by
    simp only [steps, List.mem_append, List.mem_singleton] at h
    rcases h with h | rfl
    · exact r.exists_step_of_mem_steps h
    · exact ⟨_, hs⟩

theorem mem_events_of_mem_steps {p : σ × ε} {s₂ : σ} (r : Run step s₁ s₂) (h : p ∈ r.steps) :
    p.2 ∈ r.events :=
  r.forall_mem_steps.mpr (fun _ he => he) p h

theorem last_mem_states {s₂ : σ} : (r : Run step s₁ s₂) → s₂ ∈ r.states
  | refl | snoc .. => by simp [states]

def append {s₂ s₃ : σ} (r : Run step s₁ s₂) : Run step s₂ s₃ → Run step s₁ s₃
  | refl        => r
  | snoc r' e h => snoc (r.append r') e h

section Invariant

variable {P : σ → Prop} {C : σ → ε → Prop}

theorem invariant (hi : P s₁) (hs : ∀ {s e s'}, P s → step s e s' → P s') {s₂ : σ} :
    Run step s₁ s₂ → P s₂
  | refl       => hi
  | snoc r _ h => hs (r.invariant hi hs) h

theorem states_of_steps (hi : P s₁) (hs : ∀ {s e s'}, P s → C s e → step s e s' → P s') {s₂ : σ} :
    (r : Run step s₁ s₂) → (∀ p ∈ r.steps, C p.1 p.2) → ∀ s ∈ r.states, P s
  | refl, _ => by simpa [states] using hi
  | snoc r e h, hc => by
    rw [forall_mem_steps_snoc] at hc
    have hr := r.states_of_steps hi hs hc.1
    simp only [states, List.mem_append, List.mem_singleton, or_imp, forall_and, forall_eq]
    exact ⟨hr, hs (hr _ r.last_mem_states) hc.2 h⟩

-- When a step from `P` that does not meet `C` leaves `Q`, which is weaker than `P`, the runs that
-- stay in `Q` are the runs all of whose steps meet `C`.
theorem states_iff_steps {Q : σ → Prop} (hi : P s₁) (hpq : ∀ {s}, P s → Q s)
    (hs : ∀ {s e s'}, P s → C s e → step s e s' → P s')
    (hc : ∀ {s e s'}, P s → Q s' → step s e s' → C s e) {s₂ : σ} (r : Run step s₁ s₂) :
    (∀ s ∈ r.states, Q s) ↔ ∀ p ∈ r.steps, C p.1 p.2 where
  mp h := by
    induction r with
    | refl => simp [steps]
    | snoc r e hst ih =>
      simp only [states, List.mem_append, List.mem_singleton, or_imp, forall_and, forall_eq] at h
      have hr := ih h.1
      have hp := r.states_of_steps hi hs hr _ r.last_mem_states
      exact forall_mem_steps_snoc.mpr ⟨hr, hc hp h.2 hst⟩
  mpr h := fun s hm => hpq (r.states_of_steps hi hs h s hm)

end Invariant

end Run
