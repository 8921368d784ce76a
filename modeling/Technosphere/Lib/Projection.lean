import Technosphere.Lib.Run

-- A component of a system by itself. The steps of the system that the component takes part in are
-- steps of it, and the others leave it in the same state.
namespace Run

variable {σ : Type u} {ε : Type v} {τ : Type w} {ι : Type x} {step : σ → ε → σ → Prop}
  {step' : τ → ι → τ → Prop} {part : ε → Option ι} {R : σ → τ → Prop} {s₁ s₂ : σ} {t₁ : τ}

theorem project (hi : R s₁ t₁)
    (hown : ∀ {s t e s' i}, R s t → step s e s' → part e = some i → ∃ t', step' t i t' ∧ R s' t')
    (hother : ∀ {s t e s'}, R s t → step s e s' → part e = none → R s' t) (r : Run step s₁ s₂) :
    ∃ t₂, R s₂ t₂ ∧ ∃ r' : Run step' t₁ t₂, r'.events = r.events.filterMap part := by
  induction r with
  | refl => exact ⟨t₁, hi, .refl, rfl⟩
  | snoc r e hst ih =>
    obtain ⟨t, ht, r', he⟩ := ih
    cases hp : part e with
    | none   => exact ⟨t, hother ht hst hp, r', by simp [events, he, hp]⟩
    | some i =>
      obtain ⟨t', hst', ht'⟩ := hown ht hst hp
      exact ⟨t', ht', r'.snoc i hst', by simp [events, he, hp]⟩

end Run
