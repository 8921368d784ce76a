import Mathlib

def whileLoop (cond : σ → Bool) (body : σ → Option σ) : ℕ → σ → Option σ
  | 0,     s => some s
  | n + 1, s => if cond s then (body s).bind (whileLoop cond body n) else some s

namespace whileLoop

variable {σ : Type u} {cond : σ → Bool} {body : σ → Option σ} {s s' : σ} {n : ℕ}

theorem of_not (h : cond s = false) : whileLoop cond body n s = some s := by
  cases n <;> simp [whileLoop, h]

theorem of_body (h : cond s = true) (hb : body s = some s') :
    whileLoop cond body (n + 1) s = whileLoop cond body n s' := by
  simp [whileLoop, h, hb]

theorem invariant {P : σ → Prop} (hs : ∀ {s s'}, P s → cond s → body s = some s' → P s')
    (h : P s) (hl : whileLoop cond body n s = some s') : P s' := by
  induction n generalizing s with
  | zero => exact Option.some.inj hl ▸ h
  | succ n hi =>
    simp only [whileLoop] at hl
    split_ifs at hl with hc
    · have ⟨s₁, hb, hl⟩ := Option.bind_eq_some_iff.mp hl
      exact hi (hs h hc hb) hl
    · exact Option.some.inj hl ▸ h

theorem cond_eq_false (μ : σ → ℕ) (hm : ∀ {s s'}, cond s → body s = some s' → μ s' < μ s)
    (hn : μ s ≤ n) (hl : whileLoop cond body n s = some s') (h0 : ∀ s, μ s = 0 → cond s = false) :
    cond s' = false := by
  induction n generalizing s with
  | zero =>
    obtain rfl := Option.some.inj hl
    exact h0 _ (Nat.le_zero.mp hn)
  | succ n hi =>
    simp only [whileLoop] at hl
    split_ifs at hl with hc
    · have ⟨s₁, hb, hl⟩ := Option.bind_eq_some_iff.mp hl
      have := hm hc hb
      exact hi (by omega) hl
    · obtain rfl := Option.some.inj hl
      simpa using hc

-- A loop that reaches its end in some number of rounds also does so in the rounds it is given, when
-- these suffice for a measure that each round decreases.
theorem of_steps (μ : σ → ℕ) (hm : ∀ {s s'}, cond s → body s = some s' → μ s' < μ s)
    (h : Relation.ReflTransGen (fun s s' => cond s = true ∧ body s = some s') s s')
    (hc : cond s' = false) (hn : μ s ≤ n) : whileLoop cond body n s = some s' := by
  induction h using Relation.ReflTransGen.head_induction_on generalizing n with
  | refl => exact of_not hc
  | head hs _ hi =>
    have hlt := hm hs.1 hs.2
    obtain ⟨n, rfl⟩ := Nat.exists_eq_succ_of_ne_zero (Nat.ne_zero_of_lt (hlt.trans_le hn))
    exact (of_body hs.1 hs.2).trans (hi (by omega))

-- A loop that runs to its end does not fail in any of the states that it passes through.
theorem body_isSome (μ : σ → ℕ) (hm : ∀ {s s'}, cond s → body s = some s' → μ s' < μ s)
    (h0 : ∀ s, μ s = 0 → cond s = false) (hl : (whileLoop cond body n s).isSome) (hn : μ s ≤ n)
    (h : Relation.ReflTransGen (fun s s' => cond s = true ∧ body s = some s') s s')
    (hc : cond s' = true) : (body s').isSome := by
  induction h using Relation.ReflTransGen.head_induction_on generalizing n with
  | refl =>
    have hpos : μ s' ≠ 0 := fun h => by simp [h0 s' h] at hc
    obtain ⟨n, rfl⟩ := Nat.exists_eq_succ_of_ne_zero (by omega : n ≠ 0)
    rw [whileLoop, if_pos hc] at hl
    exact Option.isSome_of_isSome_bind hl
  | head hs _ ih =>
    have hlt := hm hs.1 hs.2
    obtain ⟨n, rfl⟩ := Nat.exists_eq_succ_of_ne_zero (Nat.ne_zero_of_lt (hlt.trans_le hn))
    rw [of_body hs.1 hs.2] at hl
    exact ih hl (by omega)

theorem le_of_steps (μ : σ → ℕ) (hm : ∀ {s s'}, cond s → body s = some s' → μ s' < μ s)
    (h : Relation.ReflTransGen (fun s s' => cond s = true ∧ body s = some s') s s') :
    μ s' ≤ μ s := by
  induction h with
  | refl         => exact le_rfl
  | tail _ hs hi => exact (hm hs.1 hs.2).le.trans hi

theorem eq_of_steps (μ : σ → ℕ) (hm : ∀ {s s'}, cond s → body s = some s' → μ s' < μ s)
    (h₁ : Relation.ReflTransGen (fun s s' => cond s = true ∧ body s = some s') s s₁)
    (h₂ : Relation.ReflTransGen (fun s s' => cond s = true ∧ body s = some s') s s₂)
    (hμ : μ s₁ = μ s₂) : s₁ = s₂ := by
  have hu : Relator.RightUnique fun s s' => cond s = true ∧ body s = some s' :=
    fun _ _ _ h h' => Option.some.inj (h.2.symm.trans h'.2)
  have heq {s s' : σ} (hμ : μ s = μ s')
      (h : Relation.ReflTransGen (fun s s' => cond s = true ∧ body s = some s') s s') : s = s' := by
    rcases Relation.ReflTransGen.cases_head h with rfl | ⟨t, ht, hr⟩
    · rfl
    · have hlt := (le_of_steps μ hm hr).trans_lt (hm ht.1 ht.2)
      exact absurd hμ hlt.ne'
  rcases Relation.ReflTransGen.total_of_right_unique hu h₁ h₂ with h | h
  · exact heq hμ h
  · exact (heq hμ.symm h).symm

-- A loop that does in each of its rounds what another one does runs to its end with it.
theorem simulate {cond' : τ → Bool} {body' : τ → Option τ} {R : σ → τ → Prop}
    (hc : ∀ {s t}, R s t → cond' t = cond s)
    (hb : ∀ {s s' t}, R s t → cond s → body s = some s' → ∃ t', body' t = some t' ∧ R s' t')
    (h : R s t) (hl : whileLoop cond body n s = some s') (hd : cond s' = false) (hn : n ≤ m) :
    ∃ t', whileLoop cond' body' m t = some t' ∧ R s' t' := by
  induction n generalizing s t m with
  | zero =>
    obtain rfl := Option.some.inj hl
    exact ⟨t, of_not ((hc h).trans hd), h⟩
  | succ n hi =>
    obtain ⟨m, rfl⟩ := Nat.exists_eq_succ_of_ne_zero (Nat.ne_zero_of_lt hn)
    simp only [whileLoop] at hl
    split_ifs at hl with hs
    · obtain ⟨s₁, hs₁, hl⟩ := Option.bind_eq_some_iff.mp hl
      obtain ⟨t₁, ht₁, h₁⟩ := hb h hs hs₁
      obtain ⟨t', ht', h'⟩ := hi h₁ hl (Nat.le_of_succ_le_succ hn)
      exact ⟨t', (of_body ((hc h).trans hs) ht₁).trans ht', h'⟩
    · obtain rfl := Option.some.inj hl
      exact ⟨t, of_not ((hc h).trans hd), h⟩

-- A loop each round of which works off one element of a list.
theorem rounds {is : List ι} (R : σ → List ι → Prop) (hnil : ∀ {s}, R s [] → cond s = false)
    (hcons : ∀ {s i is}, R s (i :: is) → cond s = true ∧ ∃ s', body s = some s' ∧ R s' is)
    (h : R s is) (n : ℕ) : ∃ s', whileLoop cond body n s = some s' ∧ R s' (is.drop n) := by
  induction n generalizing s is with
  | zero => exact ⟨s, rfl, h⟩
  | succ n hi =>
    cases is with
    | nil => exact ⟨s, of_not (hnil h), h⟩
    | cons i is =>
      have ⟨hc, s₁, hb, h₁⟩ := hcons h
      have ⟨s', hl, h'⟩ := hi h₁
      exact ⟨s', (of_body hc hb).trans hl, h'⟩

end whileLoop
