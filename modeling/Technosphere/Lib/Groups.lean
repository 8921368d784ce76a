import Mathlib

namespace List

variable {α : Type u} {κ : Type v} [LinearOrder κ] {f : α → κ} {xs : List α} {k : κ}

theorem filter_append_filter_ne (hx : xs.Pairwise (f · ≤ f ·)) (hk : ∀ x ∈ xs, k ≤ f x) :
    xs.filter (f · = k) ++ xs.filter (f · ≠ k) = xs := by
  induction xs with
  | nil => rfl
  | cons x xs ih =>
    have ⟨hle, hx⟩ := pairwise_cons.mp hx
    simp only [mem_cons, forall_eq_or_imp] at hk
    by_cases h : f x = k
    case pos => simpa [h] using ih hx hk.2
    case neg =>
      have hlt : k < f x := lt_of_le_of_ne hk.1 (Ne.symm h)
      have hne : ∀ y ∈ xs, f y ≠ k := fun y hy => (hlt.trans_le (hle y hy)).ne'
      have h₁ : xs.filter (f · = k) = [] := by simpa using hne
      have h₂ : xs.filter (f · ≠ k) = xs := by simpa using hne
      simp only [ne_eq, decide_not] at h₂
      simp [h, h₁, h₂]

-- A list in the order of keys is made up of its groups of elements with the same key.
theorem flatMap_filter_eq {ks : List κ} (hk : ks.Pairwise (· < ·)) (hx : xs.Pairwise (f · ≤ f ·))
    (hm : ∀ x ∈ xs, f x ∈ ks) : ks.flatMap (fun k => xs.filter (f · = k)) = xs := by
  induction ks generalizing xs with
  | nil => simpa [eq_nil_iff_forall_not_mem] using hm
  | cons k ks ih =>
    have ⟨hlt, hk⟩ := pairwise_cons.mp hk
    have hle : ∀ x ∈ xs, k ≤ f x := fun x hx =>
      (mem_cons.mp (hm x hx)).elim (fun h => h.ge) (fun h => (hlt _ h).le)
    have hr : ks.flatMap (fun k' => xs.filter (f · = k')) = xs.filter (f · ≠ k) := by
      have hm' : ∀ x ∈ xs.filter (f · ≠ k), f x ∈ ks := by
        simpa using fun x hx hn => (mem_cons.mp (hm x hx)).resolve_left hn
      rw [← ih hk (hx.filter _) hm']
      apply flatMap_congr
      intro k' hk'
      rw [filter_filter]
      apply filter_congr
      intro x _
      have := (hlt k' hk').ne'
      by_cases h : f x = k' <;> simp [h, this]
    rw [flatMap_cons, hr, filter_append_filter_ne hx hle]

end List
