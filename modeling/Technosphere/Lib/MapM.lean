import Mathlib

-- The results of a function that can fail, for each element of a list up to the first failure.
namespace List

variable {α : Type u} {β ε : Type v} {f : α → Except ε β} {x : α} {y : β} {xs : List α}
  {ys : List β} {e : ε}

theorem mapM_cons_ok (h : f x = .ok y) : (x :: xs).mapM f = (xs.mapM f).map (y :: ·) := by
  rw [mapM_cons, h]
  cases hxs : xs.mapM f <;> rfl

theorem mapM_cons_error (h : f x = .error e) : (x :: xs).mapM f = .error e := by
  rw [mapM_cons, h]
  rfl

theorem mapM_eq_ok : xs.mapM f = .ok ys ↔ Forall₂ (fun x y => f x = .ok y) xs ys := by
  induction xs generalizing ys with
  | nil          => simp [pure, Except.pure, eq_comm]
  | cons x xs ih =>
    cases hx : f x with
    | error e => simp [mapM_cons_error hx, forall₂_cons_left_iff, hx]
    | ok y    =>
      rw [mapM_cons_ok hx, forall₂_cons_left_iff]
      constructor
      · intro h
        cases hxs : xs.mapM f with
        | error e => simp [hxs, Except.map] at h
        | ok ys'  =>
          rw [hxs] at h
          exact ⟨y, ys', hx, ih.mp hxs, (Except.ok.inj h).symm⟩
      · rintro ⟨y', ys', hy, hys, rfl⟩
        rw [ih.mpr hys, Except.ok.inj (hx.symm.trans hy)]
        rfl

theorem exists_mapM_eq_ok : (∃ ys, xs.mapM f = .ok ys) ↔ ∀ x ∈ xs, ∃ y, f x = .ok y := by
  induction xs with
  | nil          => simp [pure, Except.pure]
  | cons x xs ih =>
    rw [forall_mem_cons, ← ih]
    cases hx : f x with
    | error e => simp [mapM_cons_error hx]
    | ok y    =>
      rw [mapM_cons_ok hx]
      cases xs.mapM f <;> simp [Except.map]

theorem mapM_eq_error : xs.mapM f = .error e ↔
    ∃ xs₁ x xs₂, xs = xs₁ ++ x :: xs₂ ∧ (∀ x' ∈ xs₁, ∃ y, f x' = .ok y) ∧ f x = .error e := by
  induction xs with
  | nil          => simp [pure, Except.pure]
  | cons x xs ih =>
    cases hx : f x with
    | error e' =>
      rw [mapM_cons_error hx, Except.error.injEq]
      constructor
      · rintro rfl
        exact ⟨[], x, xs, rfl, by simp, hx⟩
      · rintro ⟨xs₁, x', xs₂, he, hok, hx'⟩
        cases xs₁ with
        | nil         =>
          obtain ⟨rfl, _⟩ := cons.inj he
          exact Except.error.inj (hx.symm.trans hx')
        | cons y xs₁ =>
          obtain ⟨rfl, _⟩ := cons.inj he
          obtain ⟨z, hz⟩ := hok x mem_cons_self
          simp [hx] at hz
    | ok y     =>
      have hm : (xs.mapM f).map (y :: ·) = .error e ↔ xs.mapM f = .error e := by
        cases xs.mapM f <;> simp [Except.map]
      rw [mapM_cons_ok hx, hm, ih]
      constructor
      · rintro ⟨xs₁, x', xs₂, rfl, hok, hx'⟩
        exact ⟨x :: xs₁, x', xs₂, rfl, forall_mem_cons.mpr ⟨⟨y, hx⟩, hok⟩, hx'⟩
      · rintro ⟨xs₁, x', xs₂, he, hok, hx'⟩
        cases xs₁ with
        | nil         =>
          obtain ⟨rfl, _⟩ := cons.inj he
          simp [hx] at hx'
        | cons z xs₁ =>
          obtain ⟨rfl, rfl⟩ := cons.inj he
          exact ⟨xs₁, x', xs₂, rfl, (forall_mem_cons.mp hok).2, hx'⟩

end List
