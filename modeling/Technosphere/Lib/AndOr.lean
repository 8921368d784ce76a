import Mathlib

namespace AndOr

inductive Op
  | and
  | or
deriving DecidableEq, Repr

-- Whether an item is run, by the operator in front of it and the success of what ran last. The
-- first item of a list has no operator in front of it.
def selects : Option Op → Bool → Bool
  | none,      _       => true
  | some .and, success => success
  | some .or,  success => !success

section Semantics

-- The evaluation of and-or lists is left associative, and an item that is skipped leaves the status
-- as it was.
variable {α : Type u} {σ : Type v} (success : σ → Bool) (status : α → σ)

def selected (s : σ) : List (Option Op × α) → List α
  | []           => []
  | (op, a) :: l => if selects op (success s) then a :: selected (status a) l else selected s l

def skipped (s : σ) : List (Option Op × α) → List α
  | []           => []
  | (op, a) :: l => if selects op (success s) then skipped (status a) l else a :: skipped s l

def finalStatus (s : σ) : List (Option Op × α) → σ
  | []           => s
  | (op, a) :: l => finalStatus (if selects op (success s) then status a else s) l

variable {success : σ → Bool} {status : α → σ} {s : σ} {x : Option Op × α}
  {l : List (Option Op × α)}

theorem selected_cons : selected success status s (x :: l) = selected success status s [x] ++
    selected success status (finalStatus success status s [x]) l := by
  cases h : selects x.1 (success s) <;> simp [selected, finalStatus, h]

theorem skipped_cons : skipped success status s (x :: l) = skipped success status s [x] ++
    skipped success status (finalStatus success status s [x]) l := by
  cases h : selects x.1 (success s) <;> simp [skipped, finalStatus, h]

theorem mem_of_mem_selected (h : a ∈ selected success status s l) : ∃ op, (op, a) ∈ l := by
  induction l generalizing s with
  | nil => simp [selected] at h
  | cons x l hi =>
    rw [selected_cons, List.mem_append] at h
    cases h with
    | inl h =>
      cases hs : selects x.1 (success s) <;> simp [selected, hs] at h
      exact ⟨x.1, by simp [h]⟩
    | inr h =>
      have ⟨op, ho⟩ := hi h
      exact ⟨op, List.mem_cons_of_mem _ ho⟩

theorem mem_of_mem_skipped (h : a ∈ skipped success status s l) : ∃ op, (op, a) ∈ l := by
  induction l generalizing s with
  | nil => simp [skipped] at h
  | cons x l hi =>
    rw [skipped_cons, List.mem_append] at h
    cases h with
    | inl h =>
      cases hs : selects x.1 (success s) <;> simp [skipped, hs] at h
      exact ⟨x.1, by simp [h]⟩
    | inr h =>
      have ⟨op, ho⟩ := hi h
      exact ⟨op, List.mem_cons_of_mem _ ho⟩

theorem finalStatus_cons : finalStatus success status s (x :: l) =
    finalStatus success status (finalStatus success status s [x]) l :=
  rfl

theorem length_flatMap (success : σ → Bool) (status : α → σ) (s : σ) (l : List (Option Op × α))
    (f : α → List β) : (l.flatMap (f ·.2)).length =
    ((selected success status s l).flatMap f).length +
      ((skipped success status s l).flatMap f).length := by
  induction l generalizing s with
  | nil => rfl
  | cons x l hi =>
    rw [List.flatMap_cons, List.length_append, hi (finalStatus success status s [x]),
      selected_cons, skipped_cons, List.flatMap_append, List.flatMap_append, List.length_append,
      List.length_append]
    cases h : selects x.1 (success s) <;> simp [selected, skipped, h] <;> omega

theorem flatMap_eq_selected_iff (f : α → List β) :
    l.flatMap (f ·.2) = (selected success status s l).flatMap f ↔
      ∀ a ∈ skipped success status s l, f a = [] := by
  constructor
  · intro h
    have hlen := length_flatMap success status s l f
    rw [h] at hlen
    exact List.flatMap_eq_nil_iff.mp (List.length_eq_zero_iff.mp (by omega))
  · intro h
    induction l generalizing s with
    | nil => rfl
    | cons x l hi =>
      rw [skipped_cons] at h
      obtain ⟨h₁, h₂⟩ := List.forall_mem_append.mp h
      rw [List.flatMap_cons, hi h₂, selected_cons, List.flatMap_append]
      cases hs : selects x.1 (success s) <;> simp_all [selected, skipped]

end Semantics

end AndOr
