import Mathlib

open Set

-- Families of closed intervals of a dense linear order, given as lists of their names `β` with the
-- two ends of each. In a dense order the intervals of a separated family are the connected parts of
-- their union, so that the union determines the family.
namespace Intervals

variable {α : Type u} {β : Type v} [LinearOrder α] {lo hi : β → α} {b c : β} {L L₁ L₂ : List β}

def union (lo hi : β → α) (L : List β) : Set α :=
  {x | ∃ b ∈ L, x ∈ Icc (lo b) (hi b)}

@[simp]
theorem union_nil : union lo hi [] = ∅ := by
  simp [union]

@[simp]
theorem union_cons : union lo hi (b :: L) = Icc (lo b) (hi b) ∪ union lo hi L := by
  ext x
  simp [union]

@[simp]
theorem union_append : union lo hi (L₁ ++ L₂) = union lo hi L₁ ∪ union lo hi L₂ := by
  ext x
  simp [union, or_and_right, exists_or]

theorem union_perm (h : L₁.Perm L₂) : union lo hi L₁ = union lo hi L₂ := by
  ext x
  simp [union, h.mem_iff]

structure Separated (lo hi : β → α) (L : List β) : Prop where
  nonempty : ∀ b ∈ L, lo b ≤ hi b
  apart    : L.Pairwise fun b c => hi b < lo c

namespace Separated

theorem tail (h : Separated lo hi (b :: L)) : Separated lo hi L where
  nonempty := fun c hc => h.nonempty c (by simp [hc])
  apart    := (List.pairwise_cons.mp h.apart).2

theorem head_le (h : Separated lo hi (b :: L)) : lo b ≤ hi b :=
  h.nonempty b (by simp)

theorem head_lt (h : Separated lo hi (b :: L)) (hx : x ∈ union lo hi L) : hi b < x := by
  obtain ⟨c, hc, hx⟩ := hx
  exact ((List.pairwise_cons.mp h.apart).1 c hc).trans_le hx.1

theorem lo_le (h : Separated lo hi (b :: L)) (hx : x ∈ union lo hi (b :: L)) : lo b ≤ x := by
  rw [union_cons] at hx
  rcases hx with hx | hx
  · exact hx.1
  · exact h.head_le.trans (h.head_lt hx).le

theorem lo_mem (h : Separated lo hi (b :: L)) : lo b ∈ union lo hi (b :: L) :=
  ⟨b, by simp, le_rfl, h.head_le⟩

theorem mem_tail_iff (h : Separated lo hi (b :: L)) :
    x ∈ union lo hi L ↔ hi b < x ∧ x ∈ union lo hi (b :: L) := by
  constructor
  · intro hx
    exact ⟨h.head_lt hx, by simp [hx]⟩
  · rintro ⟨hlt, hx⟩
    rw [union_cons] at hx
    exact hx.resolve_left fun hx => hx.2.not_gt hlt

variable [DenselyOrdered α]

theorem exists_gap (h : Separated lo hi (b :: L)) (hx : hi b < x) :
    ∃ y, hi b < y ∧ y ≤ x ∧ y ∉ union lo hi (b :: L) := by
  cases L with
  | nil => exact ⟨x, hx, le_rfl, by simp [hx]⟩
  | cons c L =>
    have hc : hi b < lo c := (List.pairwise_cons.mp h.apart).1 c (by simp)
    have ⟨y, hby, hy⟩ := exists_between (lt_min hx hc)
    refine ⟨y, hby, (hy.trans_le (min_le_left ..)).le, fun hu => ?_⟩
    have hle := h.tail.lo_le (h.mem_tail_iff.mpr ⟨hby, hu⟩)
    exact hle.not_gt (hy.trans_le (min_le_right ..))

theorem hi_le (h₁ : Separated lo hi (b :: L₁))
    (h : union lo hi (b :: L₁) = union lo hi (c :: L₂)) (hl : lo b = lo c) : hi c ≤ hi b := by
  by_contra! hlt
  have ⟨y, hby, hyc, hy⟩ := h₁.exists_gap hlt
  have hcy : lo c ≤ y := hl ▸ h₁.head_le.trans hby.le
  exact hy (h ▸ ⟨c, by simp, hcy, hyc⟩)

theorem eq_of_union_eq (hi' : Function.Injective fun b => (lo b, hi b)) (h₁ : Separated lo hi L₁)
    (h₂ : Separated lo hi L₂) (h : union lo hi L₁ = union lo hi L₂) : L₁ = L₂ := by
  induction L₁ generalizing L₂ with
  | nil =>
    cases L₂ with
    | nil => rfl
    | cons c L₂ => exact absurd (h ▸ h₂.lo_mem) (by simp)
  | cons b L₁ ih =>
    cases L₂ with
    | nil => exact absurd (h ▸ h₁.lo_mem) (by simp)
    | cons c L₂ =>
      have hl : lo b = lo c := (h₁.lo_le (h ▸ h₂.lo_mem)).antisymm (h₂.lo_le (h ▸ h₁.lo_mem))
      have hh : hi b = hi c := (h₂.hi_le h.symm hl.symm).antisymm (h₁.hi_le h hl)
      obtain rfl : b = c := hi' (Prod.ext hl hh)
      have ht : union lo hi L₁ = union lo hi L₂ := by
        ext x
        rw [h₁.mem_tail_iff, h₂.mem_tail_iff, h]
      rw [ih h₁.tail h₂.tail ht]

end Separated

end Intervals
