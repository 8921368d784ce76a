import Mathlib

-- What members of a group get to see: each of them sees the entries that are posted from the moment
-- it joins to the moment it leaves.
structure Journal (ι : Type u) (α : Type v) where
  entries   : List α
  joined    : ι → Option ℕ
  left      : ι → Option ℕ
  joined_le : ∀ {i j}, joined i = some j → j ≤ entries.length
  left_le   : ∀ {i k}, left i = some k → k ≤ entries.length ∧ ∃ j, joined i = some j ∧ j ≤ k

namespace Journal

variable {ι : Type u} {α : Type v} {J : Journal ι α} {a : α} {i k : ι}

def empty : Journal ι α where
  entries   := []
  joined _  := none
  left _    := none
  joined_le := by simp
  left_le   := by simp

def Member (J : Journal ι α) (i : ι) : Prop :=
  (J.joined i).isSome ∧ J.left i = none

def seen (J : Journal ι α) (i : ι) : List α :=
  match J.joined i with
  | none   => []
  | some j => (J.entries.take ((J.left i).getD J.entries.length)).drop j

def post (J : Journal ι α) (a : α) : Journal ι α where
  entries   := J.entries ++ [a]
  joined    := J.joined
  left      := J.left
  joined_le := by
    intro i j h
    have := J.joined_le h
    simp
    omega
  left_le   := by
    intro i k h
    have ⟨hk, hj⟩ := J.left_le h
    exact ⟨by simp; omega, hj⟩

section Members

variable [DecidableEq ι]

def join (J : Journal ι α) (i : ι) : Journal ι α where
  entries   := J.entries
  joined    := if J.joined i = none then Function.update J.joined i (some J.entries.length)
               else J.joined
  left      := J.left
  joined_le := by
    intro k j h
    split_ifs at h with hi
    · rw [Function.update_apply] at h
      split_ifs at h
      · exact (Option.some.inj h).ge
      · exact J.joined_le h
    · exact J.joined_le h
  left_le   := by
    intro k m h
    have ⟨hm, j, hj, hle⟩ := J.left_le h
    refine ⟨hm, j, ?_, hle⟩
    split_ifs with hi
    · rw [Function.update_of_ne, hj]
      rintro rfl
      simp [hi] at hj
    · exact hj

def leave (J : Journal ι α) (i : ι) : Journal ι α where
  entries   := J.entries
  joined    := J.joined
  left      := if (J.joined i).isSome ∧ J.left i = none
               then Function.update J.left i (some J.entries.length) else J.left
  joined_le := J.joined_le
  left_le   := by
    intro k m h
    split_ifs at h with hi
    · rw [Function.update_apply] at h
      split_ifs at h with hk
      · obtain rfl := Option.some.inj h
        have ⟨j, hj⟩ := Option.isSome_iff_exists.mp hi.1
        exact ⟨le_rfl, j, hk ▸ hj, J.joined_le hj⟩
      · exact J.left_le h
    · exact J.left_le h

end Members

@[simp]
theorem post_entries : (J.post a).entries = J.entries ++ [a] :=
  rfl

@[simp]
theorem post_joined : (J.post a).joined = J.joined :=
  rfl

@[simp]
theorem post_left : (J.post a).left = J.left :=
  rfl

theorem mem_of_mem_seen (h : a ∈ J.seen i) : a ∈ J.entries := by
  unfold seen at h
  split at h
  · simp at h
  · exact List.mem_of_mem_take (List.mem_of_mem_drop h)

theorem left_of_joined_none (h : J.joined i = none) : J.left i = none := by
  by_contra hl
  have ⟨k, hk⟩ := Option.ne_none_iff_exists'.mp hl
  have ⟨_, j, hj, _⟩ := J.left_le hk
  simp [h] at hj

theorem member_post : (J.post a).Member i ↔ J.Member i :=
  Iff.rfl

theorem seen_post_of_member (h : J.Member i) : (J.post a).seen i = J.seen i ++ [a] := by
  have ⟨j, hj⟩ := Option.isSome_iff_exists.mp h.1
  have hle := J.joined_le hj
  simp [seen, hj, h.2, List.drop_append_of_le_length hle, List.take_of_length_le]

theorem seen_post_of_not_member (h : ¬J.Member i) : (J.post a).seen i = J.seen i := by
  simp only [seen, post_joined]
  cases hj : J.joined i with
  | none => rfl
  | some j =>
    cases hk : J.left i with
    | none => exact absurd ⟨by simp [hj], hk⟩ h
    | some k => simp [hk, List.take_append_of_le_length (J.left_le hk).1]

section Members

variable [DecidableEq ι]

@[simp]
theorem join_entries : (J.join i).entries = J.entries :=
  rfl

@[simp]
theorem leave_entries : (J.leave i).entries = J.entries :=
  rfl

@[simp]
theorem leave_joined : (J.leave i).joined = J.joined :=
  rfl

theorem join_joined (h : J.joined i = none) :
    (J.join i).joined = Function.update J.joined i (some J.entries.length) := by
  simp [join, h]

theorem member_join (h : J.joined i = none) : (J.join i).Member k ↔ k = i ∨ J.Member k := by
  rw [Member, join_joined h]
  by_cases hk : k = i
  case pos => simp [hk, join, left_of_joined_none h]
  case neg => simp [hk, join, Member]

theorem member_leave : (J.leave i).Member k ↔ k ≠ i ∧ J.Member k := by
  by_cases hk : k = i
  case pos =>
    subst hk
    simp only [Member, leave, ne_eq, not_true_eq_false, false_and, iff_false, not_and]
    intro hj
    split_ifs with hl
    · simp
    · exact fun h => hl ⟨hj, h⟩
  case neg =>
    simp only [Member, leave, ne_eq, hk, not_false_eq_true, true_and]
    split_ifs <;> simp [hk]

theorem seen_join (h : J.joined i = none) : (J.join i).seen k = J.seen k := by
  simp only [seen, join_joined h]
  by_cases hk : k = i
  case pos => simp [hk, join, h, left_of_joined_none h]
  case neg => simp [hk, join]

theorem seen_leave : (J.leave i).seen k = J.seen k := by
  simp only [seen, leave]
  split_ifs with hl
  · by_cases hk : k = i
    case pos => simp [hk, hl.2]
    case neg => simp [hk]
  · rfl

end Members

end Journal
