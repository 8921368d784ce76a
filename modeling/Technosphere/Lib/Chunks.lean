import Mathlib

namespace List

variable {α : Type u} {n : ℕ} {xs cur : List α}

def chunksFrom (n : ℕ) : List α → List α → List (List α)
  | cur, []      => if cur = [] then [] else [cur]
  | cur, x :: xs =>
    if n ≤ cur.length + 1 then (cur ++ [x]) :: chunksFrom n [] xs
    else chunksFrom n (cur ++ [x]) xs

def chunks (n : ℕ) (xs : List α) : List (List α) :=
  chunksFrom n [] xs

theorem chunksFrom_flatten : (chunksFrom n cur xs).flatten = cur ++ xs := by
  induction xs generalizing cur with
  | nil => by_cases h : cur = [] <;> simp [chunksFrom, h]
  | cons x xs ih =>
    simp only [chunksFrom]
    split_ifs <;> simp [ih]

theorem chunks_flatten : (chunks n xs).flatten = xs :=
  chunksFrom_flatten

theorem chunksFrom_eq (hc : cur.length < n) (hn : cur ++ xs ≠ []) :
    chunksFrom n cur xs = (cur ++ xs).take n :: chunks n ((cur ++ xs).drop n) := by
  induction xs generalizing cur with
  | nil =>
    rw [append_nil] at hn ⊢
    rw [take_of_length_le hc.le, drop_of_length_le hc.le]
    simp [chunksFrom, chunks, hn]
  | cons x xs ih =>
    simp only [chunksFrom]
    split_ifs with h
    case pos =>
      have hl : (cur ++ [x]).length = n := by
        rw [length_append, length_singleton]
        omega
      have ha : cur ++ x :: xs = (cur ++ [x]) ++ xs := by simp
      rw [ha, take_left' hl, drop_left' hl, chunks]
    case neg =>
      have hl : (cur ++ [x]).length < n := by
        rw [length_append, length_singleton]
        omega
      rw [ih hl (by simp), append_assoc, singleton_append]

theorem chunks_eq (h : 0 < n) (hn : xs ≠ []) :
    chunks n xs = xs.take n :: chunks n (xs.drop n) :=
  chunksFrom_eq h hn

theorem chunks_nil : chunks n ([] : List α) = [] := by
  simp [chunks, chunksFrom]

theorem drop_chunks (h : 0 < n) (i : ℕ) : (chunks n xs).drop i = chunks n (xs.drop (i * n)) := by
  induction i with
  | zero      => simp
  | succ i ih =>
    rw [← tail_drop, ih, Nat.succ_mul, ← drop_drop]
    by_cases hx : xs.drop (i * n) = []
    case pos => rw [hx, drop_nil, chunks_nil, tail_nil]
    case neg => rw [chunks_eq h hx, tail_cons]

theorem length_chunks (h : 0 < n) : (chunks n xs).length = xs.length ⌈/⌉ n := by
  induction hl : xs.length using Nat.strong_induction_on generalizing xs with
  | _ k ih =>
    by_cases hx : xs = []
    case pos =>
      subst hx
      simp [chunks_nil, ← hl]
    case neg =>
      have hk := length_pos_of_ne_nil hx
      have hd : (xs.drop n).length = k - n := by rw [length_drop, hl]
      rw [chunks_eq h hx, length_cons, ih _ (by omega) hd, Nat.ceilDiv_eq_add_pred_div,
        Nat.ceilDiv_eq_add_pred_div, ← Nat.add_div_right _ h]
      rcases le_or_gt n k with hnk | hnk
      · congr 1
        omega
      · have h₁ : (0 + n - 1 + n) / n = 1 := Nat.div_eq_of_lt_le (by omega) (by omega)
        have h₂ : (k + n - 1) / n = 1 := Nat.div_eq_of_lt_le (by omega) (by omega)
        rw [Nat.sub_eq_zero_of_le hnk.le, h₁, h₂]

theorem disjoint_flatten_right {yss : List (List α)} :
    xs.Disjoint yss.flatten ↔ ∀ ys ∈ yss, xs.Disjoint ys := by
  simp only [disjoint_left, mem_flatten]
  grind

theorem disjoint_take_drop_iff : (xs.take n).Disjoint (xs.drop n) ↔
    ∀ i j x, xs[i]? = some x → xs[n + j]? = some x → n ≤ i where
  mp hd i j x hi hj := by
    by_contra! hin
    have hi : (xs.take n)[i]? = some x := by rwa [getElem?_take_of_lt hin]
    have hj : (xs.drop n)[j]? = some x := by rwa [getElem?_drop]
    exact hd (mem_of_getElem? hi) (mem_of_getElem? hj)
  mpr h x hx hx' := by
    have ⟨i, hi⟩ := mem_iff_getElem?.mp hx
    have ⟨j, hj⟩ := mem_iff_getElem?.mp hx'
    have hin : i < n := by
      by_contra hin
      simp [hin] at hi
    rw [getElem?_take_of_lt hin] at hi
    rw [getElem?_drop] at hj
    exact hin.not_ge (h i j x hi hj)

-- No element is in two chunks if equal elements are at positions in the same chunk.
theorem disjoint_chunks_iff (hn : 0 < n) : (chunks n xs).Pairwise Disjoint ↔
    ∀ i j x, xs[i]? = some x → xs[j]? = some x → i / n = j / n := by
  induction hl : xs.length using Nat.strong_induction_on generalizing xs with
  | _ k ih =>
    by_cases hx : xs = []
    case pos => simp [hx, chunks, chunksFrom]
    case neg =>
      have hk : (xs.drop n).length < k := by
        have := length_pos_of_ne_nil hx
        rw [length_drop]
        omega
      rw [chunks_eq hn hx, pairwise_cons, ← disjoint_flatten_right, chunks_flatten, ih _ hk rfl,
        disjoint_take_drop_iff]
      simp only [getElem?_drop]
      constructor
      case mp  =>
        -- Both positions are in the first chunk or behind it.
        intro ⟨hd, hp⟩ i j x hi hj
        rcases Nat.lt_or_ge i n with hin | hin <;> rcases Nat.lt_or_ge j n with hjn | hjn
        · rw [Nat.div_eq_of_lt hin, Nat.div_eq_of_lt hjn]
        · exact absurd (hd i (j - n) x hi (by rwa [Nat.add_sub_cancel' hjn])) hin.not_ge
        · exact absurd (hd j (i - n) x hj (by rwa [Nat.add_sub_cancel' hin])) hjn.not_ge
        · rw [Nat.div_eq_sub_div hn hin, Nat.div_eq_sub_div hn hjn]
          have := hp (i - n) (j - n) x (by rwa [Nat.add_sub_cancel' hin])
            (by rwa [Nat.add_sub_cancel' hjn])
          rw [this]
      case mpr =>
        intro h
        constructor
        · intro i j x hi hj
          have := h i (n + j) x hi hj
          rw [Nat.add_div_left _ hn] at this
          by_contra! hin
          rw [Nat.div_eq_of_lt hin] at this
          exact absurd this (Nat.succ_ne_zero _).symm
        · intro i j x hi hj
          have := h (n + i) (n + j) x hi hj
          rw [Nat.add_div_left _ hn, Nat.add_div_left _ hn] at this
          exact Nat.succ.inj this

end List
