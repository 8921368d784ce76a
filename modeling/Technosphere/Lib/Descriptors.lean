import Technosphere.Lib.SortedMap

abbrev Descriptors (φ : Type u) := SortedMap ℤ φ

namespace Descriptors

variable {φ : Type u} {d : Descriptors φ} {fd old new : ℤ} {f : φ}

def lowest : ℤ → List (ℤ × φ) → ℤ
  | k, []      => k
  | k, e :: es => if e.1 < k then lowest k es else if e.1 = k then lowest (k + 1) es else k

def lowestFree (d : Descriptors φ) : ℤ :=
  lowest 0 d.entries

def add (d : Descriptors φ) (f : φ) : ℤ × Descriptors φ :=
  (d.lowestFree, d.set d.lowestFree f)

-- A `close` of a descriptor that is not open fails and changes nothing.
def close (d : Descriptors φ) (fd : ℤ) : Descriptors φ :=
  d.erase fd

def dup2 (d : Descriptors φ) (old new : ℤ) : Descriptors φ :=
  match d.find? old with
  | none   => d
  | some f => d.set new f

theorem le_lowest {es : List (ℤ × φ)} {k : ℤ} : k ≤ lowest k es := by
  induction es generalizing k with
  | nil => exact le_rfl
  | cons e es hi =>
    simp only [lowest]
    split_ifs
    · exact hi
    · exact (Int.le_add_one le_rfl).trans hi
    · exact le_rfl

theorem lowest_ne {es : List (ℤ × φ)} {k : ℤ} (hs : es.Pairwise (·.1 < ·.1)) (he : e ∈ es) :
    e.1 ≠ lowest k es := by
  induction es generalizing k with
  | nil => simp at he
  | cons e' es hi =>
    have ⟨hlt, hs⟩ := List.pairwise_cons.mp hs
    simp only [lowest]
    rcases List.mem_cons.mp he with rfl | he'
    · split_ifs with h₁ h₂
      · exact (h₁.trans_le le_lowest).ne
      · have : k + 1 ≤ lowest (k + 1) es := le_lowest
        omega
      · exact h₂
    · split_ifs with h₁ h₂
      · exact hi hs he'
      · exact hi hs he'
      · have := hlt e he'
        omega

theorem find?_lowestFree : d.find? d.lowestFree = none := by
  by_contra hn
  have ⟨f, hf⟩ := Option.ne_none_iff_exists'.mp hn
  exact lowest_ne d.sorted (SortedMap.mem_entries.mpr hf) rfl

@[simp]
theorem find?_close : (d.close fd).find? k = if k = fd then none else d.find? k :=
  SortedMap.find?_erase

theorem find?_dup2 (h : d.find? old = some f) :
    (d.dup2 old new).find? k = if k = new then some f else d.find? k := by
  simp [dup2, h]

theorem lowestFree_nonneg : 0 ≤ d.lowestFree :=
  le_lowest

theorem length_add : (d.add f).2.entries.length = d.entries.length + 1 :=
  (SortedMap.entries_set_perm find?_lowestFree).length_eq

theorem find?_add : (d.add f).2.find? k = if k = d.lowestFree then some f else d.find? k :=
  SortedMap.find?_set

theorem find?_add_of_some {g : φ} (h : d.find? k = some g) : (d.add f).2.find? k = some g := by
  rw [find?_add, if_neg, h]
  rintro rfl
  simp [find?_lowestFree] at h

theorem length_close (h : d.find? fd = some f) :
    (d.close fd).entries.length + 1 = d.entries.length :=
  (SortedMap.entries_erase_perm h).length_eq.symm

theorem close_of_none (h : d.find? fd = none) : d.close fd = d := by
  refine SortedMap.ext_find? fun k => ?_
  rw [find?_close]
  split_ifs with hk
  · rw [hk, h]
  · rfl

-- A table that has all descriptors of another one, and no more than these.
theorem isSome_iff_of_length_le {e : Descriptors φ}
    (h : ∀ k, (d.find? k).isSome → (e.find? k).isSome)
    (hl : e.entries.length ≤ d.entries.length) (k : ℤ) :
    (e.find? k).isSome ↔ (d.find? k).isSome := by
  have hs : d.keys.Subperm e.keys := by
    refine List.Nodup.subperm (d.keys_sorted.imp ne_of_lt) fun k hk => ?_
    exact SortedMap.mem_keys.mpr (h k (SortedMap.mem_keys.mp hk))
  have hp := hs.perm_of_length_le (by simpa [SortedMap.keys] using hl)
  rw [← SortedMap.mem_keys, ← SortedMap.mem_keys, hp.mem_iff]

theorem length_eq_of_isSome_iff {e : Descriptors φ}
    (h : ∀ k, (e.find? k).isSome ↔ (d.find? k).isSome) : e.entries.length = d.entries.length := by
  have hp : e.keys.Perm d.keys := by
    refine (List.perm_ext_iff_of_nodup (e.keys_sorted.imp ne_of_lt)
      (d.keys_sorted.imp ne_of_lt)).mpr fun k => ?_
    rw [SortedMap.mem_keys, SortedMap.mem_keys, h]
  simpa [SortedMap.keys] using hp.length_eq

-- `dup2` followed by `close`, which gives a file another descriptor.
def move (d : Descriptors φ) (old new : ℤ) : Descriptors φ :=
  if old ≠ new then (d.dup2 old new).close old else d

@[simp]
theorem move_self : d.move fd fd = d := by
  simp [move]

theorem move_of_none (h : d.find? old = none) : d.move old new = d := by
  simp only [move, dup2, h]
  split_ifs
  · exact close_of_none h
  · rfl

theorem find?_move (h : d.find? old = some f) (hn : old ≠ new) : (d.move old new).find? k =
    if k = old then none else if k = new then some f else d.find? k := by
  simp only [move, hn, ne_eq, not_false_eq_true, ↓reduceIte]
  rw [find?_close, find?_dup2 h]

theorem ne_of_find? (h : d.find? fd = none) (ho : (d.find? old).isSome) : fd ≠ old := by
  rintro rfl
  simp [h] at ho

end Descriptors
