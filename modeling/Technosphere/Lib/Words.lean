import Mathlib

-- The words of a text, which stand between its separators.
namespace Words

variable {α : Type u} {sep : α → Bool} {cs w : List α}

def words (sep : α → Bool) (cs : List α) : List (List α) :=
  (cs.splitOnP sep).filter (· ≠ [])

theorem words_cons_of_sep {c : α} (h : sep c = true) : words sep (c :: cs) = words sep cs := by
  rw [words, List.splitOnP_cons_eq_if_modifyHead, if_pos h, List.filter_cons_of_neg (by simp)]
  rfl

theorem words_append_of_sep {spaces : List α} (h : ∀ c ∈ spaces, sep c = true) :
    words sep (spaces ++ cs) = words sep cs := by
  induction spaces with
  | nil              => rfl
  | cons c spaces hi =>
    obtain ⟨hc, hsp⟩ := List.forall_mem_cons.mp h
    rw [List.cons_append, words_cons_of_sep hc, hi hsp]

theorem words_dropWhile : words sep (cs.dropWhile sep) = words sep cs := by
  induction cs with
  | nil          => rfl
  | cons c cs hi =>
    by_cases h : sep c = true
    case pos => rw [List.dropWhile_cons_of_pos h, hi, words_cons_of_sep h]
    case neg => rw [List.dropWhile_cons_of_neg h]

theorem words_append (hw : w ≠ []) (hall : ∀ c ∈ w, sep c = false)
    (hcs : ∀ c ∈ cs.head?, sep c = true) : words sep (w ++ cs) = w :: words sep cs := by
  cases cs with
  | nil       =>
    rw [List.append_nil, words, List.splitOnP_eq_singleton hall,
      List.filter_cons_of_pos (by simpa using hw)]
    rfl
  | cons c cs =>
    have hc := hcs c rfl
    rw [words_cons_of_sep hc, words, List.splitOnP_append_cons_of_forall_mem hall _ hc,
      List.filter_cons_of_pos (by simpa using hw)]
    rfl

theorem head?_dropWhile {p : α → Bool} : ∀ c ∈ (cs.dropWhile p).head?, p c = false := by
  intro c hc
  have h := List.head?_dropWhile_not p cs
  rw [Option.mem_def.mp hc] at h
  exact h

theorem words_of_nil (h : cs.dropWhile sep = []) : words sep cs = [] := by
  rw [← words_dropWhile, h]
  rfl

theorem words_of_ne_nil (h : cs.dropWhile sep ≠ []) : words sep cs =
    (cs.dropWhile sep).takeWhile (!sep ·) ::
      words sep ((cs.dropWhile sep).dropWhile (!sep ·)) := by
  have hsp : ∀ c ∈ (cs.dropWhile sep).head?, sep c = false := head?_dropWhile
  rw [← words_dropWhile]
  generalize cs.dropWhile sep = cs at h hsp ⊢
  obtain ⟨c, cs, rfl⟩ := List.exists_cons_of_ne_nil h
  have hc := hsp c rfl
  rw [← words_append (by simp [hc]) (fun c' hm => by simpa using List.mem_takeWhile_imp hm)
    (fun c' hm => by simpa using head?_dropWhile c' hm), List.takeWhile_append_dropWhile]

theorem length_lt_of_ne_nil (h : cs.dropWhile sep ≠ []) :
    ((cs.dropWhile sep).dropWhile (!sep ·)).length < cs.length := by
  have hsp : ∀ c ∈ (cs.dropWhile sep).head?, sep c = false := head?_dropWhile
  have hle := (List.dropWhile_suffix sep (l := cs)).length_le
  obtain ⟨c, ds, hc⟩ := List.exists_cons_of_ne_nil h
  rw [hc] at hle hsp ⊢
  have hlt := (List.dropWhile_suffix (!sep ·) (l := ds)).length_le
  rw [List.dropWhile_cons_of_pos (by simp [hsp c rfl])]
  exact Nat.lt_of_lt_of_le (Nat.lt_succ_of_le hlt) hle

theorem flatten_words : (words sep cs).flatten = cs.filter (!sep ·) := by
  rw [words, List.flatten_filter_ne_nil]
  induction cs with
  | nil          => rfl
  | cons c cs hi =>
    rw [List.splitOnP_cons_eq_if_modifyHead]
    by_cases h : sep c = true
    case pos => simpa [h] using hi
    case neg =>
      have ⟨w, ws, hw⟩ := List.exists_cons_of_ne_nil (List.splitOnP_ne_nil sep cs)
      rw [hw] at hi ⊢
      simpa [h] using hi

theorem sep_of_mem_words (h : w ∈ words sep cs) : ∀ c ∈ w, sep c = false := by
  intro c hc
  have hm : c ∈ (words sep cs).flatten := List.mem_flatten.mpr ⟨w, h, hc⟩
  rw [flatten_words] at hm
  simpa using (List.mem_filter.mp hm).2

end Words
