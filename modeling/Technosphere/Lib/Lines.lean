import Mathlib

-- Texts as sequences of lines, each of which ends with the same character.
namespace Lines

variable {α : Type u} {sep : α} {l : List α} {ls : List (List α)} {bytes : List α}

def unlines (sep : α) (ls : List (List α)) : List α :=
  ls.flatMap (· ++ [sep])

@[simp]
theorem unlines_nil : unlines sep [] = [] :=
  rfl

theorem unlines_cons : unlines sep (l :: ls) = l ++ [sep] ++ unlines sep ls :=
  rfl

theorem unlines_concat : unlines sep (ls ++ [l]) = unlines sep ls ++ (l ++ [sep]) := by
  simp [unlines]

theorem unlines_append {ls' : List (List α)} :
    unlines sep (ls ++ ls') = unlines sep ls ++ unlines sep ls' :=
  List.flatMap_append

theorem unlines_getLast? : unlines sep ls = [] ∨ (unlines sep ls).getLast? = some sep := by
  induction ls using List.reverseRecOn with
  | nil                  => exact .inl rfl
  | append_singleton _ _ => exact .inr (by simp [unlines_concat])

theorem eq_nil_of_append_eq_unlines {rest : List α} (h : bytes ++ rest = unlines sep ls)
    (hr : rest.getLast? ≠ some sep) : rest = [] := by
  by_contra hn
  rcases h ▸ unlines_getLast? with hb | hb
  · exact hn (List.append_eq_nil_iff.mp hb).2
  · rw [List.getLast?_append_of_ne_nil _ hn] at hb
    exact hr hb

theorem eq_unlines_take (hls : ∀ l ∈ ls, sep ∉ l) (hp : bytes <+: unlines sep ls)
    (hb : bytes = [] ∨ bytes.getLast? = some sep) : ∃ m, bytes = unlines sep (ls.take m) := by
  induction ls generalizing bytes with
  | nil          => exact ⟨0, List.prefix_nil.mp hp⟩
  | cons l ls ih =>
    rcases hb with rfl | hb
    · exact ⟨0, rfl⟩
    obtain ⟨hl, hls⟩ := List.forall_mem_cons.mp hls
    rw [unlines_cons] at hp
    rcases List.prefix_or_prefix_of_prefix hp (List.prefix_append ..) with h | ⟨more, rfl⟩
    · rcases List.prefix_concat_iff.mp h with rfl | h
      · exact ⟨1, by simp [unlines]⟩
      · exact absurd (h.subset (List.mem_of_getLast? hb)) hl
    · have hm : more = [] ∨ more.getLast? = some sep := by
        by_cases hn : more = []
        case pos => exact .inl hn
        case neg => exact .inr (by rwa [List.getLast?_append_of_ne_nil _ hn] at hb)
      obtain ⟨m, rfl⟩ := ih hls ((List.prefix_append_right_inj _).mp hp) hm
      exact ⟨m + 1, rfl⟩

theorem exists_eq_unlines_append (sep : α) (bytes : List α) : ∃ ls rest,
    bytes = unlines sep ls ++ rest ∧ (∀ l ∈ ls, sep ∉ l) ∧ sep ∉ rest := by
  induction bytes with
  | nil => exact ⟨[], [], by simp⟩
  | cons b bytes ih =>
    obtain ⟨ls, rest, rfl, hls, hr⟩ := ih
    by_cases hb : sep = b
    case pos => exact ⟨[] :: ls, rest, by simp [unlines_cons, hb], by simpa, hr⟩
    case neg =>
      cases ls with
      | nil       => exact ⟨[], b :: rest, by simp, by simp, by simp [hb, hr]⟩
      | cons l ls =>
        obtain ⟨hl, hls⟩ := List.forall_mem_cons.mp hls
        exact ⟨(b :: l) :: ls, rest, by simp [unlines_cons], by simp_all, hr⟩

theorem eq_unlines (hb : bytes = [] ∨ bytes.getLast? = some sep) :
    ∃ ls, bytes = unlines sep ls ∧ ∀ l ∈ ls, sep ∉ l := by
  obtain ⟨ls, rest, rfl, hls, hr⟩ := exists_eq_unlines_append sep bytes
  refine ⟨ls, ?_, hls⟩
  by_cases hn : rest = []
  case pos => rw [hn, List.append_nil]
  case neg =>
    rcases hb with hb | hb
    · exact absurd (List.append_eq_nil_iff.mp hb).2 hn
    · rw [List.getLast?_append_of_ne_nil _ hn] at hb
      exact absurd (List.mem_of_getLast? hb) hr

theorem unlines_eq_intercalate : unlines sep ls = [sep].intercalate (ls ++ [[]]) := by
  induction ls with
  | nil          => rfl
  | cons l ls ih =>
    rw [unlines_cons, ih]
    cases ls <;> simp [List.intercalate]

section Lines

variable [DecidableEq α]

def lines (sep : α) (bytes : List α) : List (List α) :=
  (bytes.splitOn sep).dropLast

theorem lines_unlines (hls : ∀ l ∈ ls, sep ∉ l) : lines sep (unlines sep ls) = ls := by
  have h : ∀ l ∈ ls ++ [[]], sep ∉ l := List.forall_mem_append.mpr ⟨hls, by simp⟩
  rw [lines, unlines_eq_intercalate, List.splitOn_intercalate _ h (by simp)]
  exact List.dropLast_concat

theorem unlines_inj {ls' : List (List α)} (hls : ∀ l ∈ ls, sep ∉ l) (hls' : ∀ l ∈ ls', sep ∉ l)
    (h : unlines sep ls = unlines sep ls') : ls = ls' := by
  rw [← lines_unlines hls, h, lines_unlines hls']

theorem unlines_lines (hb : bytes = [] ∨ bytes.getLast? = some sep) :
    unlines sep (lines sep bytes) = bytes := by
  obtain ⟨ls, rfl, hls⟩ := eq_unlines hb
  rw [lines_unlines hls]

theorem not_mem_of_mem_lines (hb : bytes = [] ∨ bytes.getLast? = some sep) :
    ∀ l ∈ lines sep bytes, sep ∉ l := by
  obtain ⟨ls, rfl, hls⟩ := eq_unlines hb
  rwa [lines_unlines hls]

end Lines

end Lines
