import Technosphere.Index.Theorems.Sort

namespace Index

variable {p : WordDoc} {ps : List WordDoc} {fs : FileSorter} {n k : ℕ}

def SortsAll (ps : List WordDoc) : Prop :=
  ∃ fs qs, (FileSorter.new (pairsText ps)).sort = some fs ∧ fs.sortedFile = pairsText qs ∧
    qs.Pairwise (· < ·) ∧ qs.Perm ps ∧ fs.heap.entries = []

-- Different pairs are never lost by the merge, as no two runs have a common head.
theorem clean_start_of_nodup (hn : ps.Nodup) : (Merge.start (sortRuns (ps.chunks n))).Clean := by
  rw [Merge.clean_start_iff]
  have hp : (sortRuns (ps.chunks n)).flatten.Perm ps := FileSorter.flatten_sortRuns_perm n
  exact (List.nodup_flatten.mp (hp.nodup_iff.mpr hn)).2

theorem merge_invariant (ps : List WordDoc) (n k : ℕ) :
    Merge.Invariant ps (Merge.pop^[k] (.start (sortRuns (ps.chunks n)))) := by
  have hx : Merge.Invariant _ (Merge.start (sortRuns (ps.chunks n))) := .start sortRuns_sorted
  have hp := hx.pops k
  exact { hp with perm := hp.perm.trans (FileSorter.flatten_sortRuns_perm n) }

-- A pair with the greatest word is never written, so then the file that is written is too short.
theorem word_ne_of_sortsAll (hf : ∀ p ∈ ps, Fits p) (h : SortsAll ps) (hp : p ∈ ps) :
    (ofLex p).1 ≠ 2 ^ 64 - 1 := by
  obtain ⟨fs, qs, hs, ht, _, hq, _⟩ := h
  obtain ⟨fs', k, hs', hk⟩ := FileSorter.sort_spec hf
  obtain rfl : fs' = fs := Option.some.inj (hs'.symm.trans hs)
  intro hw
  let m := Merge.pop^[k] (.start (sortRuns (ps.chunks (FileSorter.new (pairsText ps)).maxPairs)))
  have hm : (m.out ++ m.lost ++ m.runs.flatten).Perm ps := (merge_invariant ps _ k).perm
  have hl := length_pairsText_perm hm
  rw [List.append_assoc, pairsText_append, List.length_append, ← hk.text, ht,
    length_pairsText_perm hq] at hl
  have hnil : m.lost ++ m.runs.flatten = [] := eq_nil_of_length_pairsText (by omega)
  rw [List.append_assoc, hnil, List.append_nil] at hm
  exact hk.words p (hm.mem_iff.mpr hp) hw

theorem sortsAll_of_words_ne (hn : ps.Nodup) (hf : ∀ p ∈ ps, Fits p)
    (hw : ∀ p ∈ ps, (ofLex p).1 ≠ 2 ^ 64 - 1) : SortsAll ps := by
  obtain ⟨fs, k, hs, hk⟩ := FileSorter.sort_spec hf
  have ⟨he, hh⟩ := hk.done hw
  have hx := merge_invariant ps (FileSorter.new (pairsText ps)).maxPairs k
  have hc := (Merge.clean_pops_iff (Merge.Invariant.start sortRuns_sorted) k).mpr
    (clean_start_of_nodup (n := (FileSorter.new (pairsText ps)).maxPairs) hn)
  have hp := hx.perm
  simp only [hc.lost, Merge.runs, he, List.map_nil, List.flatten_nil, List.append_nil] at hp
  refine ⟨fs, _, hs, hk.text, ?_, hp, hh⟩
  exact hx.ascending.imp₂ (fun _ _ => lt_of_le_of_ne) (hp.nodup_iff.mpr hn)

-- The merge takes the greatest word for its end, so it is exactly the pairs with this word that it
-- does not write.
theorem sortsAll_iff (hn : ps.Nodup) (hf : ∀ p ∈ ps, Fits p) :
    SortsAll ps ↔ ∀ p ∈ ps, (ofLex p).1 ≠ 2 ^ 64 - 1 :=
  ⟨fun h _ => word_ne_of_sortsAll hf h, sortsAll_of_words_ne hn hf⟩

theorem sortsAll_iff_of_two :
    SortsAll [toLex (0, 2 ^ 64 - 1), toLex (0, 0)] ↔
      ∀ p ∈ [toLex (0, 2 ^ 64 - 1), toLex (0, 0)], (ofLex (p : WordDoc)).1 ≠ 2 ^ 64 - 1 :=
  sortsAll_iff (by decide) (by simp [Fits])

theorem not_sortsAll_of_greatest_word :
    ¬∀ ps : List WordDoc, ps.Nodup → (∀ p ∈ ps, Fits p) → SortsAll ps := by
  intro h
  have hf : ∀ p ∈ [(toLex (2 ^ 64 - 1, 5) : WordDoc)], Fits p := by simp [Fits]
  exact word_ne_of_sortsAll hf (h _ (by simp) hf) (List.mem_singleton_self _) rfl

end Index
