import Technosphere.Index.Theorems.Pairs
import Technosphere.Lib.Chunks

namespace Index

-- The positions at which the chunks of a file start and end. The last chunk can end with the file.
inductive Positions (len : ℕ) : List (List WordDoc) → List ℕ → List ℕ → Prop
  | nil : Positions len [] [] []
  | cons {cs : List (List WordDoc)} {starts ends : List ℕ} {c : List WordDoc} {e : ℕ} :
    (e = position len cs.flatten ∨ cs = [] ∧ e = len) → Positions len cs starts ends →
    Positions len (c :: cs) (position len (c ++ cs.flatten) :: starts) (e :: ends)

variable {q : WordDoc} {ps qs : List WordDoc} {cs : List (List WordDoc)} {fs : FileSorter}
  {fin : IfStream} {len : ℕ} {starts ends : List ℕ}

theorem position_perm (h : ps.Perm qs) : position len ps = position len qs := by
  rw [position, position, length_pairsText_perm h]

theorem position_all : position (pairsText ps).length ps = 0 := by
  simp [position]

def sortRuns (cs : List (List WordDoc)) : List (List WordDoc) :=
  cs.map fun c => c.mergeSort (· ≤ ·)

theorem sortRuns_flatten_perm : (sortRuns cs).flatten.Perm cs.flatten := by
  induction cs with
  | nil => exact .refl _
  | cons c cs ih => exact (List.mergeSort_perm ..).append ih

theorem sortRuns_disjoint_iff :
    (sortRuns cs).Pairwise List.Disjoint ↔ cs.Pairwise List.Disjoint := by
  rw [sortRuns, List.pairwise_map]
  apply List.Pairwise.iff
  intro a b
  simp only [List.Disjoint, List.mem_mergeSort]

theorem sortRuns_sorted : ∀ r ∈ sortRuns cs, r.Pairwise (· ≤ ·) := by
  intro r hr
  obtain ⟨c, _, rfl⟩ := List.mem_map.mp hr
  have ht : ∀ a b c : WordDoc, decide (a ≤ b) → decide (b ≤ c) → decide (a ≤ c) :=
    fun a b c h₁ h₂ => decide_eq_true ((of_decide_eq_true h₁).trans (of_decide_eq_true h₂))
  have hl : ∀ a b : WordDoc, decide (a ≤ b) || decide (b ≤ a) := fun a b => by
    rcases le_total a b with h | h <;> simp only [h, decide_true, Bool.true_or, Bool.or_true]
  exact (List.pairwise_mergeSort ht hl c).imp of_decide_eq_true

namespace Positions

theorem sortRuns (h : Positions len cs starts ends) :
    Positions len (sortRuns cs) starts ends := by
  induction h with
  | nil => exact .nil
  | @cons cs starts ends c e he _ ih =>
    have hp : position len (c.mergeSort (· ≤ ·) ++ (Index.sortRuns cs).flatten) =
        position len (c ++ cs.flatten) :=
      position_perm ((List.mergeSort_perm ..).append sortRuns_flatten_perm)
    rw [← hp]
    apply Positions.cons _ ih
    rw [position_perm sortRuns_flatten_perm]
    simpa [Index.sortRuns] using he

theorem length (h : Positions len cs starts ends) : starts.length = cs.length := by
  induction h with
  | nil => rfl
  | cons _ _ ih => simp [ih]

theorem start (h : Positions len cs starts ends) {i : ℕ} (hi : i < cs.length) :
    starts.getD i 0 = position len (cs.drop i).flatten := by
  induction h generalizing i with
  | nil => simp at hi
  | cons _ _ ih =>
    cases i with
    | zero => simp
    | succ i => simpa using ih (by simpa using hi)

theorem next (h : Positions len cs starts ends) {i : ℕ} (hi : i < cs.length) :
    ends.getD i 0 = position len (cs.drop (i + 1)).flatten ∨
      cs.drop (i + 1) = [] ∧ ends.getD i 0 = len := by
  induction h generalizing i with
  | nil => simp at hi
  | cons he _ ih =>
    cases i with
    | zero => simpa using he
    | succ i => simpa using ih (by simpa using hi)

end Positions

namespace FileSorter

theorem offset_of_good (h : fin.good) : fs.offset fin = (fin.pos, fin) := by
  simp only [offset, IfStream.tellg_of_good h, Int.toNat_natCast, Prod.mk.injEq, and_true,
    ite_eq_right_iff]
  omega

theorem partlySortLoop_nil {n : ℕ} {cur : ℕ × ℕ} (h : Reads fin []) :
    partlySortLoop (n + 1) fs fin cur = some fs := by
  simp [partlySortLoop, h.extractPair_nil]

theorem partlySortLoop_cons {n : ℕ} {cur : ℕ × ℕ} {fin' : IfStream}
    (he : fin.extractPair cur = (ofLex q, fin')) (hg : fin'.good) :
    let fs' := { fs with sortBuf := fs.sortBuf ++ [q] }
    partlySortLoop (n + 1) fs fin cur =
      if fs.maxPairs ≤ fs.sortBuf.length + 1 then
        partlySortLoop n { fs'.flushSorted with
          filePositions     := fs.filePositions ++ [fin'.pos]
          nextFilePositions := fs.nextFilePositions ++ [fin'.pos] } fin' (ofLex q)
      else partlySortLoop n fs' fin' (ofLex q) := by
  simp [partlySortLoop, he, IfStream.fail_of_good hg, offset_of_good hg, flushSorted]

-- The chunks of the pairs that have yet to be read, the first of which begins with the buffer, are
-- sorted and written, and their positions are noted.
theorem partlySortLoop_eq {n : ℕ} (fs : FileSorter) (cur : ℕ × ℕ) (fps : List ℕ)
    (hr : Reads fin qs) (hq : ∀ q ∈ qs, Fits q) (hn : qs.length < n)
    (hf : fs.filesize = fin.content.length)
    (hp : fs.filePositions = fps ++ [position fs.filesize (fs.sortBuf ++ qs)]) :
    ∃ fs₁ starts ends, partlySortLoop n fs fin cur = some fs₁ ∧
      Positions fs.filesize (.chunksFrom fs.maxPairs fs.sortBuf qs) starts ends ∧
      fs₁.flushLast = { fs with
        partlySortedFile  := fs.partlySortedFile ++
          pairsText (sortRuns (.chunksFrom fs.maxPairs fs.sortBuf qs)).flatten
        sortBuf           := []
        filePositions     := fps ++ starts
        nextFilePositions := fs.nextFilePositions ++ ends } := by
  induction qs generalizing n fs fin cur fps with
  | nil =>
    obtain ⟨n, rfl⟩ := Nat.exists_eq_succ_of_ne_zero (Nat.ne_zero_of_lt hn)
    by_cases hb : fs.sortBuf = []
    case pos =>
      refine ⟨fs, [], [], partlySortLoop_nil hr, by simpa [hb, List.chunksFrom] using .nil, ?_⟩
      have hf : fs.flushLast = { fs with filePositions := fps } := by simp [flushLast, hb, hp]
      rw [hf]
      cases fs
      obtain rfl : _ = [] := hb
      simp [List.chunksFrom, sortRuns]
    case neg =>
      refine ⟨fs, [position fs.filesize fs.sortBuf], [fs.filesize], partlySortLoop_nil hr, ?_, ?_⟩
      · have : Positions fs.filesize [fs.sortBuf] [position fs.filesize (fs.sortBuf ++ [])]
            [fs.filesize] := .cons (.inr ⟨rfl, rfl⟩) .nil
        simpa [hb, List.chunksFrom] using this
      · have := List.length_pos_of_ne_nil hb
        simp [flushLast, this, flushSorted, hb, hp, List.chunksFrom, sortRuns]
  | cons q qs ih =>
    obtain ⟨n, rfl⟩ := Nat.exists_eq_succ_of_ne_zero (Nat.ne_zero_of_lt hn)
    simp only [List.mem_cons, forall_eq_or_imp] at hq
    obtain ⟨he, hr'⟩ := hr.extractPair_cons hq.1 cur
    have hn' : qs.length < n := Nat.succ_lt_succ_iff.mp hn
    rw [partlySortLoop_cons he hr'.good]
    by_cases hm : fs.maxPairs ≤ fs.sortBuf.length + 1
    case pos =>
      simp only [hm, if_true, List.chunksFrom]
      obtain ⟨fs₁, starts, ends, h₁, h₂, h₃⟩ := ih
        { { fs with sortBuf := fs.sortBuf ++ [q] }.flushSorted with
          filePositions     := fs.filePositions ++ [position fin.content.length qs]
          nextFilePositions := fs.nextFilePositions ++ [position fin.content.length qs] }
        (ofLex q) fs.filePositions hr' hq.2 hn' hf (by simp [flushSorted, hf])
      have hc := Positions.cons (c := fs.sortBuf ++ [q]) (.inl rfl) h₂
      refine ⟨fs₁, _, _, h₁, hc, ?_⟩
      rw [h₃]
      simp [flushSorted, hp, sortRuns, List.chunksFrom_flatten, hf]
    case neg =>
      simp only [hm, if_false, List.chunksFrom]
      exact ih { fs with sortBuf := fs.sortBuf ++ [q] } (ofLex q) fps hr' hq.2 hn' hf
        (by simpa using hp)

theorem partlySort_eq_of_maxPairs (m : ℕ) (hp : ∀ p ∈ ps, Fits p) :
    let fs := { FileSorter.new (pairsText ps) with maxPairs := m }
    ∃ starts ends, Positions fs.filesize (ps.chunks m) starts ends ∧ fs.partlySort = some { fs with
      partlySortedFile  := pairsText (sortRuns (ps.chunks m)).flatten
      filePositions     := starts
      nextFilePositions := ends } := by
  intro fs
  have hl : ps.length < fs.unsortedFile.length + 1 :=
    Nat.lt_succ_of_le length_le_length_pairsText
  have hz : position fs.filesize ([] ++ ps) = 0 := position_all
  have ⟨fs₁, starts, ends, h₁, h₂, h₃⟩ := partlySortLoop_eq
    { fs with filePositions := fs.filePositions ++ [0] } (0, 0) [] (.opened rfl) hp hl rfl
    (by simpa [fs, FileSorter.new] using hz.symm)
  refine ⟨starts, ends, h₂, ?_⟩
  have h₁ : partlySortLoop (fs.unsortedFile.length + 1)
      { fs with filePositions := fs.filePositions ++ [0] } (.opened fs.unsortedFile) (0, 0) =
        some fs₁ := h₁
  simp only [partlySort, h₁, Option.pure_def, Option.bind_eq_bind, Option.bind_some, h₃]
  rfl

theorem partlySort_eq (hp : ∀ p ∈ ps, Fits p) :
    let fs := FileSorter.new (pairsText ps)
    let cs := ps.chunks fs.maxPairs
    ∃ starts ends, Positions fs.filesize cs starts ends ∧ fs.partlySort = some { fs with
      partlySortedFile  := pairsText (sortRuns cs).flatten
      filePositions     := starts
      nextFilePositions := ends } :=
  partlySort_eq_of_maxPairs _ hp

end FileSorter

end Index
