import Technosphere.Index.Theorems.Sort

namespace Index

variable {ps rem : List WordDoc} {rs : List (List WordDoc)} {fs : FileSorter} {fin : IfStream}
  {m n i pos : ℕ}

theorem Positions.length_ends {len : ℕ} {starts ends : List ℕ} (h : Positions len rs starts ends) :
    ends.length = rs.length := by
  induction h with
  | nil         => rfl
  | cons _ _ ih => simp [ih]

namespace FileSorter

-- The pairs that are read of the run with the index `i` from the position `pos` on, of which there
-- are less than `n`.
def readRun : ℕ → FileSorter → IfStream → (i pos : ℕ) → Option (List WordDoc)
  | 0,     _,  _,   _, _   => none
  | n + 1, fs, fin, i, pos =>
    match fs.readNext fin i pos with
    | (some (p, offset), fin) => (readRun n fs fin i offset).map (p :: ·)
    | (none, _)               => some []

theorem readRun_spec (h : HasRuns rs fs) (hs : Stream fs fin)
    (hp : Points fs.filesize rs i pos rem) (hn : rem.length < n) :
    readRun n fs fin i pos = some rem := by
  induction rem generalizing n fin pos with
  | nil =>
    obtain ⟨n, rfl⟩ := Nat.exists_eq_succ_of_ne_zero (Nat.ne_zero_of_lt hn)
    obtain ⟨fin', hr, _⟩ := readNext_nil h hs hp
    rw [readRun, hr]
  | cons x rem ih =>
    obtain ⟨n, rfl⟩ := Nat.exists_eq_succ_of_ne_zero (Nat.ne_zero_of_lt hn)
    obtain ⟨offset, fin', hr, hs', hp'⟩ := readNext_cons h hs hp
    rw [readRun, hr]
    simp only
    rw [ih hs' hp' (Nat.lt_of_succ_lt_succ hn), Option.map_some]

theorem partlySort_hasRuns (m : ℕ) (hp : ∀ p ∈ ps, Fits p) :
    ∃ fs, { FileSorter.new (pairsText ps) with maxPairs := m }.partlySort = some fs ∧
      HasRuns (sortRuns (ps.chunks m)) fs := by
  obtain ⟨starts, ends, hpos, hsplit⟩ := partlySort_eq_of_maxPairs m hp
  have hperm : (sortRuns (ps.chunks m)).flatten.Perm ps := flatten_sortRuns_perm m
  exact ⟨_, hsplit, {
    content   := rfl
    filesize  := (length_pairsText_perm hperm).symm
    fits      := fun p hm => hp p (hperm.mem_iff.mp hm)
    positions := hpos.sortRuns }⟩

end FileSorter

-- The positions that have been noted while the unsorted file of the pairs `ps` was read are those
-- of the runs in the other file, so that `getMin` reads each of them as a whole.
structure RunBoundaries (ps : List WordDoc) (m : ℕ) (fs : FileSorter) : Prop where
  starts : fs.filePositions.length = ps.length ⌈/⌉ m
  ends   : fs.nextFilePositions.length = ps.length ⌈/⌉ m
  runs   : ∀ i < fs.filePositions.length, ∀ fin, Stream fs fin →
    fs.readRun (ps.length + 1) fin i (fs.filePositions.getD i 0) =
      some (((ps.drop (i * m)).take m).mergeSort (· ≤ ·))

theorem partlySort_runBoundaries (hp : ∀ p ∈ ps, Fits p) (hm : 1 ≤ m) :
    ∃ fs, { FileSorter.new (pairsText ps) with maxPairs := m }.partlySort = some fs ∧
      RunBoundaries ps m fs := by
  obtain ⟨fs, hs, h⟩ := FileSorter.partlySort_hasRuns m hp
  have hl : (sortRuns (ps.chunks m)).length = ps.length ⌈/⌉ m := by
    rw [sortRuns, List.length_map, List.length_chunks hm]
  refine ⟨fs, hs, h.positions.length.trans hl, h.positions.length_ends.trans hl, ?_⟩
  intro i hi fin hfin
  rw [h.positions.length] at hi
  have hd : (sortRuns (ps.chunks m)).drop i =
      ((ps.drop (i * m)).take m).mergeSort (· ≤ ·) :: (sortRuns (ps.chunks m)).drop (i + 1) := by
    have hs : (sortRuns (ps.chunks m)).drop i = sortRuns ((ps.drop (i * m)).chunks m) := by
      rw [sortRuns, ← List.map_drop, List.drop_chunks hm, sortRuns]
    have hx : ps.drop (i * m) ≠ [] := fun hx => by
      rw [hx, List.chunks_nil] at hs
      exact absurd (List.drop_eq_nil_iff.mp hs) hi.not_ge
    rw [← List.tail_drop, hs, List.chunks_eq hm hx]
    rfl
  refine FileSorter.readRun_spec h hfin ⟨[], _, hd, ?_⟩ ?_
  · rw [h.positions.start hi, hd, List.flatten_cons]
  · have := (List.mergeSort_perm ((ps.drop (i * m)).take m) (· ≤ ·)).length_eq
    rw [List.length_take, List.length_drop] at this
    omega

theorem partlySort_runBoundaries_of_three :
    ∃ fs, { FileSorter.new (pairsText [toLex (12, 7), toLex (1, 9), toLex (2, 7)]) with
        maxPairs := 2 }.partlySort = some fs ∧
      RunBoundaries [toLex (12, 7), toLex (1, 9), toLex (2, 7)] 2 fs :=
  partlySort_runBoundaries (by simp [Fits]) (by decide)

end Index
