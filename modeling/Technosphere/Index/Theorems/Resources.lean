import Technosphere.Index.Theorems.Rounds

namespace Index.FileSorter

variable {file : List UInt8} {fs : FileSorter} {fin : IfStream} {cur : ℕ × ℕ} {n : ℕ}

structure Bounded (file : List UInt8) (fs : FileSorter) : Prop where
  buf    : fs.sortBuf.length < fs.maxPairs
  memory : 16 * fs.maxPairs ≤ file.length / 64 + 192
  starts : fs.filePositions.length ≤ fs.reserved
  ends   : fs.nextFilePositions.length ≤ fs.reserved
  runs   : fs.filePositions.length ≤ 512 ∧ fs.nextFilePositions.length ≤ 512
  heap   : fs.heap.entries.length ≤ fs.filePositions.length

-- While the runs are merged there are as many starts as ends, and the heap has an index of these.
def Phase.Bounded (file : List UInt8) : Phase → Prop
  | splitting fs _ _ => FileSorter.Bounded file fs
  | merging fs _     => FileSorter.Bounded file fs ∧
    fs.filePositions.length = fs.nextFilePositions.length ∧
    (indices fs.heap).Nodup ∧ ∀ i ∈ indices fs.heap, i < fs.nextFilePositions.length

def Phase.Holds (file : List UInt8) : Phase → Prop
  | splitting fs fin _ => Splits file fs fin
  | merging fs _       => Merges file fs

theorem Runs.memory (h : Runs file fs) : 16 * fs.maxPairs ≤ file.length / 64 + 192 := by
  rw [h.maxPairs, availableMemory]
  omega

-- The buffer takes up more than the thousandth part of the file, so there are few runs.
theorem Runs.few (h : Runs file fs) {k : ℕ} (hk : 2 * (k * fs.maxPairs) ≤ file.length) :
    k < 512 ∧ k + 1 < fs.reserved := by
  have hl : file.length < 1024 * fs.maxPairs := by
    rw [h.maxPairs, availableMemory]
    omega
  constructor
  · by_contra hge
    have hm := Nat.mul_le_mul_right fs.maxPairs (Nat.le_of_not_lt hge)
    omega
  · have hd : k ≤ fs.filesize / (2 * fs.maxPairs) := by
      rw [Nat.le_div_iff_mul_le (by omega), h.filesize]
      linarith
    rw [reserved]
    omega

theorem Splits.bounded (h : Splits file fs fin) : Bounded file fs := by
  have hread := h.read
  obtain ⟨h₁, h₂⟩ := h.few (k := fs.nextFilePositions.length) (by omega)
  have hs : fs.filePositions.length = fs.nextFilePositions.length + 1 := by simp [h.starts]
  exact {
    buf    := h.buf
    memory := h.memory
    starts := by omega
    ends   := by omega
    runs   := by omega
    heap   := by simp [h.heap] }

theorem Merges.bounded (h : Merges file fs) : Bounded file fs := by
  obtain ⟨h₁, h₂⟩ := Runs.few h.toRuns h.few
  have hs := h.length_filePositions
  exact {
    buf    := by simp [h.buf, h.maxPairs]
    memory := h.memory
    starts := by omega
    ends   := by omega
    runs   := by omega
    heap   := hs ▸ h.slots.length_le }

theorem Phase.Holds.bounded {s : Phase} (h : s.Holds file) : s.Bounded file := by
  cases s with
  | splitting fs fin cur => exact Splits.bounded h
  | merging fs fin       =>
    have h : Merges file fs := h
    exact ⟨h.bounded, h.length_filePositions, h.slots.nodup, h.slots.lt⟩

theorem Phase.Holds.step {s s' : Phase} (h : s.Holds file) (hs : s.Step () s') : s'.Holds file := by
  cases s with
  | splitting fs fin cur =>
    have h : Splits file fs fin := h
    rcases h.advance cur with ha | ⟨fs', fin', cur', ha, h', -⟩
    · obtain rfl := Option.some.inj (ha.symm.trans hs)
      exact h.flushLast
    · obtain rfl := Option.some.inj (ha.symm.trans hs)
      exact h'
  | merging fs fin =>
    have h : Merges file fs := h
    obtain ⟨curMin, fs', fin', hm, h', -⟩ := h.getMin fin
    simp only [Phase.Step, Phase.advance, hm] at hs
    split_ifs at hs
    obtain rfl := Option.some.inj hs
    exact h'.write _

theorem Phase.Holds.init (file : List UInt8) : (Phase.init file).Holds file :=
  Splits.init file

theorem run_bounded {file : List UInt8} {s : Phase} (r : Run Phase.Step (.init file) s) :
    s.Bounded file :=
  (r.invariant (P := Phase.Holds file) (.init file) .step).bounded

theorem partlySortLoop_succ : partlySortLoop (n + 1) fs fin cur =
    match (Phase.splitting fs fin cur).advance with
    | some (.splitting fs fin cur) => partlySortLoop n fs fin cur
    | _                            => some fs := by
  simp only [partlySortLoop, Phase.advance]
  split_ifs <;> rfl

theorem sortLoop_succ : sortLoop (n + 1) fs fin =
    match (Phase.merging fs fin).advance with
    | some (.merging fs fin) => sortLoop n fs fin
    | _                      => some (fs.getMin fin).2.1 := by
  simp only [sortLoop, Phase.advance]
  split_ifs <;> rfl

theorem Splits.ends (h : Splits file fs fin) (hn : fin.rest.length < n) (cur : ℕ × ℕ) :
    ∃ fs' fin', partlySortLoop n fs fin cur = some fs' ∧ Splits file fs' fin' ∧
    Nonempty (Run Phase.Step (.splitting fs fin cur)
      (.merging fs'.flushLast (.opened fs'.flushLast.partlySortedFile))) := by
  induction n generalizing fs fin cur with
  | zero      => exact absurd hn (Nat.not_lt_zero _)
  | succ n ih =>
    rw [partlySortLoop_succ]
    rcases h.advance cur with ha | ⟨fs₁, fin₁, cur₁, ha, h₁, hl⟩
    · exact ⟨fs, fin, by rw [ha], h, ⟨.snoc .refl () ha⟩⟩
    · obtain ⟨fs', fin', hs, h', ⟨r⟩⟩ := ih h₁ (by omega) cur₁
      exact ⟨fs', fin', by rw [ha, ← hs], h', ⟨Run.append (.snoc .refl () ha) r⟩⟩

theorem Merges.ends (h : Merges file fs) (hn : fs.left < n) (fin : IfStream) : ∃ fs₁ fin₁,
    sortLoop n fs fin = some (fs₁.getMin fin₁).2.1 ∧ (Phase.merging fs₁ fin₁).advance = none ∧
    Nonempty (Run Phase.Step (.merging fs fin) (.merging fs₁ fin₁)) := by
  induction n generalizing fs fin with
  | zero      => exact absurd hn (Nat.not_lt_zero _)
  | succ n ih =>
    rw [sortLoop_succ]
    obtain ⟨curMin, fs', fin', hm, h', hl⟩ := h.getMin fin
    by_cases hc : curMin.1 = 2 ^ 64 - 1
    case pos =>
      have ha : (Phase.merging fs fin).advance = none := by
        simp only [Phase.advance, hm]
        exact if_pos hc
      exact ⟨fs, fin, by rw [ha], ha, ⟨.refl⟩⟩
    case neg =>
      let out := fs'.sortedFile ++ pairText (toLex curMin)
      have ha : (Phase.merging fs fin).advance =
          some (.merging { fs' with sortedFile := out } fin') := by
        simp only [Phase.advance, hm]
        exact if_neg hc
      have hlt : { fs' with sortedFile := out }.left < n :=
        (hl.resolve_left hc).trans_le (Nat.lt_succ_iff.mp hn)
      obtain ⟨fs₁, fin₁, hs, he, ⟨r⟩⟩ := ih (h'.write out) hlt fin'
      exact ⟨fs₁, fin₁, by rw [ha, ← hs], he, ⟨Run.append (.snoc .refl () ha) r⟩⟩

theorem sort_ends (file : List UInt8) : ∃ fs fin,
    (FileSorter.new file).sort = some (fs.getMin fin).2.1 ∧
    (Phase.merging fs fin).advance = none ∧
    Nonempty (Run Phase.Step (.init file) (.merging fs fin)) := by
  obtain ⟨fs₁, fin₁, hp, h₁, ⟨r₁⟩⟩ := (Splits.init file).ends (Nat.lt_succ_self _) (0, 0)
  have hl : fs₁.flushLast.left < fs₁.flushLast.filesize + 1 :=
    Nat.lt_succ_iff.mpr (if_pos h₁.first_flushLast).le
  obtain ⟨fs, fin, hs, he, ⟨r₂⟩⟩ := h₁.flushLast.ends hl (.opened fs₁.flushLast.partlySortedFile)
  refine ⟨fs, fin, ?_, he, ⟨r₁.append r₂⟩⟩
  have hf : (FileSorter.new file).partlySort = some fs₁.flushLast :=
    congrArg (·.bind fun fs => some fs.flushLast) hp
  rw [sort, hf]
  exact hs

end Index.FileSorter
