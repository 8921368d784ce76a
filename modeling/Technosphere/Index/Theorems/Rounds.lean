import Technosphere.Index.Sorting
import Technosphere.Index.Theorems.Sort

namespace IfStream

variable {s : IfStream} {n : ℕ}

def behind (s : IfStream) (n : ℕ) : IfStream :=
  { s with pos := s.pos + n, eof := s.rest.drop n = [] }

theorem rest_behind : (s.behind n).rest = s.rest.drop n :=
  List.drop_drop.symm

theorem behind_behind (m : ℕ) : (s.behind m).behind n = s.behind (m + n) := by
  simp [behind, rest, add_assoc]

theorem pos_seekg (h : (s.seekg n).good) : (s.seekg n).pos = n := by
  unfold seekg at h ⊢
  split_ifs with hf
  · simp [good, hf] at h
  · rfl

theorem extract_eq {old : ℕ} (h : (s.extract old).2.fail = false) :
    s.good ∧ ∃ n, 0 < n ∧ n ≤ s.rest.length ∧
      (s.extract old).2 = s.behind n := by
  by_cases hg : s.good
  case neg => simp [extract, hg] at h
  case pos =>
    refine ⟨hg, ?_⟩
    by_cases ht : s.rest.dropWhile isSpace = []
    case pos => simp [extract, hg, ht] at h
    case neg =>
      have hr : s.rest = s.rest.takeWhile isSpace ++ s.rest.dropWhile isSpace :=
        List.takeWhile_append_dropWhile.symm
      revert h
      simp only [extract, hg, ht, if_true, if_false, apply_ite Prod.snd, ite_self]
      generalize s.rest.takeWhile isSpace = spaces at hr
      generalize s.rest.dropWhile isSpace = text at hr ht
      generalize (if text.head? = some 43 ∨ text.head? = some 45 then 1 else 0) = sign
      have hle := (List.takeWhile_sublist (p := Decimal.isDigit) (l := text.drop sign)).length_le
      rw [List.length_drop] at hle
      generalize (text.drop sign).takeWhile Decimal.isDigit = digits at hle
      intro h
      have hd : digits ≠ [] := fun hd => by simp [hd] at h
      have hpos := List.length_pos_of_ne_nil hd
      have hn : spaces.length + sign + digits.length ≤ s.rest.length := by
        rw [hr, List.length_append]
        omega
      refine ⟨spaces.length + sign + digits.length, by omega, hn, ?_⟩
      rw [behind, mk.injEq, hr, add_assoc spaces.length, List.drop_length_add_append]
      exact ⟨rfl, rfl, rfl, h.trans (fail_of_good hg).symm⟩

theorem extractPair_eq {old : ℕ × ℕ} (h : (s.extractPair old).2.fail = false) :
    s.good ∧ ∃ n, 2 ≤ n ∧ n ≤ s.rest.length ∧
      (s.extractPair old).2 = s.behind n := by
  have h₁ : (s.extract old.1).2.good := by
    by_contra hg
    simp [extractPair, extract_of_not_good (Bool.eq_false_iff.mpr hg)] at h
  obtain ⟨hg, m, hm, hml, hme⟩ := extract_eq (fail_of_good h₁)
  obtain ⟨-, n, hn, hnl, hne⟩ := extract_eq (s := (s.extract old.1).2) h
  rw [hme, rest_behind, List.length_drop] at hnl
  refine ⟨hg, m + n, by omega, by omega, ?_⟩
  calc
    (s.extractPair old).2 = (s.behind m).behind n := by rw [← hme, ← hne]; rfl
    _ = s.behind (m + n)                          := behind_behind m

end IfStream

namespace Index.FileSorter

variable {file : List UInt8} {fs fs' : FileSorter} {fin fin' : IfStream} {cur : ℕ × ℕ}
  {i n pos : ℕ} {heap : SortedMap WordDoc IdsStruct}

def indices (heap : SortedMap WordDoc IdsStruct) : List ℕ :=
  heap.entries.map (·.2.filePosIdx)

-- The bytes of the run `i` behind the position `pos`.
def gap (fs : FileSorter) (i pos : ℕ) : ℕ :=
  fs.nextFilePositions.getD i 0 - pos

-- The bytes behind the pairs in the heap, and one for each of these pairs.
def ahead (fs : FileSorter) : ℕ :=
  (fs.heap.entries.map fun (_, ids) => fs.gap ids.filePosIdx ids.nextOffset + 1).sum

def left (fs : FileSorter) : ℕ :=
  if fs.mustInitialize then fs.filesize else fs.ahead

theorem offset_eq (fs : FileSorter) (fin : IfStream) : fs.offset fin =
    (if fin.good then fin.pos else fs.filesize, { fin with fail := !fin.good }) := by
  by_cases hg : fin.good
  case pos => simp [offset_of_good hg, hg, ← IfStream.fail_of_good hg]
  case neg => simp [offset, IfStream.tellg, hg]

-- All that `insertNext` does to the sorter is to put a pair of the run `i` into the heap, with a
-- position behind that pair.
theorem insertNext_cases (fs : FileSorter) (fin : IfStream) (i pos : ℕ)
    (hi : fs.nextFilePositions.getD i 0 ≤ fs.filesize) : ∃ heap fin',
      fs.insertNext fin i pos = ({ fs with heap := heap }, fin') ∧
      (heap = fs.heap ∨ ∃ p ids, heap.entries.Perm ((p, ids) :: fs.heap.entries) ∧
        ids.filePosIdx = i ∧ fs.gap i ids.nextOffset + 1 ≤ fs.gap i pos) := by
  unfold insertNext
  split_ifs with hp
  case neg => exact ⟨fs.heap, fin, rfl, .inl rfl⟩
  case pos =>
    dsimp only
    split_ifs with hf
    case pos => exact ⟨fs.heap, _, rfl, .inl rfl⟩
    case neg =>
      refine ⟨_, _, rfl, ?_⟩
      obtain ⟨hg, m, hm, -, he⟩ := IfStream.extractPair_eq (Bool.eq_false_iff.mpr hf)
      generalize toLex _ = p
      cases hh : fs.heap.find? p with
      | some ids => exact .inl (by simp [SortedMap.insert, hh])
      | none     =>
        rw [SortedMap.insert_of_find?_eq_none hh]
        refine .inr ⟨p, _, SortedMap.entries_set_perm hh, rfl, ?_⟩
        have hs : ((fin.seekg pos).behind m).pos = pos + m :=
          congrArg (· + m) (IfStream.pos_seekg hg)
        rw [gap, gap, offset_eq, he]
        dsimp only
        split_ifs <;> omega

structure Slots (n k : ℕ) (fs : FileSorter) : Prop where
  nodup : (indices fs.heap).Nodup
  lt    : ∀ i ∈ indices fs.heap, i < n
  ahead : fs.ahead ≤ k

namespace Slots

variable {k : ℕ}

theorem empty (h : fs.heap = ∅) (n k : ℕ) : Slots n k fs where
  nodup := by simp [indices, h]
  lt    := by simp [indices, h]
  ahead := by simp [FileSorter.ahead, h]

theorem length_le (h : Slots n k fs) : fs.heap.entries.length ≤ n := by
  have hs : indices fs.heap ⊆ List.range n := fun i hi => List.mem_range.mpr (h.lt i hi)
  simpa [indices] using (h.nodup.subperm hs).length_le

theorem insertNext (h : Slots n k fs) (hi : i < n) (hn : i ∉ indices fs.heap)
    (hl : fs.nextFilePositions.getD i 0 ≤ fs.filesize) (fin : IfStream) (pos : ℕ) :
    ∃ heap fin', fs.insertNext fin i pos = ({ fs with heap := heap }, fin') ∧
      Slots n (k + fs.gap i pos) { fs with heap := heap } := by
  obtain ⟨heap, fin', he, rfl | ⟨p, ids, hp, rfl, hg⟩⟩ := fs.insertNext_cases fin i pos hl
  · exact ⟨_, fin', he, h.nodup, h.lt, h.ahead.trans (Nat.le_add_right _ _)⟩
  · have hi' : (indices heap).Perm (ids.filePosIdx :: indices fs.heap) := hp.map _
    refine ⟨heap, fin', he, hi'.nodup_iff.mpr (List.nodup_cons.mpr ⟨hn, h.nodup⟩), ?_, ?_⟩
    · simpa [hi'.mem_iff, hi] using h.lt
    · have hs := (hp.map fun (_, ids) => fs.gap ids.filePosIdx ids.nextOffset + 1).sum_eq
      calc
        _ = fs.gap ids.filePosIdx ids.nextOffset + 1 + fs.ahead := hs
        _ ≤ k + fs.gap ids.filePosIdx pos                       := by have := h.ahead; omega

end Slots

-- What holds in both loops: the runs end one behind the other, inside of the file.
structure Runs (file : List UInt8) (fs : FileSorter) : Prop where
  filesize : fs.filesize = file.length
  maxPairs : fs.maxPairs = availableMemory file.length / 16 + 4
  sorted   : fs.nextFilePositions.Pairwise (· ≤ ·)
  le       : ∀ e ∈ fs.nextFilePositions, e ≤ fs.filesize

-- In the loop of `partlySort` there is room in the buffer for one pair more, and what has been
-- read and what is left are together no more than the file.
structure Splits (file : List UInt8) (fs : FileSorter) (fin : IfStream) : Prop
    extends Runs file fs where
  starts  : fs.filePositions = 0 :: fs.nextFilePositions
  buf     : fs.sortBuf.length < fs.maxPairs
  read    : 2 * (fs.nextFilePositions.length * fs.maxPairs + fs.sortBuf.length) +
              fin.rest.length ≤ file.length
  content : fin.content = file
  pos     : fin.good → ∀ e ∈ fs.nextFilePositions, e ≤ fin.pos
  heap    : fs.heap = ∅
  first   : fs.mustInitialize

structure Merges (file : List UInt8) (fs : FileSorter) : Prop extends Runs file fs where
  starts : fs.filePositions = (0 :: fs.nextFilePositions).dropLast
  buf    : fs.sortBuf = []
  few    : 2 * ((fs.nextFilePositions.length - 1) * fs.maxPairs) ≤ file.length
  heap   : fs.mustInitialize → fs.heap = ∅
  slots  : Slots fs.nextFilePositions.length fs.left fs

theorem Runs.getD_le (h : Runs file fs) (i : ℕ) :
    fs.nextFilePositions.getD i 0 ≤ fs.filesize := by
  rw [List.getD_eq_getElem?_getD]
  cases hi : fs.nextFilePositions[i]? with
  | none   => exact Nat.zero_le _
  | some e => exact h.le e (List.mem_of_getElem? hi)

theorem Runs.getD_mono (h : Runs file fs) {i : ℕ} (hi : i < fs.nextFilePositions.length) :
    (0 :: fs.nextFilePositions).getD i 0 ≤ fs.nextFilePositions.getD i 0 := by
  cases i with
  | zero   => exact Nat.zero_le _
  | succ i =>
    simp only [List.getD_cons_succ, List.getD_eq_getElem _ _ hi,
      List.getD_eq_getElem _ _ (Nat.lt_of_succ_lt hi)]
    exact List.pairwise_iff_getElem.mp h.sorted i (i + 1) _ hi (Nat.lt_succ_self i)

namespace Merges

theorem length_filePositions (h : Merges file fs) :
    fs.filePositions.length = fs.nextFilePositions.length := by
  simp [h.starts]

theorem initializeHeap (h : Merges file fs) (hi : fs.mustInitialize) (fin : IfStream) :
    ∃ heap fin', fs.initializeHeap fin = ({ fs with heap := heap, mustInitialize := false }, fin') ∧
      Merges file { fs with heap := heap, mustInitialize := false } ∧
      { fs with heap := heap, mustInitialize := false }.left ≤ fs.left := by
  have hfold (m : ℕ) (hm : m ≤ fs.nextFilePositions.length) : ∃ heap fin', (List.range m).foldl
      (fun s i => s.1.insertNext s.2 i (s.1.filePositions.getD i 0)) (fs, fin) =
        ({ fs with heap := heap }, fin') ∧
      Slots m ((0 :: fs.nextFilePositions).getD m 0) { fs with heap := heap } := by
    induction m with
    | zero      => exact ⟨∅, fin, by simp [← h.heap hi], Slots.empty rfl _ _⟩
    | succ m ih =>
      obtain ⟨heap, fin₁, hf, hs⟩ := ih (Nat.le_of_succ_le hm)
      have hn : m ∉ indices heap := fun hm => lt_irrefl m (hs.lt m hm)
      have hs' : Slots (m + 1) ((0 :: fs.nextFilePositions).getD m 0) { fs with heap := heap } :=
        ⟨hs.nodup, fun i hi => (hs.lt i hi).trans (Nat.lt_succ_self m), hs.ahead⟩
      obtain ⟨heap', fin', hx, hs''⟩ := hs'.insertNext (Nat.lt_succ_self m) hn (h.getD_le m) fin₁
        (fs.filePositions.getD m 0)
      refine ⟨heap', fin', by rw [List.range_succ, List.foldl_append, hf]; exact hx, ?_⟩
      have hp : fs.filePositions.getD m 0 = (0 :: fs.nextFilePositions).getD m 0 := by
        rw [h.starts, List.getD_eq_getElem?_getD, List.getD_eq_getElem?_getD,
          List.getElem?_dropLast, if_pos (by simpa using hm)]
      have hmono := h.getD_mono hm
      have hgap : (0 :: fs.nextFilePositions).getD m 0 + fs.gap m (fs.filePositions.getD m 0) =
          (0 :: fs.nextFilePositions).getD (m + 1) 0 := by
        rw [hp, gap, List.getD_cons_succ]
        omega
      exact hgap ▸ hs''
  obtain ⟨heap, fin', hf, hs⟩ := hfold fs.nextFilePositions.length le_rfl
  have hl : (0 :: fs.nextFilePositions).getD fs.nextFilePositions.length 0 ≤ fs.filesize := by
    cases fs.nextFilePositions.length with
    | zero   => exact Nat.zero_le _
    | succ i => exact h.getD_le i
  rw [← h.length_filePositions] at hf
  refine ⟨heap, fin', congrArg (fun s => ({ s.1 with mustInitialize := false }, s.2)) hf, ?_, ?_⟩
  · exact { h with heap := nofun, slots := ⟨hs.nodup, hs.lt, le_rfl⟩ }
  · calc
      _ = { fs with heap := heap }.ahead := rfl
      _ ≤ fs.filesize                    := hs.ahead.trans hl
      _ = fs.left                        := (if_pos hi).symm

theorem popMin (h : Merges file fs) (hi : fs.mustInitialize = false) (fin : IfStream) :
    fs.popMin fin = ((2 ^ 64 - 1, 2 ^ 64 - 1), fs, fin) ∨ ∃ curMin heap fin',
      fs.popMin fin = (curMin, { fs with heap := heap }, fin') ∧
      Merges file { fs with heap := heap } ∧ { fs with heap := heap }.left < fs.left := by
  cases he : fs.heap.entries with
  | nil       => exact .inl (popMin_of_nil he)
  | cons e es =>
    obtain ⟨p, ids⟩ := e
    have hx : indices fs.heap = ids.filePosIdx :: indices fs.heap.eraseMin := by
      simp [indices, SortedMap.eraseMin, he]
    obtain ⟨hn, hnodup⟩ := List.nodup_cons.mp (hx ▸ h.slots.nodup)
    obtain ⟨hlt, hmin⟩ := List.forall_mem_cons.mp (hx ▸ h.slots.lt)
    have ha : fs.ahead = fs.gap ids.filePosIdx ids.nextOffset + 1 +
        { fs with heap := fs.heap.eraseMin }.ahead := by
      simp [FileSorter.ahead, SortedMap.eraseMin, he, gap]
    have hs : Slots fs.nextFilePositions.length _ { fs with heap := fs.heap.eraseMin } :=
      ⟨hnodup, hmin, le_rfl⟩
    obtain ⟨heap, fin', hx, hs'⟩ := hs.insertNext hlt hn (h.getD_le _) fin ids.nextOffset
    refine .inr ⟨_, heap, fin', by rw [popMin_of_cons he, hx], ?_, ?_⟩
    · have hl : { fs with heap := heap }.left = { fs with heap := heap }.ahead :=
        if_neg (by simp [hi])
      exact { h with heap := by simp [hi], slots := ⟨hs'.nodup, hs'.lt, hl.ge⟩ }
    · have hl : fs.left = fs.ahead := if_neg (by simp [hi])
      calc
        { fs with heap := heap }.left = { fs with heap := heap }.ahead := if_neg (by simp [hi])
        _ ≤ _ + fs.gap ids.filePosIdx ids.nextOffset                   := hs'.ahead
        _ < fs.left                                                    := by omega

-- Each round of the loop takes from what is left, or it is the last one.
theorem getMin (h : Merges file fs) (fin : IfStream) : ∃ curMin fs' fin',
    fs.getMin fin = (curMin, fs', fin') ∧ Merges file fs' ∧
      (curMin.1 = 2 ^ 64 - 1 ∨ fs'.left < fs.left) := by
  unfold FileSorter.getMin
  split_ifs with hi
  case pos =>
    obtain ⟨heap, fin₁, he, h₁, hl₁⟩ := h.initializeHeap hi fin
    simp only [he]
    rcases h₁.popMin rfl fin₁ with hp | ⟨curMin, heap', fin₂, hp, h₂, hl₂⟩
    · exact ⟨_, _, _, hp, h₁, .inl rfl⟩
    · exact ⟨_, _, _, hp, h₂, .inr (hl₂.trans_le hl₁)⟩
  case neg =>
    rcases h.popMin (Bool.eq_false_iff.mpr hi) fin with hp | ⟨curMin, heap', fin₂, hp, h₂, hl₂⟩
    · exact ⟨_, _, _, hp, h, .inl rfl⟩
    · exact ⟨_, _, _, hp, h₂, .inr hl₂⟩

theorem write (h : Merges file fs) (out : List UInt8) : Merges file { fs with sortedFile := out } :=
  { h with slots := ⟨h.slots.nodup, h.slots.lt, h.slots.ahead⟩ }

end Merges

namespace Splits

theorem init (file : List UInt8) :
    Splits file { FileSorter.new file with filePositions := [0] } (.opened file) where
  filesize := rfl
  maxPairs := rfl
  sorted   := .nil
  le       := nofun
  starts   := rfl
  buf      := maxPairs_pos file
  read     := by simp [FileSorter.new, IfStream.opened, IfStream.rest]
  content  := rfl
  pos      := fun _ => nofun
  heap     := rfl
  first    := rfl

theorem flushLast (h : Splits file fs fin) : Merges file fs.flushLast := by
  have hread := h.read
  unfold FileSorter.flushLast
  split_ifs with hb
  · exact {
      filesize := h.filesize
      maxPairs := h.maxPairs
      sorted   := List.pairwise_append.mpr ⟨h.sorted, List.pairwise_singleton _ _, by
        simpa [flushSorted] using h.le⟩
      le       := by simpa [flushSorted, or_imp, forall_and] using h.le
      starts   := by
        simp only [flushSorted, h.starts]
        rw [← List.cons_append, List.dropLast_concat]
      buf      := rfl
      few      := by
        simp only [flushSorted, List.length_append, List.length_singleton, Nat.add_sub_cancel]
        omega
      heap     := fun _ => h.heap
      slots    := .empty (by exact h.heap) _ _ }
  · exact {
      filesize := h.filesize
      maxPairs := h.maxPairs
      sorted   := h.sorted
      le       := h.le
      starts   := congrArg List.dropLast h.starts
      buf      := List.eq_nil_of_length_eq_zero (Nat.eq_zero_of_not_pos hb)
      few      := by
        have hle := Nat.mul_le_mul_right fs.maxPairs (Nat.sub_le fs.nextFilePositions.length 1)
        dsimp only
        omega
      heap     := fun _ => h.heap
      slots    := .empty (by exact h.heap) _ _ }

theorem offset (h : Splits file fs fin) (hg : fin.good) (hn : n ≤ fin.rest.length)
    (h0 : 0 < n) : ∃ o,
    fs.offset (fin.behind n) = (o, { fin.behind n with fail := !(fin.behind n).good }) ∧
    (∀ e ∈ fs.nextFilePositions, e ≤ o) ∧
    (∀ e ∈ fs.nextFilePositions ++ [o], e ≤ fs.filesize) ∧
    ((fin.behind n).good → ∀ e ∈ fs.nextFilePositions ++ [o], e ≤ fin.pos + n) := by
  have hl : fin.pos + n ≤ fs.filesize := by
    rw [IfStream.rest, List.length_drop, h.content] at hn
    rw [h.filesize]
    omega
  have hpos : ∀ e ∈ fs.nextFilePositions, e ≤ fin.pos + n := fun e he =>
    (h.pos hg e he).trans (Nat.le_add_right _ _)
  simp only [offset_eq, List.mem_append, List.mem_singleton, or_imp, forall_and, forall_eq]
  refine ⟨_, rfl, fun e he => ?_, ⟨h.le, ?_⟩, fun _ => hpos, fun hg => (if_pos hg).le⟩
  · split_ifs
    · exact hpos e he
    · exact h.le e he
  · split_ifs
    · exact hl
    · exact le_rfl

theorem first_flushLast (h : Splits file fs fin) : fs.flushLast.mustInitialize := by
  unfold FileSorter.flushLast
  split_ifs <;> exact h.first

theorem advance (h : Splits file fs fin) (cur : ℕ × ℕ) :
    (Phase.splitting fs fin cur).advance =
      some (.merging fs.flushLast (.opened fs.flushLast.partlySortedFile)) ∨
    ∃ fs' fin' cur', (Phase.splitting fs fin cur).advance = some (.splitting fs' fin' cur') ∧
      Splits file fs' fin' ∧ fin'.rest.length < fin.rest.length := by
  by_cases hf : (fin.extractPair cur).2.fail
  case pos => exact .inl (by simp [Phase.advance, hf])
  case neg =>
    right
    obtain ⟨hg, m, hm, hml, he⟩ := IfStream.extractPair_eq (Bool.eq_false_iff.mpr hf)
    have hr : (fin.behind m).rest.length = fin.rest.length - m := by
      rw [IfStream.rest_behind, List.length_drop]
    have hr' (fail : Bool) : { fin.behind m with fail := fail }.rest.length =
        fin.rest.length - m := hr
    have hb := h.buf
    have hread := h.read
    obtain ⟨o, ho, hge, hle, hpos⟩ := h.offset hg hml (by omega)
    have hf : (fin.behind m).fail = false := he ▸ Bool.eq_false_iff.mpr hf
    have hs (buf : List WordDoc) : { fs with sortBuf := buf }.flushSorted.offset (fin.behind m) =
        fs.offset (fin.behind m) := rfl
    simp only [Phase.advance, he, hf, Bool.false_eq_true, if_false]
    split_ifs with hx
    case pos =>
      rw [hs, ho]
      dsimp only
      refine ⟨_, _, _, rfl, ?_, by simp only [hr']; omega⟩
      exact {
        filesize := h.filesize
        maxPairs := h.maxPairs
        sorted   := List.pairwise_append.mpr ⟨h.sorted, List.pairwise_singleton _ _, by simpa⟩
        le       := hle
        starts   := congrArg (· ++ [o]) h.starts
        buf      := (Nat.zero_le fs.sortBuf.length).trans_lt hb
        read     := by
          simp only [flushSorted, List.length_append, List.length_singleton, List.length_nil,
            add_mul, hr'] at hx ⊢
          omega
        content  := h.content
        pos      := fun hg e he => hpos (by simp_all [IfStream.good]) e he
        heap     := h.heap
        first    := h.first }
    case neg =>
      refine ⟨_, _, _, rfl, ?_, by omega⟩
      exact {
        filesize := h.filesize
        maxPairs := h.maxPairs
        sorted   := h.sorted
        le       := h.le
        starts   := h.starts
        buf      := by simpa using hx
        read     := by
          simp only [List.length_append, List.length_singleton]
          omega
        content  := h.content
        pos      := fun _ e he => (h.pos hg e he).trans (Nat.le_add_right _ _)
        heap     := h.heap
        first    := h.first }

end Splits

end Index.FileSorter
