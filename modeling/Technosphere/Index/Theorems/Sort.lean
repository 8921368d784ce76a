import Technosphere.Index.Theorems.Split
import Technosphere.Lib.Merge

namespace Index

variable {p x : WordDoc} {ps done rem : List WordDoc} {rs later : List (List WordDoc)}
  {fs : FileSorter} {fin : IfStream} {m : Merge WordDoc} {len i pos : ℕ}

-- At the position `pos` stands what is left of the run with the index `i`, before the later runs.
def Points (len : ℕ) (rs : List (List WordDoc)) (i pos : ℕ) (rem : List WordDoc) : Prop :=
  ∃ done later, rs.drop i = (done ++ rem) :: later ∧ pos = position len (rem ++ later.flatten)

def Stands (len : ℕ) (rs : List (List WordDoc)) (p : WordDoc) (ids : IdsStruct)
    (rem : List WordDoc) : Prop :=
  (ids.word, ids.doc) = ofLex p ∧ Points len rs ids.filePosIdx ids.nextOffset rem

structure HasRuns (rs : List (List WordDoc)) (fs : FileSorter) : Prop where
  content   : fs.partlySortedFile = pairsText rs.flatten
  filesize  : fs.filesize = fs.partlySortedFile.length
  fits      : ∀ p ∈ rs.flatten, Fits p
  positions : Positions fs.filesize rs fs.filePositions fs.nextFilePositions

structure Stream (fs : FileSorter) (fin : IfStream) : Prop where
  good    : fin.good
  content : fin.content = fs.partlySortedFile

theorem position_lt (h : (pairsText (p :: ps)).length ≤ len) :
    position len (p :: ps) < position len ps := by
  have := four_le_length_pairText (p := p)
  simp only [pairsText_cons, List.length_append] at h
  simp only [position, pairsText_cons, List.length_append]
  omega

theorem HasRuns.flatten_drop (h : HasRuns rs fs) (i : ℕ) :
    fs.partlySortedFile = pairsText ((rs.take i).flatten ++ (rs.drop i).flatten) := by
  rw [h.content, ← List.flatten_append, List.take_append_drop]

theorem HasRuns.next (h : HasRuns rs fs) (hd : rs.drop i = done :: later) :
    fs.nextFilePositions.getD i 0 = position fs.filesize later.flatten ∨
      later = [] ∧ fs.nextFilePositions.getD i 0 = fs.filesize := by
  have hi : i < rs.length := by
    by_contra hi
    simp [List.drop_of_length_le (not_lt.mp hi)] at hd
  have hn := h.positions.next hi
  rwa [← List.tail_drop, hd, List.tail_cons] at hn

theorem HasRuns.position_lt_next (h : HasRuns rs fs)
    (hd : rs.drop i = (done ++ x :: rem) :: later) :
    position fs.filesize (x :: rem ++ later.flatten) < fs.nextFilePositions.getD i 0 := by
  have hlen : (pairsText (x :: (rem ++ later.flatten))).length ≤ fs.filesize := by
    rw [h.filesize, h.flatten_drop i, hd, List.flatten_cons, List.append_assoc,
      ← List.append_assoc, pairsText_append, List.length_append]
    exact Nat.le_add_left ..
  apply (position_lt hlen).trans_le
  rcases h.next hd with hn | ⟨_, hn⟩
  · rw [hn]
    exact Nat.sub_le_sub_right (Nat.sub_le_sub_left (by simp) _) _
  · exact hn ▸ (Nat.sub_le _ _).trans (Nat.sub_le _ _)

-- When nothing is left of a run, its end can only be ahead if it is the last one.
theorem HasRuns.eq_nil_of_position_lt (h : HasRuns rs fs) (hd : rs.drop i = done :: later)
    (hl : position fs.filesize later.flatten < fs.nextFilePositions.getD i 0) : later = [] := by
  rcases h.next hd with hn | ⟨hn, _⟩
  · exact absurd (hn ▸ hl) (lt_irrefl _)
  · exact hn

namespace FileSorter

def readNext (fs : FileSorter) (fin : IfStream) (i pos : ℕ) : Option (WordDoc × ℕ) × IfStream :=
  if pos < fs.nextFilePositions.getD i 0 then
    let (cur, fin) := (fin.seekg pos).extractPair (2 ^ 64 - 1, 2 ^ 64 - 1)
    if fin.fail then (none, .opened fs.partlySortedFile)
    else
      let (offset, fin) := fs.offset fin
      (some (toLex cur, offset), fin)
  else (none, fin)

theorem insertNext_eq : fs.insertNext fin i pos =
    match fs.readNext fin i pos with
    | (some (p, offset), fin) =>
      ({ fs with heap := fs.heap.insert p ⟨i, offset, (ofLex p).1, (ofLex p).2⟩ }, fin)
    | (none, fin)             => (fs, fin) := by
  simp only [insertNext, readNext]
  split_ifs <;> rfl

theorem readNext_of_ge (h : fs.nextFilePositions.getD i 0 ≤ pos) :
    fs.readNext fin i pos = (none, fin) :=
  if_neg h.not_gt

theorem readNext_of_fail (hl : pos < fs.nextFilePositions.getD i 0)
    (hf : ((fin.seekg pos).extractPair (2 ^ 64 - 1, 2 ^ 64 - 1)).2.fail) :
    fs.readNext fin i pos = (none, .opened fs.partlySortedFile) := by
  simp only [readNext, hl, hf, if_true]

theorem readNext_of_good {fin' : IfStream} (hl : pos < fs.nextFilePositions.getD i 0)
    (he : (fin.seekg pos).extractPair (2 ^ 64 - 1, 2 ^ 64 - 1) = (ofLex p, fin'))
    (hg : fin'.good) : fs.readNext fin i pos = (some (p, fin'.pos), fin') := by
  simp only [readNext, hl, he, IfStream.fail_of_good hg, offset_of_good hg, if_true, toLex_ofLex]
  simp

theorem readNext_nil (h : HasRuns rs fs) (hs : Stream fs fin)
    (hp : Points fs.filesize rs i pos []) :
    ∃ fin', fs.readNext fin i pos = (none, fin') ∧ Stream fs fin' := by
  obtain ⟨done, later, hd, rfl⟩ := hp
  by_cases hl : position fs.filesize ([] ++ later.flatten) < fs.nextFilePositions.getD i 0
  case neg => exact ⟨fin, readNext_of_ge (not_lt.mp hl), hs⟩
  case pos =>
    have hc := h.flatten_drop i
    rw [hd, List.flatten_cons, List.append_assoc, ← List.append_assoc] at hc
    have hr := Reads.seekg hs.good (hs.content.trans hc)
    rw [hs.content, ← h.filesize] at hr
    obtain rfl := h.eq_nil_of_position_lt hd hl
    exact ⟨_, readNext_of_fail hl (hr.extractPair_nil _), ⟨rfl, rfl⟩⟩

theorem readNext_cons (h : HasRuns rs fs) (hs : Stream fs fin)
    (hp : Points fs.filesize rs i pos (x :: rem)) :
    ∃ offset fin', fs.readNext fin i pos = (some (x, offset), fin') ∧ Stream fs fin' ∧
      Points fs.filesize rs i offset rem := by
  obtain ⟨done, later, hd, rfl⟩ := hp
  have hc := h.flatten_drop i
  rw [hd, List.flatten_cons, List.append_assoc, ← List.append_assoc] at hc
  have hr := Reads.seekg hs.good (hs.content.trans hc)
  rw [hs.content, ← h.filesize] at hr
  have hx : Fits x := h.fits x <| by
    rw [← List.take_append_drop i rs, hd]
    simp
  have hl := h.position_lt_next hd
  have ⟨he, hr'⟩ := hr.extractPair_cons hx (2 ^ 64 - 1, 2 ^ 64 - 1)
  rw [IfStream.content_seekg, hs.content, ← h.filesize] at he hr'
  exact ⟨_, _, readNext_of_good hl he hr'.good, ⟨hr'.good, by simp⟩, done ++ [x], later,
    by simpa using hd, rfl⟩

-- Reading on in a run is a push of what is left of it.
theorem insertNext_spec (h : HasRuns rs fs) (hs : Stream fs fin)
    (hm : SortedMap.Rel (Stands fs.filesize rs) fs.heap m.heap)
    (hp : Points fs.filesize rs i pos rem) :
    ∃ heap fin', fs.insertNext fin i pos = ({ fs with heap := heap }, fin') ∧ Stream fs fin' ∧
      SortedMap.Rel (Stands fs.filesize rs) heap (m.push rem).heap := by
  rw [insertNext_eq]
  cases rem with
  | nil =>
    obtain ⟨fin', hr, hs'⟩ := readNext_nil h hs hp
    exact ⟨_, fin', by rw [hr], hs', hm⟩
  | cons x rem =>
    obtain ⟨offset, fin', hr, hs', hp'⟩ := readNext_cons h hs hp
    refine ⟨_, fin', by rw [hr], hs', ?_⟩
    cases hf : (m.heap.find? x).isSome with
    | true =>
      rw [Merge.push_of_isSome hf, SortedMap.insert, if_pos ((hm.isSome_find? x).trans hf)]
      exact hm
    | false =>
      have hn : m.heap.find? x = none := by simpa using hf
      have hn' : fs.heap.find? x = none := by simpa [hf] using hm.isSome_find? x
      rw [Merge.push_of_eq_none hn, SortedMap.insert_of_find?_eq_none hn']
      exact hm.set ⟨rfl, hp'⟩

theorem initializeHeap_spec (h : HasRuns rs fs) (hs : Stream fs fin) (he : fs.heap = ∅) :
    ∃ heap fin', fs.initializeHeap fin =
        ({ fs with heap := heap, mustInitialize := false }, fin') ∧ Stream fs fin' ∧
      SortedMap.Rel (Stands fs.filesize rs) heap (Merge.start rs).heap := by
  have hk : ∀ k ≤ rs.length, ∃ heap fin', (List.range k).foldl
      (fun s i => s.1.insertNext s.2 i (s.1.filePositions.getD i 0)) (fs, fin) =
        ({ fs with heap := heap }, fin') ∧ Stream fs fin' ∧
      SortedMap.Rel (Stands fs.filesize rs) heap (Merge.start (rs.take k)).heap := by
    intro k
    induction k with
    | zero => exact fun _ => ⟨fs.heap, fin, rfl, hs, he ▸ .empty⟩
    | succ k ih =>
      intro hk
      obtain ⟨heap, fin', hf, hs', hm⟩ := ih (Nat.le_of_succ_le hk)
      have hd := List.drop_eq_getElem_cons hk
      have hp : Points fs.filesize rs k (fs.filePositions.getD k 0) rs[k] := by
        refine ⟨[], rs.drop (k + 1), hd, ?_⟩
        rw [h.positions.start hk, hd, List.flatten_cons]
      have h' : HasRuns rs { fs with heap := heap } := { h with }
      obtain ⟨heap', fin'', hf', hs'', hm'⟩ := insertNext_spec h' { hs' with } hm hp
      refine ⟨heap', fin'', ?_, { hs'' with }, ?_⟩
      · rw [List.range_succ, List.foldl_append, hf]
        exact hf'
      · rw [List.take_succ_eq_append_getElem hk, Merge.start, List.foldl_append]
        exact hm'
  obtain ⟨heap, fin', hf, hs', hm⟩ := hk rs.length le_rfl
  rw [List.take_length] at hm
  rw [← h.positions.length] at hf
  exact ⟨heap, fin', congrArg (fun s => ({ s.1 with mustInitialize := false }, s.2)) hf, hs', hm⟩

theorem popMin_of_nil (h : fs.heap.entries = []) :
    fs.popMin fin = ((2 ^ 64 - 1, 2 ^ 64 - 1), fs, fin) := by
  simp [popMin, h]

theorem popMin_of_cons {ids : IdsStruct} {es : List (WordDoc × IdsStruct)}
    (h : fs.heap.entries = (p, ids) :: es) :
    fs.popMin fin = ((ids.word, ids.doc), { fs with heap := fs.heap.eraseMin }.insertNext fin
      ids.filePosIdx ids.nextOffset) := by
  simp [popMin, h]

theorem popMin_spec {es : List (WordDoc × List WordDoc)} (h : HasRuns rs fs) (hs : Stream fs fin)
    (hm : SortedMap.Rel (Stands fs.filesize rs) fs.heap m.heap)
    (he : m.heap.entries = (p, rem) :: es) :
    ∃ heap fin', fs.popMin fin = (ofLex p, { fs with heap := heap }, fin') ∧ Stream fs fin' ∧
      SortedMap.Rel (Stands fs.filesize rs) heap m.pop.heap := by
  have hr := hm
  unfold SortedMap.Rel at hr
  cases hf : fs.heap.entries with
  | nil => simp [hf, he, SortedMap.RelEntries] at hr
  | cons e es' =>
    obtain ⟨k, ids⟩ := e
    rw [hf, he] at hr
    obtain ⟨⟨rfl, hw, hp⟩, _⟩ := List.forall₂_cons.mp hr
    rw [popMin_of_cons hf, Merge.pop_of_cons he]
    have h' : HasRuns rs { fs with heap := fs.heap.eraseMin } := { h with }
    have ⟨heap, fin', hi, hs', hm'⟩ := insertNext_spec h'
      (m := { m with heap := m.heap.eraseMin, out := m.out ++ [k] }) { hs with } hm.eraseMin hp
    rw [hi, hw]
    exact ⟨heap, fin', rfl, { hs' with }, hm'⟩

theorem getMin_eq_popMin (h : fs.mustInitialize = false) : fs.getMin fin = fs.popMin fin := by
  simp [getMin, h]

theorem sortLoop_of_nil {n : ℕ} (hi : fs.mustInitialize = false) (he : fs.heap.entries = []) :
    sortLoop (n + 1) fs fin = some fs := by
  simp [sortLoop, getMin_eq_popMin hi, popMin_of_nil he]

theorem sortLoop_of_popMin {n : ℕ} {fs' : FileSorter} {fin' : IfStream}
    (hi : fs.mustInitialize = false) (hp : fs.popMin fin = (ofLex p, fs', fin'))
    (hw : (ofLex p).1 ≠ 2 ^ 64 - 1) : sortLoop (n + 1) fs fin =
      sortLoop n { fs' with sortedFile := fs'.sortedFile ++ pairText p } fin' := by
  rw [sortLoop, getMin_eq_popMin hi, hp]
  exact if_neg hw

-- The loop ends at a pair with the greatest word, which is also what an empty heap gives.
theorem sortLoop_of_last {n : ℕ} {fs' : FileSorter} {fin' : IfStream}
    (hi : fs.mustInitialize = false) (hp : fs.popMin fin = (ofLex p, fs', fin'))
    (hw : (ofLex p).1 = 2 ^ 64 - 1) : sortLoop (n + 1) fs fin = some fs' := by
  rw [sortLoop, getMin_eq_popMin hi, hp]
  exact if_pos hw

-- Where the loop ends: it has written what a number of rounds of the merge have put out, and there
-- is nothing left unless a pair has the greatest word.
structure Stops (ps : List WordDoc) (m : Merge WordDoc) (n k : ℕ) (fs' : FileSorter) : Prop where
  le    : k ≤ n
  text  : fs'.sortedFile = pairsText (Merge.pop^[k] m).out
  words : ∀ p ∈ (Merge.pop^[k] m).out, (ofLex p).1 ≠ 2 ^ 64 - 1
  done  : (∀ p ∈ ps, (ofLex p).1 ≠ 2 ^ 64 - 1) →
            (Merge.pop^[k] m).heap.entries = [] ∧ fs'.heap.entries = []

theorem sortLoop_spec {n : ℕ} (h : HasRuns rs fs) (hs : Stream fs fin)
    (hi : fs.mustInitialize = false)
    (hm : SortedMap.Rel (Stands fs.filesize rs) fs.heap m.heap) (hx : Merge.Invariant ps m)
    (hw : ∀ p ∈ m.out, (ofLex p).1 ≠ 2 ^ 64 - 1) (ho : fs.sortedFile = pairsText m.out)
    (hn : ps.length < n + m.out.length) :
    ∃ fs' k, sortLoop n fs fin = some fs' ∧ Stops ps m n k fs' := by
  induction n generalizing fs fin m with
  | zero =>
    have := hx.perm.length_eq
    simp only [List.length_append] at this
    omega
  | succ n ih =>
    cases he : m.heap.entries with
    | nil =>
      have hf : fs.heap.entries = [] := by
        unfold SortedMap.Rel at hm
        rw [he] at hm
        exact List.forall₂_nil_right_iff.mp hm
      exact ⟨fs, 0, sortLoop_of_nil hi hf, Nat.zero_le _, ho, hw, fun _ => ⟨he, hf⟩⟩
    | cons e es =>
      obtain ⟨p, rem⟩ := e
      obtain ⟨heap, fin', hp, hs', hm'⟩ := popMin_spec h hs hm he
      have hmem : p ∈ ps := hx.perm.mem_iff.mp (by simp [Merge.runs, he])
      by_cases hpw : (ofLex p).1 = 2 ^ 64 - 1
      case pos =>
        refine ⟨_, 0, sortLoop_of_last hi hp hpw, Nat.zero_le _, ho, hw, fun hps => ?_⟩
        exact absurd hpw (hps p hmem)
      case neg =>
        have hout : m.pop.out = m.out ++ [p] := by simp [Merge.pop_of_cons he]
        have h' : HasRuns rs { fs with
            heap := heap, sortedFile := fs.sortedFile ++ pairText p } :=
          { h with }
        have hw' : ∀ q ∈ m.pop.out, (ofLex q).1 ≠ 2 ^ 64 - 1 := by
          intro q hq
          rcases List.mem_append.mp (hout ▸ hq) with hq | hq
          · exact hw q hq
          · exact List.mem_singleton.mp hq ▸ hpw
        have hn' : ps.length < n + m.pop.out.length := by
          simp only [hout, List.length_append, List.length_singleton]
          omega
        obtain ⟨fs', k, hl, hk⟩ := ih h' { hs' with } hi hm' hx.pop hw' (by simp [hout, ho]) hn'
        refine ⟨fs', k + 1, ?_, Nat.succ_le_succ hk.le, hk.text, hk.words, hk.done⟩
        rw [sortLoop_of_popMin hi hp hpw, hl]

theorem sortLoop_of_initializeHeap {n : ℕ} {fs' : FileSorter} {fin' : IfStream}
    (hi : fs.mustInitialize) (he : fs.initializeHeap fin = (fs', fin'))
    (hi' : fs'.mustInitialize = false) : sortLoop (n + 1) fs fin = sortLoop (n + 1) fs' fin' := by
  have hg : fs.getMin fin = fs'.getMin fin' := by simp [getMin, hi, he, hi']
  simp only [sortLoop, hg]

theorem flatten_sortRuns_perm (n : ℕ) : (sortRuns (ps.chunks n)).flatten.Perm ps := by
  have : (sortRuns (ps.chunks n)).flatten.Perm (ps.chunks n).flatten := sortRuns_flatten_perm
  rwa [List.chunks_flatten] at this

theorem sort_spec (hf : ∀ p ∈ ps, Fits p) :
    let fs := FileSorter.new (pairsText ps)
    let rs := sortRuns (ps.chunks fs.maxPairs)
    ∃ fs' k, fs.sort = some fs' ∧ Stops ps (.start rs) (fs.filesize + 1) k fs' := by
  intro fs rs
  have hperm : rs.flatten.Perm ps := flatten_sortRuns_perm _
  have ⟨starts, ends, hpos, hsplit⟩ := partlySort_eq hf
  have h : HasRuns rs { fs with
      partlySortedFile  := pairsText rs.flatten
      filePositions     := starts
      nextFilePositions := ends } :=
    { content   := rfl
      filesize  := (length_pairsText_perm hperm).symm
      fits      := fun p hm => hf p (hperm.mem_iff.mp hm)
      positions := hpos.sortRuns }
  have hini := fun hfin => @initializeHeap_spec _ _ (.opened (pairsText rs.flatten)) h hfin rfl
  have ⟨heap, fin, hini, hs, hm⟩ := hini ⟨rfl, rfl⟩
  have h' : HasRuns rs { fs with
      partlySortedFile  := pairsText rs.flatten
      filePositions     := starts
      nextFilePositions := ends
      heap              := heap
      mustInitialize    := false } :=
    { h with }
  have hx : Merge.Invariant rs.flatten (.start rs) := .start sortRuns_sorted
  have hn : ps.length < fs.filesize + 1 := Nat.lt_succ_of_le length_le_length_pairsText
  obtain ⟨fs', k, hl, hk⟩ := sortLoop_spec h' { hs with } rfl hm
    { hx with perm := hx.perm.trans hperm } (by simp [Merge.start_out])
    (by rw [Merge.start_out]; rfl) (Nat.lt_add_right _ hn)
  refine ⟨fs', k, ?_, hk⟩
  rw [sort, hsplit]
  exact (sortLoop_of_initializeHeap rfl hini rfl).trans hl

theorem sort_eq (hp : ∀ p ∈ ps, (ofLex p).1 < 2 ^ 64 - 1 ∧ (ofLex p).2 < 2 ^ 64) :
    let fs := FileSorter.new (pairsText ps)
    let rs := sortRuns (ps.chunks fs.maxPairs)
    ∃ fs', fs.sort = some fs' ∧
      fs'.sortedFile = pairsText (Merge.pop^[fs.filesize + 1] (.start rs)).out := by
  intro fs rs
  have hf : ∀ p ∈ ps, Fits p := fun p hm => ⟨(hp p hm).1.trans (by simp), (hp p hm).2⟩
  obtain ⟨fs', k, hs, hk⟩ := sort_spec hf
  refine ⟨fs', hs, ?_⟩
  have he := (hk.done fun p hm => (hp p hm).1.ne).1
  rw [hk.text, ← Nat.sub_add_cancel hk.le, Function.iterate_add_apply,
    Function.iterate_fixed (Merge.pop_of_nil he)]

theorem maxPairs_pos (file : List UInt8) : 0 < (FileSorter.new file).maxPairs :=
  Nat.succ_pos _

end FileSorter

def Sorts (ps : List WordDoc) : Prop :=
  ∃ fs qs, (FileSorter.new (pairsText ps)).sort = some fs ∧ fs.sortedFile = pairsText qs ∧
    qs.Pairwise (· ≤ ·) ∧ qs.Perm ps

theorem sorts_iff_disjoint (hp : ∀ p ∈ ps, (ofLex p).1 < 2 ^ 64 - 1 ∧ (ofLex p).2 < 2 ^ 64) :
    Sorts ps ↔ (ps.chunks (FileSorter.new (pairsText ps)).maxPairs).Pairwise List.Disjoint := by
  have ⟨fs, hs, ho⟩ := FileSorter.sort_eq hp
  let cs := ps.chunks (FileSorter.new (pairsText ps)).maxPairs
  have hc : (sortRuns cs).flatten.Perm ps := FileSorter.flatten_sortRuns_perm _
  have hn : (sortRuns cs).flatten.length ≤ (FileSorter.new (pairsText ps)).filesize + 1 := by
    rw [hc.length_eq]
    exact Nat.le_succ_of_le length_le_length_pairsText
  have hsorted : ∀ r ∈ sortRuns cs, r.Pairwise (· ≤ ·) := sortRuns_sorted
  have hm := (Merge.out_lost_perm hsorted hn).trans hc
  rw [← sortRuns_disjoint_iff, ← Merge.lost_eq_nil_iff hsorted hn]
  constructor
  case mp  =>
    intro ⟨fs', qs, hs', ht, _, hq⟩
    obtain rfl : fs' = fs := Option.some.inj (hs'.symm.trans hs)
    have h₁ := length_pairsText_perm hm
    rw [pairsText_append, List.length_append, ← ho, ht, length_pairsText_perm hq] at h₁
    exact eq_nil_of_length_pairsText (by omega)
  case mpr =>
    intro hl
    rw [hl, List.append_nil] at hm
    exact ⟨fs, _, hs, ho, ((Merge.Invariant.start hsorted).pops _).ascending, hm⟩

-- The merge loses a pair exactly if an equal one is in another of the chunks that are sorted.
theorem sorts_iff (hp : ∀ p ∈ ps, (ofLex p).1 < 2 ^ 64 - 1 ∧ (ofLex p).2 < 2 ^ 64) : Sorts ps ↔
    let maxPairs := (FileSorter.new (pairsText ps)).maxPairs
    ∀ i j p, ps[i]? = some p → ps[j]? = some p → i / maxPairs = j / maxPairs := by
  rw [sorts_iff_disjoint hp, List.disjoint_chunks_iff (FileSorter.maxPairs_pos _)]

theorem sorts_iff_of_three : Sorts [toLex (2, 7), toLex (1, 9), toLex (2, 7)] ↔
    ∀ i j p, [toLex (2, 7), toLex (1, 9), toLex (2, 7)][i]? = some p →
      [toLex (2, 7), toLex (1, 9), toLex (2, 7)][j]? = some p → i / 12 = j / 12 :=
  sorts_iff (by decide)

theorem not_sorts_of_repeated : ¬ ∀ ps : List WordDoc,
    (∀ p ∈ ps, (ofLex p).1 < 2 ^ 64 - 1 ∧ (ofLex p).2 < 2 ^ 64) → Sorts ps := by
  intro h
  have hb : ∀ p ∈ List.replicate 13 (toLex (1, 1) : WordDoc),
      (ofLex p).1 < 2 ^ 64 - 1 ∧ (ofLex p).2 < 2 ^ 64 := by decide
  have hd := (sorts_iff_disjoint hb).mp (h _ hb)
  have hm : (FileSorter.new (pairsText (.replicate 13 (toLex (1, 1))))).maxPairs = 12 := by decide
  have hc : (List.replicate 13 (toLex (1, 1) : WordDoc)).chunks 12 =
      [.replicate 12 (toLex (1, 1)), [toLex (1, 1)]] := by decide
  rw [hm, hc, List.pairwise_pair] at hd
  exact hd (List.mem_replicate.mpr ⟨by simp, rfl⟩) (List.mem_singleton_self _)

end Index
