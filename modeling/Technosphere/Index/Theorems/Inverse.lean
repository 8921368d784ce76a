import Technosphere.Index.Theorems.Decoder
import Technosphere.Index.Theorems.Reader
import Technosphere.Index.Theorems.Sort
import Technosphere.Lib.Groups

namespace Index

variable {ps qs : List WordDoc} {words : List ℕ} {wordDict : SortedMap ℕ ℕ} {rs : List Record}

-- The index is the inverse of the relation between documents and words that these pairs are.
structure Inverts (ps : List WordDoc) (index : List (ℕ × List ℕ)) : Prop where
  ascending : (index.map (·.1)).Pairwise (· < ·)
  words     : ∀ w, w ∈ index.map (·.1) ↔ ∃ d, toLex (w, d) ∈ ps
  docs      : ∀ e ∈ index, e.2.Pairwise (· < ·) ∧ ∀ d, d ∈ e.2 ↔ toLex (e.1, d) ∈ ps

def docsOf (ps : List WordDoc) (w : ℕ) : List ℕ :=
  (ps.filter fun p => (ofLex p).1 = w).map fun p => (ofLex p).2

def groups (words : List ℕ) (ps : List WordDoc) : List (ℕ × List WordDoc) :=
  words.map fun w => (w, ps.filter fun p => (ofLex p).1 = w)

def inverse (words : List ℕ) (ps : List WordDoc) : List (ℕ × List ℕ) :=
  (groups words ps).map fun e => (e.1, e.2.map fun p => (ofLex p).2)

theorem map_fst_inverse : (inverse words ps).map (·.1) = words := by
  simp [inverse, groups, Function.comp_def]

theorem mem_docsOf {w d : ℕ} : d ∈ docsOf ps w ↔ toLex (w, d) ∈ ps := by
  simp only [docsOf, List.mem_map, List.mem_filter, decide_eq_true_eq]
  constructor
  case mp  =>
    intro ⟨p, ⟨hp, hw⟩, hd⟩
    rwa [← hw, ← hd]
  case mpr => exact fun h => ⟨toLex (w, d), ⟨h, rfl⟩, rfl⟩

theorem length_filter_word {w : ℕ} (hp : qs.Perm ps) :
    (qs.filter fun p => (ofLex p).1 = w).length = (ps.map fun p => (ofLex p).1).count w := by
  rw [← (hp.map _).count_eq, List.count, List.countP_map, List.countP_eq_length_filter]
  rfl

theorem mem_inverse {e : ℕ × List ℕ} (h : e ∈ inverse words ps) :
    e.1 ∈ words ∧ e.2 = docsOf ps e.1 := by
  simp only [inverse, groups, List.map_map, List.mem_map, Function.comp_apply] at h
  obtain ⟨w, hw, rfl⟩ := h
  exact ⟨hw, rfl⟩

theorem docs_ascending (hs : qs.Pairwise (· < ·)) (w : ℕ) :
    (docsOf qs w).Pairwise (· < ·) := by
  rw [docsOf, List.pairwise_map]
  apply (hs.filter _).imp_of_mem
  intro p q hp hq hlt
  simp only [List.mem_filter, decide_eq_true_eq] at hp hq
  rcases Prod.Lex.lt_iff.mp hlt with h | h
  · exact absurd (hp.2.trans hq.2.symm) h.ne
  · exact h.2

theorem inverts_inverse (hk : words.Pairwise (· < ·))
    (hw : ∀ w, w ∈ words ↔ ∃ d, toLex (w, d) ∈ ps) (hs : qs.Pairwise (· < ·)) (hp : qs.Perm ps) :
    Inverts ps (inverse words qs) where
  ascending := map_fst_inverse.symm ▸ hk
  words     := map_fst_inverse.symm ▸ hw
  docs e he := by
    have ⟨_, hd⟩ := mem_inverse he
    rw [hd]
    exact ⟨docs_ascending hs e.1, fun d => by rw [mem_docsOf, hp.mem_iff]⟩

namespace FileReader

theorem Counts.mem_keys (h : Counts wordDict words) (w : ℕ) : w ∈ wordDict.keys ↔ w ∈ words := by
  rw [SortedMap.mem_keys, h w]
  by_cases hz : words.count w = 0
  case pos => simpa [hz] using List.count_eq_zero.mp hz
  case neg => simpa [hz] using List.count_pos_iff.mp (Nat.pos_of_ne_zero hz)

theorem Counts.mem_keys_iff (h : Counts wordDict (ps.map fun p => (ofLex p).1)) (w : ℕ) :
    w ∈ wordDict.keys ↔ ∃ d, toLex (w, d) ∈ ps := by
  rw [h.mem_keys, List.mem_map]
  constructor
  case mp  => exact fun ⟨p, hp, hw⟩ => ⟨(ofLex p).2, hw ▸ hp⟩
  case mpr => exact fun ⟨d, hd⟩ => ⟨_, hd, rfl⟩

theorem Counts.entries_eq (h : Counts wordDict (ps.map fun p => (ofLex p).1)) (hp : qs.Perm ps) :
    wordDict.entries = (groups wordDict.keys qs).map fun e => (e.1, e.2.length) := by
  rw [groups, SortedMap.keys, List.map_map, List.map_map]
  symm
  apply (List.map_congr_left _).trans (List.map_id _)
  rintro ⟨w, cnt⟩ he
  have hf := h w
  rw [SortedMap.mem_entries.mp he] at hf
  split_ifs at hf with hz
  simpa [length_filter_word hp] using (Option.some.inj hf).symm

end FileReader

theorem sorts_of_nodup (hp : ∀ p ∈ ps, (ofLex p).1 < 2 ^ 64 - 1 ∧ (ofLex p).2 < 2 ^ 64)
    (hd : ps.Nodup) : Sorts ps := by
  rw [sorts_iff_disjoint hp]
  have hfl : (ps.chunks (FileSorter.new (pairsText ps)).maxPairs).flatten = ps :=
    List.chunks_flatten
  rw [← hfl] at hd
  exact (List.nodup_flatten.mp hd).2

theorem flatMap_groups (hk : words.Pairwise (· < ·)) (hs : qs.Pairwise (· ≤ ·))
    (hw : ∀ p ∈ qs, (ofLex p).1 ∈ words) : (groups words qs).flatMap (·.2) = qs := by
  rw [groups, List.flatMap_map]
  apply List.flatMap_filter_eq hk (hs.imp _) hw
  exact fun h => (Prod.Lex.le_iff.mp h).elim le_of_lt fun h => h.1.le

theorem listsFit_inverse (hp : qs.Perm ps) (hf : ∀ p ∈ ps, Fits p)
    (hc : ∀ w, (ps.map fun p => (ofLex p).1).count w < 2 ^ 32) : ListsFit (inverse words qs) := by
  intro e he
  have ⟨_, hd⟩ := mem_inverse he
  constructor
  · rw [hd, docsOf, List.length_map, length_filter_word hp]
    exact hc e.1
  · intro d hm
    rw [hd, mem_docsOf, hp.mem_iff] at hm
    exact (hf _ hm).2

theorem makeReverseIndex_eq (hd : (pairs rs).Nodup)
    (hw : ∀ p ∈ pairs rs, (ofLex p).1 < 2 ^ 64 - 1)
    (hc : ∀ w, ((pairs rs).map fun p => (ofLex p).1).count w < 2 ^ 32) (cur : ℕ × ℕ) :
    ∃ index, Inverts (pairs rs) index ∧ ListsFit index ∧
      makeReverseIndex (fileBytes rs) cur = some
        (writeHeader index.length (index.map fun e => (e.1, e.2.length)) 0 0 0 ++
          LittleEndian.bytes 8 0 ++ LittleEndian.bytes 8 0 ++ listsBytes index) := by
  have ⟨fr, hr, ho, hcnt⟩ := FileReader.read_spec fun w => (hc w).trans (by norm_num)
  have hb : ∀ p ∈ pairs rs, (ofLex p).1 < 2 ^ 64 - 1 ∧ (ofLex p).2 < 2 ^ 64 := fun p hp =>
    ⟨hw p hp, (fits_of_mem_pairs p hp).2⟩
  have ⟨fs, qs, hsort, ht, hs, hp⟩ := sorts_of_nodup hb hd
  have hlt : qs.Pairwise (· < ·) :=
    hs.imp₂ (fun _ _ => lt_of_le_of_ne) (hp.nodup_iff.mpr hd)
  have hk := fr.wordDict.keys_sorted
  have hmem : ∀ p ∈ qs, (ofLex p).1 ∈ fr.wordDict.keys := fun p hm =>
    (hcnt.mem_keys_iff _).mpr ⟨(ofLex p).2, hp.mem_iff.mp hm⟩
  have hgroup : ∀ e ∈ groups fr.wordDict.keys qs, e.2 ⊆ qs ∧ e.2.length < 2 ^ 32 := by
    intro e he
    obtain ⟨w, _, rfl⟩ := List.mem_map.mp he
    exact ⟨List.filter_subset_self .., length_filter_word hp ▸ hc w⟩
  have hreads : Reads (.opened fs.sortedFile) ((groups fr.wordDict.keys qs).flatMap (·.2)) := by
    rw [flatMap_groups hk hs hmem, ht]
    exact .opened rfl
  have hlists : writeLists fr.wordDict.entries (.opened fs.sortedFile) cur =
      listsBytes (inverse fr.wordDict.keys qs) := by
    rw [hcnt.entries_eq hp]
    exact writeLists_eq cur hreads
      (fun e he p hm => fits_of_mem_pairs p (hp.mem_iff.mp ((hgroup e he).1 hm)))
      (fun e he => (hgroup e he).2)
  refine ⟨inverse fr.wordDict.keys qs, inverts_inverse hk hcnt.mem_keys_iff hlt hp,
    listsFit_inverse hp fits_of_mem_pairs hc, ?_⟩
  have he : fr.wordDict.entries =
      (inverse fr.wordDict.keys qs).map fun e => (e.1, e.2.length) := by
    rw [hcnt.entries_eq hp, inverse, List.map_map]
    simp [Function.comp_def]
  rw [he] at hlists
  simp [makeReverseIndex, hr, ho, hsort, he, hlists]

theorem makeReverseIndex_inverts (rs : List Record) (hd : (pairs rs).Nodup)
    (hw : ∀ p ∈ pairs rs, (ofLex p).1 < 2 ^ 64 - 1)
    (hc : ∀ w, ((pairs rs).map fun p => (ofLex p).1).count w < 2 ^ 32) (cur : ℕ × ℕ) :
    ∃ file index, makeReverseIndex (fileBytes rs) cur = some file ∧ Inverts (pairs rs) index ∧
      (file.length < 2 ^ 63 → Decodes file index) := by
  have ⟨index, hi, hf, he⟩ := makeReverseIndex_eq hd hw hc cur
  refine ⟨_, index, he, hi, fun hs => ?_⟩
  have hlen : (indexBytes index).length < 2 ^ 64 := by
    simp only [List.length_append, length_writeHeader, LittleEndian.length_bytes,
      List.length_map] at hs
    rw [length_indexBytes]
    omega
  have hwords : ∀ e ∈ index, e.1 < 2 ^ 64 := by
    intro e hm
    have ⟨d, hp⟩ := (hi.words e.1).mp (List.mem_map_of_mem hm)
    exact (fits_of_mem_pairs _ hp).1
  have := decodes_indexBytes hf hwords hlen
  rw [length_indexBytes] at hlen
  rwa [writeHeader_eq hlen]

theorem makeReverseIndex_inverts_of_two :
    let rs : List Record := [⟨7, [10, 5], by decide, by decide, by decide⟩,
      ⟨2, [5], by decide, by decide, by decide⟩]
    ∃ file index, makeReverseIndex (fileBytes rs) (3, 9) = some file ∧ Inverts (pairs rs) index ∧
      (file.length < 2 ^ 63 → Decodes file index) :=
  makeReverseIndex_inverts _ (by decide) (by decide)
    (fun _ => List.count_le_length.trans_lt (by decide)) (3, 9)

end Index
