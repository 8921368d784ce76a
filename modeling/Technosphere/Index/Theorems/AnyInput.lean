import Technosphere.Index.Theorems.Inverse
import Technosphere.Index.Theorems.Truncation

namespace IfStream

theorem readValue_lt (s : IfStream) (w old : ℕ) : (s.readValue w old).1 < 256 ^ w := by
  have hl : (s.read w).1.length ≤ w := by
    simp only [read]
    split_ifs <;> simp
  have hv := LittleEndian.value_lt
    ((s.read w).1 ++ (LittleEndian.bytes w old).drop (s.read w).1.length)
  rwa [List.length_append, List.length_drop, LittleEndian.length_bytes,
    Nat.add_sub_cancel' hl] at hv

theorem length_rest_readValue (s : IfStream) (w old : ℕ) :
    (s.readValue w old).2.rest.length ≤ s.rest.length ∧
      ((s.readValue w old).2.fail = false →
        (s.readValue w old).2.rest.length + w = s.rest.length) := by
  by_cases hg : s.good
  case neg => simp [readValue, read, hg, rest]
  case pos =>
    have hr : (s.readValue w old).2.rest = s.rest.drop (s.rest.take w).length := by
      simp only [readValue, read, hg, if_true]
      exact rest_advance
    rw [hr, List.length_drop]
    refine ⟨Nat.sub_le .., fun hf => ?_⟩
    simp only [readValue, read, hg, if_true, decide_eq_false_iff_not, not_lt] at hf
    simp only [List.length_take] at hf ⊢
    omega

end IfStream

namespace Index

variable {ps qs : List WordDoc} {sorted : IfStream} {cur : ℕ × ℕ}

namespace FileReader

variable {fr fr' : FileReader} {n : ℕ}

structure Adds (ps : List WordDoc) (fr fr' : FileReader) : Prop where
  fits     : ∀ p ∈ ps, Fits p
  fout     : fr'.fout = fr.fout ++ pairsText ps
  wordDict : fr'.wordDict = (ps.map fun p => (ofLex p).1).foldl countWord fr.wordDict

theorem Adds.nil (hf : fr'.fout = fr.fout) (hd : fr'.wordDict = fr.wordDict) : Adds [] fr fr' where
  fits     := by simp
  fout     := by simp [hf]
  wordDict := hd

theorem Adds.trans {fr'' : FileReader} (h₁ : Adds ps fr fr') (h₂ : Adds qs fr' fr'') :
    Adds (ps ++ qs) fr fr'' where
  fits     := List.forall_mem_append.mpr ⟨h₁.fits, h₂.fits⟩
  fout     := by simp [h₂.fout, h₁.fout]
  wordDict := by simp [h₂.wordDict, h₁.wordDict]

theorem readWord_adds (hd : fr.curDocid < 2 ^ 64) :
    Adds [toLex ((fr.fin.readValue 8 fr.curWord).1, fr.curDocid)] fr fr.readWord where
  fits     := by
    have hw := IfStream.readValue_lt fr.fin 8 fr.curWord
    exact List.forall_mem_singleton.mpr ⟨hw.trans_eq (by norm_num), hd⟩
  fout     := by simp [readWord]
  wordDict := by simp [readWord]

theorem readWords_adds (hd : fr.curDocid < 2 ^ 64) (k : ℕ) :
    ∃ ps, Adds ps fr (readWord^[k] fr) ∧
      (readWord^[k] fr).fin.rest.length ≤ fr.fin.rest.length := by
  induction k generalizing fr with
  | zero      => exact ⟨[], .nil rfl rfl, le_rfl⟩
  | succ k ih =>
    obtain ⟨ps, h, hl⟩ := @ih fr.readWord hd
    have hl' := (IfStream.length_rest_readValue fr.fin 8 fr.curWord).1
    rw [Function.iterate_succ_apply]
    exact ⟨_, (readWord_adds hd).trans h, hl.trans hl'⟩

theorem readDocs_adds (hn : fr.fin.rest.length < n) :
    ∃ fr' ps, readDocs n fr = some fr' ∧ Adds ps fr fr' := by
  induction n generalizing fr with
  | zero      => omega
  | succ n ih =>
    simp only [readDocs]
    split_ifs with hf
    case pos => exact ⟨_, [], rfl, .nil rfl rfl⟩
    case neg =>
      have hl₁ := (IfStream.length_rest_readValue fr.fin 8 fr.curDocid).2 (by simpa using hf)
      have hl₂ :=
        (IfStream.length_rest_readValue (fr.fin.readValue 8 fr.curDocid).2 4 fr.cntWords).1
      obtain ⟨ps, h, hl⟩ := @readWords_adds
        { fr with
          fin      := ((fr.fin.readValue 8 fr.curDocid).2.readValue 4 fr.cntWords).2
          curDocid := (fr.fin.readValue 8 fr.curDocid).1
          cntWords := ((fr.fin.readValue 8 fr.curDocid).2.readValue 4 fr.cntWords).1 }
        ((IfStream.readValue_lt ..).trans_eq (by norm_num))
        ((fr.fin.readValue 8 fr.curDocid).2.readValue 4 fr.cntWords).1
      obtain ⟨fr', qs, hr, h'⟩ := ih (hl.trans_lt (by simp only; omega))
      exact ⟨fr', ps ++ qs, hr, Adds.trans ⟨h.fits, h.fout, h.wordDict⟩ h'⟩

theorem curDocid_readWords (k : ℕ) : (readWord^[k] fr).curDocid = fr.curDocid := by
  induction k generalizing fr with
  | zero      => rfl
  | succ k ih => exact ih

-- Behind the last complete record there may be some more words, and then words are invented.
theorem readDocs_cut {tail : List UInt8} (hc : Cut tail) (h : fr.fin.Holds tail)
    (hn : tail.length < n) : ∃ fr' ps, readDocs n fr = some fr' ∧
      Adds (completePairs tail ++ ps) fr fr' := by
  rw [← h.rest] at hn
  cases hc with
  | header hl                                        =>
    rw [completePairs_header hl]
    exact readDocs_adds hn
  | @body docid cnt words short hd hc hw hlt hs =>
    rw [completePairs_body hd hc hw rfl (.inr ⟨hlt, hs⟩), completePairs_header (by simp; omega),
      List.append_nil]
    obtain ⟨n, rfl⟩ := Nat.exists_eq_succ_of_ne_zero (Nat.ne_zero_of_lt hn)
    obtain ⟨fin₁, he₁, hf₁⟩ := h.readValue (hd.trans_eq (by norm_num)) fr.curDocid
    obtain ⟨fin₂, he₂, hf₂⟩ := hf₁.readValue (hc.trans_eq (by norm_num)) fr.cntWords
    let fr₂ : FileReader := { fr with fin := fin₂, curDocid := docid, cntWords := cnt }
    obtain ⟨fr₃, hr₃, hf₃, ho₃, hd₃, _⟩ := @readWords_spec _ _ fr₂ hf₂ hw
    have h₃ : Adds (words.map fun word => toLex (word, docid)) fr fr₃ := by
      refine ⟨?_, ho₃, by simpa [Function.comp_def] using hd₃⟩
      exact List.forall_mem_map.mpr fun w hm => ⟨hw w hm, hd⟩
    have hd₃ : fr₃.curDocid < 2 ^ 64 := by rwa [← hr₃, curDocid_readWords]
    obtain ⟨ps, h₄, hl₄⟩ := readWords_adds hd₃ (cnt - words.length)
    have hl : (readWord^[cnt - words.length] fr₃).fin.rest.length < n := by
      rw [h.rest] at hn
      rw [hf₃.rest] at hl₄
      simp at hn
      omega
    obtain ⟨fr', qs, hr, h'⟩ := readDocs_adds hl
    refine ⟨fr', ps ++ qs, ?_, h₃.trans (h₄.trans h')⟩
    have hi : readWord^[cnt] fr₂ = readWord^[cnt - words.length] fr₃ := by
      rw [← hr₃, ← Function.iterate_add_apply, Nat.sub_add_cancel hlt.le]
    simp only [readDocs, he₁, IfStream.fail_of_good hf₁.good, he₂]
    exact (congrArg (readDocs n) hi).trans hr

theorem read_adds (file : List UInt8) : ∃ fr ps, read file = some fr ∧
    Adds (completePairs file ++ ps) (init file) fr := by
  obtain ⟨rs, tail, rfl, hc⟩ := exists_records file
  obtain ⟨fr, k, hr, hf, ho, hd, _⟩ := read_records rs tail
  have h : Adds (pairs rs) (init (fileBytes rs ++ tail)) fr := ⟨fits_of_mem_pairs, ho, hd⟩
  obtain ⟨fr', ps, hr', h'⟩ := readDocs_cut hc hf (Nat.lt_succ_of_le (Nat.le_add_left _ k))
  refine ⟨fr', ps, hr.trans hr', ?_⟩
  rw [completePairs_records, List.append_assoc]
  exact h.trans h'

end FileReader

-- What a loop that reads pairs gets for the document: those of the pairs that are left, and then
-- the last one again and again.
def padded (last : ℕ) (ds : List ℕ) (n : ℕ) : List ℕ :=
  ds.take n ++ List.replicate (n - ds.length) (ds.getLastD last)

section Padded

variable {last d m n : ℕ} {ds : List ℕ}

theorem padded_zero : padded last ds 0 = [] := by
  simp [padded]

theorem padded_nil_succ : padded last [] (n + 1) = last :: padded last [] n := by
  simp [padded, List.replicate_succ]

theorem padded_cons_succ : padded last (d :: ds) (n + 1) = d :: padded d ds n := by
  simp only [padded, List.take_succ_cons, List.length_cons, List.getLastD_cons,
    Nat.add_sub_add_right, List.cons_append]

theorem padded_add : padded last ds (m + n) =
    padded last ds m ++ padded ((ds.take m).getLastD last) (ds.drop m) n := by
  induction m generalizing last ds with
  | zero      => simp [padded_zero]
  | succ m ih =>
    rw [Nat.add_right_comm]
    cases ds with
    | nil       =>
      simp only [padded_nil_succ, List.take_nil, List.drop_nil, List.cons_append] at ih ⊢
      rw [@ih last []]
      simp
    | cons d ds =>
      simp only [padded_cons_succ, List.take_succ_cons, List.drop_succ_cons, List.getLastD_cons,
        List.cons_append]
      rw [@ih d ds]

theorem mem_padded (h : d ∈ padded last ds n) : d ∈ ds ∨ d = last := by
  rcases List.mem_append.mp h with h | h
  · exact .inl (List.mem_of_mem_take h)
  · have hm := @List.getLastD_mem_cons _ ds last
    rw [← List.eq_of_mem_replicate h, List.mem_cons] at hm
    exact hm.symm

end Padded

-- The stream of the sorted file, which has these pairs left, perhaps after it has failed.
inductive Supplies (sorted : IfStream) : List WordDoc → Prop
  | reads {left : List WordDoc} (h : Reads sorted left) : Supplies sorted left
  | ended (h : sorted.good = false) : Supplies sorted []

namespace Supplies

theorem extractPair_cons {p : WordDoc} (h : Supplies sorted (p :: qs)) (hp : Fits p)
    (cur : ℕ × ℕ) : ∃ sorted', sorted.extractPair cur = (ofLex p, sorted') ∧
      Supplies sorted' qs := by
  cases h with
  | reads h =>
    obtain ⟨he, hr⟩ := h.extractPair_cons hp cur
    exact ⟨_, he, .reads hr⟩

theorem extractPair_nil (h : Supplies sorted []) (cur : ℕ × ℕ) :
    ∃ sorted', sorted.extractPair cur = (cur, sorted') ∧ Supplies sorted' [] := by
  have hg (s : IfStream) : IfStream.good { s with fail := true } = false := by
    simp [IfStream.good]
  cases h with
  | ended h =>
    refine ⟨_, ?_, .ended (hg { sorted with fail := true })⟩
    simp [IfStream.extractPair, IfStream.extract_of_not_good h, IfStream.extract_of_not_good (hg _)]
  | reads h =>
    obtain ⟨spaces, hr, hs⟩ := h.exists_spaces
    have hr : ∀ b ∈ sorted.rest, IfStream.isSpace b := by simpa [hr] using hs
    refine ⟨_, ?_, .ended (hg { sorted with pos := sorted.content.length, eof := true })⟩
    have hg' : IfStream.good
        { sorted with pos := sorted.content.length, eof := true, fail := true } = false := rfl
    simp [IfStream.extractPair, IfStream.extract_of_spaces h.good hr,
      IfStream.extract_of_not_good hg']

theorem writeDocs_eq (h : Supplies sorted qs) (hf : ∀ p ∈ qs, Fits p) (n : ℕ) (cur : ℕ × ℕ) :
    ∃ sorted' cur', writeDocs n sorted cur = ((padded cur.2 (qs.map fun p => (ofLex p).2) n).flatMap
        (LittleEndian.bytes 8), sorted', cur') ∧ Supplies sorted' (qs.drop n) ∧
      cur'.2 = ((qs.map fun p => (ofLex p).2).take n).getLastD cur.2 := by
  induction n generalizing sorted qs cur with
  | zero      => exact ⟨sorted, cur, by simp [writeDocs, padded_zero], h, rfl⟩
  | succ n ih =>
    cases qs with
    | nil       =>
      obtain ⟨sorted₁, he, h₁⟩ := h.extractPair_nil cur
      obtain ⟨sorted', cur', hw, h', hc⟩ := ih h₁ (by simp) cur
      refine ⟨sorted', cur', ?_, by simpa using h', by simpa using hc⟩
      simp only [writeDocs, he, hw, List.map_nil, padded_nil_succ, List.flatMap_cons]
    | cons p qs =>
      obtain ⟨hp, hf⟩ := List.forall_mem_cons.mp hf
      obtain ⟨sorted₁, he, h₁⟩ := h.extractPair_cons hp cur
      obtain ⟨sorted', cur', hw, h', hc⟩ := ih h₁ hf (ofLex p)
      refine ⟨sorted', cur', ?_, h', ?_⟩
      · simp only [writeDocs, he, hw, List.map_cons, padded_cons_succ, List.flatMap_cons]
      · rw [hc, List.map_cons, List.take_succ_cons, List.getLastD_cons]

theorem writeLists_eq {es : List (ℕ × ℕ)} (h : Supplies sorted qs) (hf : ∀ p ∈ qs, Fits p)
    (hl : ∀ e ∈ es, e.2 < 2 ^ 32) (cur : ℕ × ℕ) :
    ∃ index, index.map (fun e => (e.1, e.2.length)) = es ∧
      index.flatMap (·.2) = padded cur.2 (qs.map fun p => (ofLex p).2) (es.map (·.2)).sum ∧
      writeLists es sorted cur = listsBytes index := by
  induction es generalizing sorted qs cur with
  | nil          => exact ⟨[], by simp [writeLists, listsBytes, padded_zero]⟩
  | cons e es ih =>
    obtain ⟨w, cnt⟩ := e
    obtain ⟨hc, hl⟩ := List.forall_mem_cons.mp hl
    obtain ⟨sorted₁, cur₁, hw, h₁, hcur⟩ := h.writeDocs_eq hf cnt cur
    obtain ⟨index, hi, hd, hb⟩ := ih h₁ (fun p hp => hf p (List.mem_of_mem_drop hp)) hl cur₁
    have hlen : (padded cur.2 (qs.map fun p => (ofLex p).2) cnt).length = cnt := by
      simp [padded]
      omega
    refine ⟨(w, padded cur.2 (qs.map fun p => (ofLex p).2) cnt) :: index, ?_, ?_, ?_⟩
    · simp [hi, hlen]
    · rw [List.flatMap_cons, hd, hcur, List.map_cons, List.sum_cons, padded_add, List.map_drop]
    · simp only [writeLists, hw, hb, Nat.mod_eq_of_lt hc]
      simp [listsBytes, listBytes, hlen]

end Supplies

theorem FileReader.Counts.sum_eq {wordDict : SortedMap ℕ ℕ}
    (h : Counts wordDict (ps.map fun p => (ofLex p).1)) :
    (wordDict.entries.map (·.2)).sum = ps.length := by
  have hp : (ps.mergeSort (· ≤ ·)).Perm ps := List.mergeSort_perm ..
  have hs : (ps.mergeSort (· ≤ ·)).Pairwise (· ≤ ·) :=
    sortRuns_sorted _ (List.mem_map_of_mem (List.mem_singleton_self ps))
  have hw : ∀ p ∈ ps.mergeSort (· ≤ ·), (ofLex p).1 ∈ wordDict.keys := fun p hm =>
    (h.mem_keys_iff _).mpr ⟨(ofLex p).2, hp.mem_iff.mp hm⟩
  have hf := congrArg List.length (flatMap_groups wordDict.keys_sorted hs hw)
  rw [List.length_flatMap, hp.length_eq] at hf
  rw [h.entries_eq hp, List.map_map]
  exact hf

-- The index has the words of the pairs `ps`, each with as many documents as it has pairs. One after
-- the other, these are the documents of the pairs `qs`, the last of which, or `last` if there is
-- none, is repeated when there are not enough.
structure Spreads (last : ℕ) (ps qs : List WordDoc) (index : List (ℕ × List ℕ)) : Prop where
  ascending : (index.map (·.1)).Pairwise (· < ·)
  words     : ∀ w, w ∈ index.map (·.1) ↔ ∃ d, toLex (w, d) ∈ ps
  counts    : ∀ e ∈ index, e.2.length = (ps.map fun p => (ofLex p).1).count e.1
  docs      : index.flatMap (·.2) = qs.map (fun p => (ofLex p).2) ++ List.replicate
                (ps.length - qs.length) ((qs.map fun p => (ofLex p).2).getLastD last)

theorem eq_of_lengths {index₁ index₂ : List (ℕ × List ℕ)}
    (hl : index₁.map (fun e => (e.1, e.2.length)) = index₂.map fun e => (e.1, e.2.length))
    (hd : index₁.flatMap (·.2) = index₂.flatMap (·.2)) : index₁ = index₂ := by
  induction index₁ generalizing index₂ with
  | nil              =>
    cases index₂ with
    | nil    => rfl
    | cons _ => simp at hl
  | cons e index₁ ih =>
    cases index₂ with
    | nil            => simp at hl
    | cons e' index₂ =>
      simp only [List.map_cons, List.cons.injEq, Prod.mk.injEq] at hl
      obtain ⟨h₁, h₂⟩ := List.append_inj hd hl.1.2
      rw [ih hl.2 h₂, Prod.ext hl.1.1 h₁]

theorem Spreads.inverts {index : List (ℕ × List ℕ)} {last : ℕ} (h : Spreads last ps qs index)
    (hq : qs.Pairwise (· ≤ ·)) (hp : qs.Perm ps) (hn : ps.Nodup) : Inverts ps index := by
  have hlt : qs.Pairwise (· < ·) := hq.imp₂ (fun _ _ => lt_of_le_of_ne) (hp.nodup_iff.mpr hn)
  have hmem : ∀ p ∈ qs, (ofLex p).1 ∈ index.map (·.1) := fun p hm =>
    (h.words _).mpr ⟨(ofLex p).2, hp.mem_iff.mp hm⟩
  have he : index = inverse (index.map (·.1)) qs := by
    apply eq_of_lengths
    case hl =>
      rw [inverse, groups, List.map_map, List.map_map, List.map_map]
      apply List.map_congr_left
      intro e he
      simp [h.counts e he, ← length_filter_word hp]
    case hd =>
      rw [h.docs, hp.length_eq, Nat.sub_self, List.replicate_zero, List.append_nil]
      nth_rewrite 1 [← flatMap_groups h.ascending hq hmem]
      rw [inverse, List.flatMap_map, List.map_flatMap]
  rw [he]
  exact inverts_inverse h.ascending h.words hlt hp

theorem sort_any (hf : ∀ p ∈ ps, Fits p) : ∃ fs qs,
    (FileSorter.new (pairsText ps)).sort = some fs ∧ fs.sortedFile = pairsText qs ∧
      qs.Pairwise (· ≤ ·) ∧ qs.Subperm ps ∧
      (ps.Nodup → (∀ p ∈ ps, (ofLex p).1 < 2 ^ 64 - 1) → qs.Perm ps) := by
  obtain ⟨fs, k, hs, hk⟩ := FileSorter.sort_spec hf
  let rs := sortRuns (ps.chunks (FileSorter.new (pairsText ps)).maxPairs)
  have hi := (@Merge.Invariant.start _ _ rs sortRuns_sorted).pops k
  have hperm := hi.perm.trans (FileSorter.flatten_sortRuns_perm _)
  have hsub : (Merge.pop^[k] (.start rs)).out.Subperm ps := by
    rw [List.append_assoc] at hperm
    exact (List.sublist_append_left ..).subperm.trans hperm.subperm
  refine ⟨fs, _, hs, hk.text, hi.ascending, hsub, fun hn hw => ?_⟩
  obtain ⟨fs', qs, hs', ht, _, hq⟩ := sorts_of_nodup (fun p hp => ⟨hw p hp, (hf p hp).2⟩) hn
  rw [Option.some.inj (hs'.symm.trans hs)] at ht
  obtain ⟨more, hm⟩ := exists_perm_of_subperm hsub
  have htext : fs.sortedFile = pairsText (Merge.pop^[k] (.start rs)).out := hk.text
  have hl := length_pairsText_perm (hq.trans hm)
  rw [← ht, htext, pairsText_append, List.length_append] at hl
  have hnil : more = [] := eq_nil_of_length_pairsText (by omega)
  simpa [hnil] using hm.symm

structure Outcome (input : List UInt8) (cur : ℕ × ℕ) (ps qs : List WordDoc)
    (output : List UInt8) : Prop where
  read   : ∃ fr invented, FileReader.read input = some fr ∧ fr.fout = pairsText ps ∧
            ps = completePairs input ++ invented
  sort   : ∃ fs, (FileSorter.new (pairsText ps)).sort = some fs ∧ fs.sortedFile = pairsText qs
  merged : qs.Pairwise (· ≤ ·) ∧ qs.Subperm ps
  write  : makeReverseIndex input cur = some output
  index  : (∀ w, (ps.map fun p => (ofLex p).1).count w < 2 ^ 32) → output.length < 2 ^ 63 →
            ∃ index, Decodes output index ∧ Spreads cur.2 ps qs index ∧
              (ps.Nodup → (∀ p ∈ ps, (ofLex p).1 < 2 ^ 64 - 1) → Inverts ps index)

theorem FileReader.Counts.of_mem {wordDict : SortedMap ℕ ℕ} {words : List ℕ} {e : ℕ × ℕ}
    (h : Counts wordDict words) (he : e ∈ wordDict.entries) : e.2 = words.count e.1 := by
  have hf := h e.1
  rw [SortedMap.mem_entries.mp he] at hf
  split_ifs at hf
  exact Option.some.inj hf

theorem spreads_of_entries {wordDict : SortedMap ℕ ℕ} {index : List (ℕ × List ℕ)} {last : ℕ}
    (h : FileReader.Counts wordDict (ps.map fun p => (ofLex p).1)) (hq : qs.Subperm ps)
    (hi : index.map (fun e => (e.1, e.2.length)) = wordDict.entries)
    (hd : index.flatMap (·.2) = padded last (qs.map fun p => (ofLex p).2) ps.length) :
    Spreads last ps qs index := by
  have hk : index.map (·.1) = wordDict.keys := by
    rw [SortedMap.keys, ← hi, List.map_map]
    rfl
  constructor
  case ascending => exact hk ▸ wordDict.keys_sorted
  case words     => exact hk ▸ h.mem_keys_iff
  case counts    =>
    intro e he
    have hm : (e.1, e.2.length) ∈ wordDict.entries := hi ▸ List.mem_map.mpr ⟨e, he, rfl⟩
    exact h.of_mem hm
  case docs      =>
    have ht : (qs.map fun p => (ofLex p).2).take ps.length = qs.map fun p => (ofLex p).2 :=
      List.take_of_length_le (by simpa using hq.length_le)
    rw [hd, padded, ht, List.length_map]

theorem Spreads.listsFit {index : List (ℕ × List ℕ)} {last n : ℕ} (h : Spreads last ps qs index)
    (hc : ∀ w, (ps.map fun p => (ofLex p).1).count w < 2 ^ 32) (hf : ∀ p ∈ qs, Fits p)
    (hlast : last < 2 ^ 64)
    (hd : index.flatMap (·.2) = padded last (qs.map fun p => (ofLex p).2) n) :
    ListsFit index := by
  intro e he
  refine ⟨h.counts e he ▸ hc e.1, fun d hm => ?_⟩
  have hm := hd ▸ List.mem_flatMap_of_mem he hm
  rcases mem_padded hm with hm | rfl
  · obtain ⟨p, hp, rfl⟩ := List.mem_map.mp hm
    exact (hf p hp).2
  · exact hlast

theorem makeReverseIndex_any (input : List UInt8) (cur : ℕ × ℕ) (hcur : cur.2 < 2 ^ 64) :
    ∃ ps qs output, Outcome input cur ps qs output := by
  obtain ⟨fr, invented, hr, h⟩ := FileReader.read_adds input
  generalize hps : completePairs input ++ invented = ps at h
  have ho : fr.fout = pairsText ps := by simpa [FileReader.init] using h.fout
  obtain ⟨fs, qs, hs, ht, hq, hsub, hall⟩ := sort_any h.fits
  have hw : makeReverseIndex input cur = some (writeHeader fr.wordDict.entries.length
      fr.wordDict.entries 0 0 0 ++ LittleEndian.bytes 8 0 ++ LittleEndian.bytes 8 0 ++
      writeLists fr.wordDict.entries (.opened fs.sortedFile) cur) := by
    simp [makeReverseIndex, hr, ho, hs]
  refine ⟨ps, qs, _, ⟨fr, invented, hr, ho, hps.symm⟩, ⟨fs, hs, ht⟩, ⟨hq, hsub⟩, hw, ?_⟩
  intro hc hl
  have hcounts : FileReader.Counts fr.wordDict (ps.map fun p => (ofLex p).1) := by
    rw [h.wordDict]
    exact FileReader.counts_foldl fun w => (hc w).trans (by norm_num)
  have hfits : ∀ p ∈ qs, Fits p := fun p hp => h.fits p (hsub.subset hp)
  obtain ⟨index, hi, hd, hb⟩ := Supplies.writeLists_eq
    (.reads (.opened (congrArg IfStream.opened ht))) hfits
    (fun e he => (hcounts.of_mem he).trans_lt (hc e.1)) cur
  rw [hcounts.sum_eq] at hd
  have hspreads := spreads_of_entries hcounts hsub hi hd
  have hlen : (indexBytes index).length < 2 ^ 64 := by
    rw [hb, ← hi] at hl
    simp only [List.length_append, length_writeHeader, LittleEndian.length_bytes,
      List.length_map] at hl
    rw [length_indexBytes]
    omega
  have hwords : ∀ e ∈ index, e.1 < 2 ^ 64 := by
    intro e he
    obtain ⟨d, hp⟩ := (hspreads.words e.1).mp (List.mem_map_of_mem he)
    exact (h.fits _ hp).1
  refine ⟨index, ?_, hspreads, fun hn hmax => ?_⟩
  · have hdec := decodes_indexBytes (hspreads.listsFit hc hfits hcur hd) hwords hlen
    rw [length_indexBytes] at hlen
    rw [hb, ← hi, List.length_map, writeHeader_eq hlen]
    exact hdec
  · exact hspreads.inverts hq (hall hn hmax) hn

-- The only word of the file is the one that the sorter takes for the end.
theorem makeReverseIndex_any_of_one : ∃ ps qs output,
    Outcome (LittleEndian.bytes 8 7 ++ LittleEndian.bytes 4 1 ++ LittleEndian.bytes 8 (2 ^ 64 - 1))
      (3, 9) ps qs output :=
  makeReverseIndex_any _ (3, 9) (by decide)

end Index
