import Technosphere.Index.Theorems.Reader

namespace Index

def completeWords : ℕ → List UInt8 → List ℕ
  | 0,     _  => []
  | n + 1, bs =>
    if bs.length < 8 then [] else LittleEndian.value (bs.take 8) :: completeWords n (bs.drop 8)

def completePairs (file : List UInt8) : List WordDoc :=
  if file.length < 12 then []
  else
    let docid := LittleEndian.value (file.take 8)
    let cnt   := LittleEndian.value ((file.drop 8).take 4)
    (completeWords cnt (file.drop 12)).map (fun word => toLex (word, docid)) ++
      completePairs (file.drop (12 + 8 * cnt))
termination_by file.length
decreasing_by simp only [List.length_drop]; omega

def WritesComplete (file : List UInt8) : Prop :=
  ∃ fr ps, FileReader.read file = some fr ∧ fr.fout = pairsText ps ∧
    ps.Subperm (completePairs file) ∧
    FileReader.Counts fr.wordDict (ps.map fun p => (ofLex p).1)

-- The count of which only a part is there: the variable keeps its upper bytes.
def cutCount (old : ℕ) (part : List UInt8) : ℕ :=
  LittleEndian.value (part ++ (LittleEndian.bytes 4 old).drop part.length)

-- Behind the last complete record the file ends inside a document id, or inside a count that
-- becomes zero by the upper bytes of the count before it.
def CleanCut (rs : List Record) (tail : List UInt8) : Prop :=
  tail.length < 8 ∨
    (tail.length < 12 ∧ cutCount (FileReader.lastCount 0 rs) (tail.drop 8) = 0)

inductive Cut : List UInt8 → Prop
  | header {tail : List UInt8} (h : tail.length < 12) : Cut tail
  | body {docid cnt : ℕ} {words : List ℕ} {short : List UInt8} (hd : docid < 2 ^ 64)
      (hc : cnt < 2 ^ 32) (hw : ∀ w ∈ words, w < 2 ^ 64) (hn : words.length < cnt)
      (hs : short.length < 8) :
      Cut (LittleEndian.bytes 8 docid ++ (LittleEndian.bytes 4 cnt ++
        (words.flatMap (LittleEndian.bytes 8) ++ short)))

variable {rs : List Record} {r : Record} {words : List ℕ} {tail more short : List UInt8}
  {docid cnt : ℕ}

theorem exists_words (n : ℕ) (bs : List UInt8) : ∃ (words : List ℕ) (more : List UInt8),
    bs = words.flatMap (LittleEndian.bytes 8) ++ more ∧ (∀ w ∈ words, w < 2 ^ 64) ∧
      (words.length = n ∨ words.length < n ∧ more.length < 8) := by
  induction n generalizing bs with
  | zero => exact ⟨[], bs, by simp⟩
  | succ n ih =>
    by_cases hb : bs.length < 8
    case pos => exact ⟨[], bs, by simp, by simp, .inr ⟨by simp, hb⟩⟩
    case neg =>
      obtain ⟨words, more, he, hw, hl⟩ := ih (bs.drop 8)
      have ht : (bs.take 8).length = 8 := by simp; omega
      have hv := LittleEndian.bytes_value (bs.take 8)
      have hlt := LittleEndian.value_lt (bs.take 8)
      rw [ht] at hv hlt
      refine ⟨LittleEndian.value (bs.take 8) :: words, more, ?_, ?_, ?_⟩
      · rw [List.flatMap_cons, hv, List.append_assoc, ← he, List.take_append_drop]
      · exact List.forall_mem_cons.mpr ⟨hlt.trans_eq (by norm_num), hw⟩
      · simpa using hl

theorem exists_records (file : List UInt8) : ∃ rs tail, file = fileBytes rs ++ tail ∧ Cut tail := by
  induction hn : file.length using Nat.strong_induction_on generalizing file with
  | _ n ih =>
    by_cases hl : file.length < 12
    case pos => exact ⟨[], file, rfl, .header hl⟩
    case neg =>
      have ht : (file.take 8).length = 8 := by simp; omega
      have hc : ((file.drop 8).take 4).length = 4 := by simp; omega
      have hdv := LittleEndian.bytes_value (file.take 8)
      have hdl := LittleEndian.value_lt (file.take 8)
      have hcv := LittleEndian.bytes_value ((file.drop 8).take 4)
      have hcl := LittleEndian.value_lt ((file.drop 8).take 4)
      rw [ht] at hdv hdl
      rw [hc] at hcv hcl
      norm_num at hdl hcl
      obtain ⟨words, more, he, hw, hl'⟩ :=
        exists_words (LittleEndian.value ((file.drop 8).take 4)) (file.drop 12)
      have hf : file = LittleEndian.bytes 8 (LittleEndian.value (file.take 8)) ++
          (LittleEndian.bytes 4 (LittleEndian.value ((file.drop 8).take 4)) ++
            (words.flatMap (LittleEndian.bytes 8) ++ more)) := by
        rw [hdv, hcv, ← he, ← List.drop_drop (i := 4) (j := 8), List.take_append_drop,
          List.take_append_drop]
      rcases hl' with hl' | ⟨hl', hm⟩
      · have hlt : more.length < file.length := by
          rw [hf]
          simp
          omega
        obtain ⟨rs, tail, hr, hcut⟩ := ih more.length (hn ▸ hlt) more rfl
        refine ⟨⟨_, words, hdl, hw, hl' ▸ hcl⟩ :: rs, tail, ?_, hcut⟩
        rw [hr] at hf
        simpa [fileBytes, Record.bytes, hl'] using hf
      · exact ⟨[], file, rfl, hf ▸ .body hdl hcl hw hl' hm⟩

theorem completeWords_eq (hw : ∀ w ∈ words, w < 2 ^ 64)
    (hn : words.length = cnt ∨ words.length < cnt ∧ more.length < 8) :
    completeWords cnt (words.flatMap (LittleEndian.bytes 8) ++ more) = words := by
  induction words generalizing cnt with
  | nil =>
    cases cnt with
    | zero => rfl
    | succ cnt => simpa [completeWords] using hn
  | cons w words ih =>
    obtain ⟨cnt, rfl⟩ := Nat.exists_eq_succ_of_ne_zero (n := cnt) (by simp at hn; omega)
    simp only [List.mem_cons, forall_eq_or_imp] at hw
    have hv := LittleEndian.value_bytes (w := 8) (hw.1.trans_eq (by norm_num))
    have hi := ih hw.2 (by simpa using hn)
    have hl : ¬((w :: words).flatMap (LittleEndian.bytes 8) ++ more).length < 8 := by simp
    rw [Nat.succ_eq_add_one, completeWords, if_neg hl, List.flatMap_cons, List.append_assoc,
      List.take_left' LittleEndian.length_bytes, List.drop_left' LittleEndian.length_bytes, hv, hi]

theorem completePairs_header (h : tail.length < 12) : completePairs tail = [] := by
  rw [completePairs, if_pos h]

theorem completePairs_body {file : List UInt8} (hd : docid < 2 ^ 64) (hc : cnt < 2 ^ 32)
    (hw : ∀ w ∈ words, w < 2 ^ 64)
    (hf : file = LittleEndian.bytes 8 docid ++ (LittleEndian.bytes 4 cnt ++
      (words.flatMap (LittleEndian.bytes 8) ++ more)))
    (hn : words.length = cnt ∨ words.length < cnt ∧ more.length < 8) :
    completePairs file = words.map (fun word => toLex (word, docid)) ++
      completePairs (more.drop (8 * (cnt - words.length))) := by
  have hdv := LittleEndian.value_bytes (w := 8) (hd.trans_eq (by norm_num))
  have hcv := LittleEndian.value_bytes (w := 4) (hc.trans_eq (by norm_num))
  have hwl : (words.flatMap (LittleEndian.bytes 8)).length = 8 * words.length := by
    simp [Nat.mul_comm]
  have hm : 8 * cnt = 8 * words.length + 8 * (cnt - words.length) := by omega
  have hl : ¬file.length < 12 := by
    rw [hf]
    simp
    omega
  have h₁ : file.take 8 = LittleEndian.bytes 8 docid := by
    rw [hf, List.take_left' LittleEndian.length_bytes]
  have h₂ : file.drop 8 =
      LittleEndian.bytes 4 cnt ++ (words.flatMap (LittleEndian.bytes 8) ++ more) := by
    rw [hf, List.drop_left' LittleEndian.length_bytes]
  have h₃ : file.drop 12 = words.flatMap (LittleEndian.bytes 8) ++ more := by
    rw [← List.drop_drop (i := 4) (j := 8), h₂, List.drop_left' LittleEndian.length_bytes]
  have h₄ : file.drop (12 + 8 * cnt) = more.drop (8 * (cnt - words.length)) := by
    rw [← List.drop_drop, h₃, hm, ← List.drop_drop, List.drop_left' hwl]
  rw [completePairs, if_neg hl]
  simp only [h₁, h₂, h₃, h₄, List.take_left' LittleEndian.length_bytes, hdv, hcv,
    completeWords_eq hw hn]

theorem completePairs_records : completePairs (fileBytes rs ++ tail) =
    pairs rs ++ completePairs tail := by
  induction rs with
  | nil => rfl
  | cons r rs ih =>
    have hf : fileBytes (r :: rs) ++ tail = LittleEndian.bytes 8 r.docid ++
        (LittleEndian.bytes 4 r.words.length ++ (r.words.flatMap (LittleEndian.bytes 8) ++
          (fileBytes rs ++ tail))) := by
      simp [fileBytes, Record.bytes]
    rw [completePairs_body r.docid_lt r.count_lt r.words_lt hf (.inl rfl), Nat.sub_self,
      Nat.mul_zero, List.drop_zero, ih]
    simp [pairs, Record.pairs]

namespace FileReader

variable {fr fr' : FileReader} {n : ℕ}

theorem readWords_fout (k : ℕ) (fr : FileReader) : ∃ qs : List WordDoc, qs.length = k ∧
    (readWord^[k] fr).fout = fr.fout ++ pairsText qs := by
  induction k generalizing fr with
  | zero => exact ⟨[], by simp⟩
  | succ k ih =>
    obtain ⟨qs, hq, hf⟩ := ih fr.readWord
    refine ⟨toLex ((fr.fin.readValue 8 fr.curWord).1, fr.curDocid) :: qs, by simp [hq], ?_⟩
    rw [Function.iterate_succ_apply, hf]
    simp [readWord]

theorem readDocs_fout (h : readDocs n fr = some fr') :
    ∃ qs : List WordDoc, fr'.fout = fr.fout ++ pairsText qs := by
  induction n generalizing fr with
  | zero => simp [readDocs] at h
  | succ n ih =>
    simp only [readDocs] at h
    split_ifs at h
    · obtain rfl := Option.some.inj h
      exact ⟨[], by simp⟩
    · obtain ⟨qs, hq⟩ := ih h
      obtain ⟨qs', _, hq'⟩ := readWords_fout _ _
      exact ⟨qs' ++ qs, by rw [hq, hq']; simp⟩

theorem exists_docid (h : 8 ≤ tail.length) : ∃ docid part, docid < 2 ^ 64 ∧
    part.length = tail.length - 8 ∧ tail = LittleEndian.bytes 8 docid ++ part := by
  have ht : (tail.take 8).length = 8 := by simp; omega
  have hv := LittleEndian.bytes_value (tail.take 8)
  have hl := LittleEndian.value_lt (tail.take 8)
  rw [ht] at hv hl
  refine ⟨_, tail.drop 8, hl.trans_eq (by norm_num), by simp, ?_⟩
  rw [hv, List.take_append_drop]

-- Where the records end, the file goes on with a document id, and a count of which perhaps a part
-- is missing. The words are then read, or said to be read, by as many rounds of the loop.
theorem readDocs_count {part : List UInt8} (hd : docid < 2 ^ 64) (hp : part.length < 4)
    (h : fr.fin.Holds (LittleEndian.bytes 8 docid ++ part)) :
    ∃ fr', fr'.fin.fail ∧ fr'.fout = fr.fout ∧ fr'.wordDict = fr.wordDict ∧
      ∀ n, readDocs (n + 1) fr = readDocs n (readWord^[cutCount fr.cntWords part] fr') := by
  have ⟨fin₁, he₁, hf₁⟩ := h.readValue (hd.trans_eq (by norm_num)) fr.curDocid
  have ⟨fin₂, he₂, hf₂⟩ := hf₁.readValue_short hp fr.cntWords
  refine ⟨{ fr with
    fin := fin₂, curDocid := docid, cntWords := cutCount fr.cntWords part }, hf₂, rfl, rfl, ?_⟩
  intro n
  simp only [readDocs, he₁, IfStream.fail_of_good hf₁.good, he₂]
  rfl

-- Not all words are there that the count promises.
theorem readDocs_body (hd : docid < 2 ^ 64) (hc : cnt < 2 ^ 32) (hw : ∀ w ∈ words, w < 2 ^ 64)
    (hn : words.length < cnt)
    (h : fr.fin.Holds (LittleEndian.bytes 8 docid ++ (LittleEndian.bytes 4 cnt ++
      (words.flatMap (LittleEndian.bytes 8) ++ short))))
    (hr : readDocs (n + 1) fr = some fr') : ∃ qs : List WordDoc, qs ≠ [] ∧
      fr'.fout = fr.fout ++ pairsText (words.map (fun word => toLex (word, docid)) ++ qs) := by
  have ⟨fin₁, he₁, hf₁⟩ := h.readValue (hd.trans_eq (by norm_num)) fr.curDocid
  have ⟨fin₂, he₂, hf₂⟩ := hf₁.readValue (hc.trans_eq (by norm_num)) fr.cntWords
  have ⟨fr₁, hr₁, _, ho₁, _⟩ := @readWords_spec _ _
    { fr with fin := fin₂, curDocid := docid, cntWords := cnt } hf₂ hw
  obtain ⟨k, hk⟩ : ∃ k, cnt = k + 1 + words.length := ⟨cnt - words.length - 1, by omega⟩
  have hi (r : FileReader) : readWord^[cnt] r = readWord^[k + 1] (readWord^[words.length] r) := by
    rw [hk, Function.iterate_add_apply]
  simp only [readDocs, he₁, IfStream.fail_of_good hf₁.good, he₂, hi, hr₁] at hr
  obtain ⟨qs, ho⟩ := readDocs_fout hr
  obtain ⟨qs', hq', ho'⟩ := readWords_fout (k + 1) fr₁
  refine ⟨qs' ++ qs, ?_, ?_⟩
  · exact List.append_ne_nil_of_left_ne_nil (List.ne_nil_of_length_pos (hq' ▸ k.succ_pos)) _
  · rw [ho, ho', ho₁]
    simp

theorem readDocs_of_cleanCut (h : fr.fin.Holds tail) (hc : fr.cntWords = lastCount 0 rs)
    (ht : CleanCut rs tail) (k : ℕ) : ∃ fr', readDocs (k + tail.length + 1) fr = some fr' ∧
      fr'.fout = fr.fout ∧ fr'.wordDict = fr.wordDict := by
  by_cases hl : tail.length < 8
  case pos =>
    obtain ⟨fin, he, hf⟩ := h.readValue_short hl fr.curDocid
    exact readDocs_end (by rwa [he])
  case neg =>
    obtain ⟨hl', hz⟩ := ht.resolve_left hl
    obtain ⟨n, hn⟩ := Nat.exists_eq_add_of_le' (not_lt.mp hl)
    obtain ⟨docid, part, hd, hp, rfl⟩ := exists_docid (not_lt.mp hl)
    rw [List.drop_left' LittleEndian.length_bytes, ← hc] at hz
    obtain ⟨fr₁, hf₁, ho₁, hd₁, hr₁⟩ := readDocs_count hd (by omega) h
    obtain ⟨fr', hr', ho', hd'⟩ := readDocs_end (n := k + n + 7) (IfStream.readValue_fail hf₁ 8 _)
    refine ⟨fr', ?_, ho'.trans ho₁, hd'.trans hd₁⟩
    rw [hr₁, hz, Function.iterate_zero, id, ← hr', hn]
    rfl

theorem read_records (rs : List Record) (tail : List UInt8) :
    ∃ fr k, read (fileBytes rs ++ tail) = readDocs (k + tail.length + 1) fr ∧ fr.fin.Holds tail ∧
      fr.fout = pairsText (pairs rs) ∧
      fr.wordDict = ((pairs rs).map fun p => (ofLex p).1).foldl countWord ∅ ∧
      fr.cntWords = lastCount 0 rs := by
  have hl : rs.length ≤ (fileBytes rs).length := length_le_length_fileBytes
  obtain ⟨k, hk⟩ := Nat.exists_eq_add_of_le hl
  have ⟨fr, hr, hf, ho, hd, hc⟩ := @readDocs_records rs tail (init (fileBytes rs ++ tail))
    (k + tail.length + 1) .opened
  refine ⟨fr, k, ?_, hf, ho, hd, hc⟩
  rw [read, ← hr, List.length_append, hk]
  congr 1
  omega

theorem countWord_lt {wordDict : SortedMap ℕ ℕ} (h : ∀ w c, wordDict.find? w = some c → c < 2 ^ 64)
    (word : ℕ) : ∀ w c, (countWord wordDict word).find? w = some c → c < 2 ^ 64 := by
  intro w c hc
  unfold countWord at hc
  split at hc <;> rw [SortedMap.find?_set] at hc <;> split_ifs at hc
  · exact Option.some.inj hc ▸ by norm_num
  · exact h w c hc
  · exact Option.some.inj hc ▸ Nat.mod_lt _ (by norm_num)
  · exact h w c hc

theorem count_lt_of_counts {ws : List ℕ} (h : Counts (ws.foldl countWord ∅) words) (w : ℕ) :
    words.count w < 2 ^ 64 := by
  have hlt : ∀ w c, (ws.foldl countWord ∅).find? w = some c → c < 2 ^ 64 := by
    clear h
    induction ws using List.reverseRecOn with
    | nil => simp
    | append_singleton ws w ih =>
      rw [List.foldl_append]
      exact countWord_lt ih w
  have hw := h w
  split_ifs at hw with hz
  · rw [hz]
    norm_num
  · exact hlt w _ hw

end FileReader

theorem exists_perm_of_subperm {ps qs : List WordDoc} (h : ps.Subperm qs) :
    ∃ more, qs.Perm (ps ++ more) := by
  obtain ⟨l, hp, hs⟩ := h
  obtain ⟨more, hm⟩ := hs.exists_perm_append
  exact ⟨more, hm.trans (hp.append_right more)⟩

theorem not_writesComplete {file : List UInt8} {fr : FileReader} (qs : List WordDoc)
    (hr : FileReader.read file = some fr) (ho : fr.fout = pairsText (completePairs file ++ qs))
    (hq : qs ≠ []) : ¬WritesComplete file := by
  rintro ⟨fr', ps, hr', ho', hs, _⟩
  obtain rfl := Option.some.inj (hr.symm.trans hr')
  obtain ⟨more, hm⟩ := exists_perm_of_subperm hs
  have hl := congrArg List.length (ho.symm.trans ho')
  have hp := length_pairsText_perm hm
  rw [pairsText_append, List.length_append] at hl hp
  exact hq (eq_nil_of_length_pairsText (by omega))

theorem CleanCut.length_lt (h : CleanCut rs tail) : tail.length < 12 :=
  h.elim (·.trans (by norm_num)) And.left

theorem cleanCut_of_writesComplete (hc : Cut tail) (h : WritesComplete (fileBytes rs ++ tail)) :
    CleanCut rs tail := by
  obtain ⟨fr₀, k, hr₀, hf, ho, _, hcnt⟩ := FileReader.read_records rs tail
  obtain ⟨fr, _, hr, _⟩ := id h
  rw [hr₀] at hr
  by_contra hn
  cases hc with
  | header hl =>
    have h8 : ¬tail.length < 8 := fun h8 => hn (.inl h8)
    obtain ⟨docid, part, hd, hp, rfl⟩ := FileReader.exists_docid (not_lt.mp h8)
    have hz : cutCount fr₀.cntWords part ≠ 0 := by
      intro hz
      refine hn (.inr ⟨hl, ?_⟩)
      rw [List.drop_left' LittleEndian.length_bytes, ← hcnt, hz]
    obtain ⟨fr₁, _, ho₁, _, hr₁⟩ := FileReader.readDocs_count hd (by simp at hl; omega) hf
    rw [hr₁] at hr
    obtain ⟨qs, hq⟩ := FileReader.readDocs_fout hr
    obtain ⟨qs', hl', hq'⟩ := FileReader.readWords_fout (cutCount fr₀.cntWords part) fr₁
    refine not_writesComplete (qs' ++ qs) (hr₀.trans ((hr₁ _).trans hr)) ?_ ?_ h
    · rw [completePairs_records, completePairs_header hl, hq, hq', ho₁, ho]
      simp
    · exact List.append_ne_nil_of_left_ne_nil
        (List.ne_nil_of_length_pos (hl' ▸ Nat.pos_of_ne_zero hz)) _
  | body hd hc hw hlt hs =>
    obtain ⟨qs, hq, ho'⟩ := FileReader.readDocs_body hd hc hw hlt hf hr
    refine not_writesComplete qs (hr₀.trans hr) ?_ hq h
    rw [completePairs_records, completePairs_body hd hc hw rfl (.inr ⟨hlt, hs⟩),
      completePairs_header (by simp; omega), ho', ho]
    simp

theorem read_of_cleanCut (h : CleanCut rs tail) :
    ∃ fr, FileReader.read (fileBytes rs ++ tail) = some fr ∧ fr.fout = pairsText (pairs rs) ∧
      fr.wordDict = ((pairs rs).map fun p => (ofLex p).1).foldl FileReader.countWord ∅ := by
  obtain ⟨fr₀, k, hr₀, hf, ho₀, hd₀, hc⟩ := FileReader.read_records rs tail
  obtain ⟨fr, hr, ho, hd⟩ := FileReader.readDocs_of_cleanCut hf hc h k
  exact ⟨fr, hr₀.trans hr, ho.trans ho₀, hd.trans hd₀⟩

theorem writesComplete_iff (file : List UInt8) : WritesComplete file ↔
    ∃ rs tail, file = fileBytes rs ++ tail ∧ CleanCut rs tail ∧
      ∀ w, ((pairs rs).map fun p => (ofLex p).1).count w < 2 ^ 64 := by
  constructor
  case mp  =>
    intro h
    obtain ⟨rs, tail, rfl, hc⟩ := exists_records file
    have hcut := cleanCut_of_writesComplete hc h
    refine ⟨rs, tail, rfl, hcut, fun w => ?_⟩
    obtain ⟨fr, hr, ho, hd⟩ := read_of_cleanCut hcut
    obtain ⟨fr', ps, hr', ho', hs, hcounts⟩ := h
    obtain rfl := Option.some.inj (hr.symm.trans hr')
    rw [completePairs_records, completePairs_header hcut.length_lt, List.append_nil] at hs
    obtain ⟨more, hm⟩ := exists_perm_of_subperm hs
    have hl := length_pairsText_perm hm
    rw [← ho, ho', pairsText_append, List.length_append] at hl
    have hnil : more = [] := eq_nil_of_length_pairsText (by omega)
    rw [hnil, List.append_nil] at hm
    rw [(hm.map _).count_eq]
    exact FileReader.count_lt_of_counts (hd ▸ hcounts) w
  case mpr =>
    rintro ⟨rs, tail, rfl, hc, hcount⟩
    obtain ⟨fr, hr, ho, hd⟩ := read_of_cleanCut hc
    refine ⟨fr, pairs rs, hr, ho, ?_, hd ▸ FileReader.counts_foldl hcount⟩
    rw [completePairs_records, completePairs_header hc.length_lt, List.append_nil]

-- Behind a document with one word stands the id of another one without a count. The word of the
-- first document is written for it.
theorem not_writesComplete_of_cut :
    let file := LittleEndian.bytes 8 1 ++ LittleEndian.bytes 4 1 ++ LittleEndian.bytes 8 7 ++
      LittleEndian.bytes 8 2
    (FileReader.read file).map (·.fout) = some (pairsText [toLex (7, 1), toLex (7, 2)]) ∧
      ¬WritesComplete file := by
  intro file
  refine ⟨by decide +kernel, fun h => ?_⟩
  let r : Record := ⟨1, [7], by decide, by decide, by decide⟩
  have hf : file = fileBytes [r] ++ LittleEndian.bytes 8 2 := by
    simp [file, fileBytes, Record.bytes, r]
  have hn : ¬CleanCut [r] (LittleEndian.bytes 8 2) := by
    unfold CleanCut
    decide
  exact hn (cleanCut_of_writesComplete (.header (by simp)) (hf ▸ h))

end Index
