import Technosphere.Index.Theorems.Pairs

namespace Index

structure Record where
  docid    : ℕ
  words    : List ℕ
  docid_lt : docid < 2 ^ 64
  words_lt : ∀ w ∈ words, w < 2 ^ 64
  count_lt : words.length < 2 ^ 32

namespace Record

def bytes (r : Record) : List UInt8 :=
  LittleEndian.bytes 8 r.docid ++ LittleEndian.bytes 4 r.words.length ++
    r.words.flatMap (LittleEndian.bytes 8)

def pairs (r : Record) : List WordDoc :=
  r.words.map fun word => toLex (word, r.docid)

end Record

def fileBytes (rs : List Record) : List UInt8 :=
  rs.flatMap Record.bytes

def pairs (rs : List Record) : List WordDoc :=
  rs.flatMap Record.pairs

variable {rs : List Record} {r : Record} {words : List ℕ} {more : List UInt8}

theorem fits_of_mem_pairs : ∀ p ∈ pairs rs, Fits p := by
  intro p hp
  have ⟨r, _, hp⟩ := List.mem_flatMap.mp hp
  have ⟨w, hw, hp⟩ := List.mem_map.mp hp
  exact hp ▸ ⟨r.words_lt w hw, r.docid_lt⟩

theorem length_le_length_fileBytes : rs.length ≤ (fileBytes rs).length := by
  induction rs with
  | nil => simp
  | cons r rs ih =>
    simp only [fileBytes, List.flatMap_cons, List.length_append, List.length_cons, Record.bytes,
      LittleEndian.length_bytes] at ih ⊢
    omega

namespace FileReader

def Counts (wordDict : SortedMap ℕ ℕ) (words : List ℕ) : Prop :=
  ∀ w, wordDict.find? w = if words.count w = 0 then none else some (words.count w)

theorem Counts.countWord {wordDict : SortedMap ℕ ℕ} {word : ℕ} (h : Counts wordDict words)
    (hc : (words ++ [word]).count word < 2 ^ 64) :
    Counts (countWord wordDict word) (words ++ [word]) := by
  intro w
  have hw := h word
  have he : FileReader.countWord wordDict word = wordDict.set word (words.count word + 1) := by
    simp only [List.count_append, List.count_singleton_self] at hc
    by_cases hz : words.count word = 0
    case pos => simp [FileReader.countWord, hw, hz]
    case neg => simp only [FileReader.countWord, hw, hz, if_false, Nat.mod_eq_of_lt hc]
  rw [he, SortedMap.find?_set]
  by_cases hww : w = word
  case pos => simp [hww]
  case neg => simp [hww, h w, Ne.symm hww]

theorem counts_foldl (h : ∀ w, words.count w < 2 ^ 64) :
    Counts (words.foldl countWord ∅) words := by
  induction words using List.reverseRecOn with
  | nil => exact fun w => by simp
  | append_singleton words w ih =>
    have hl : ∀ w', words.count w' < 2 ^ 64 := fun w' =>
      ((List.sublist_append_left words [w]).count_le w').trans_lt (h w')
    rw [List.foldl_append]
    exact (ih hl).countWord (h w)

variable {fr : FileReader}

theorem readWords_spec (h : fr.fin.Holds (words.flatMap (LittleEndian.bytes 8) ++ more))
    (hw : ∀ w ∈ words, w < 2 ^ 64) : ∃ fr', readWord^[words.length] fr = fr' ∧ fr'.fin.Holds more ∧
      fr'.fout = fr.fout ++ pairsText (words.map fun word => toLex (word, fr.curDocid)) ∧
      fr'.wordDict = words.foldl countWord fr.wordDict ∧ fr'.cntWords = fr.cntWords := by
  induction words generalizing fr with
  | nil => exact ⟨fr, rfl, h, by simp, rfl, rfl⟩
  | cons w words ih =>
    simp only [List.mem_cons, forall_eq_or_imp] at hw
    rw [List.flatMap_cons, List.append_assoc] at h
    have ⟨fin, he, hf⟩ := h.readValue hw.1 fr.curWord
    have ⟨fr', hi, hf', ho, hd, hc⟩ := @ih fr.readWord (by simpa [readWord, he] using hf) hw.2
    refine ⟨fr', by simpa using hi, hf', ?_, ?_, hc⟩
    · simp [ho, readWord, he]
    · simp [hd, readWord, he]

-- The count that has been read last, which is `cnt` at first.
def lastCount (cnt : ℕ) : List Record → ℕ
  | []      => cnt
  | r :: rs => lastCount r.words.length rs

theorem readDocs_records {n : ℕ} (h : fr.fin.Holds (fileBytes rs ++ more)) :
    ∃ fr', readDocs (rs.length + n) fr = readDocs n fr' ∧ fr'.fin.Holds more ∧
      fr'.fout = fr.fout ++ pairsText (pairs rs) ∧
      fr'.wordDict = ((pairs rs).map fun p => (ofLex p).1).foldl countWord fr.wordDict ∧
      fr'.cntWords = lastCount fr.cntWords rs := by
  induction rs generalizing fr with
  | nil => exact ⟨fr, by simp, h, by simp [pairs], by simp [pairs], rfl⟩
  | cons r rs ih =>
    simp only [fileBytes, List.flatMap_cons, Record.bytes, List.append_assoc] at h
    have ⟨fin₁, he₁, hf₁⟩ := h.readValue (r.docid_lt.trans_eq (by norm_num)) fr.curDocid
    have ⟨fin₂, he₂, hf₂⟩ := hf₁.readValue (r.count_lt.trans_eq (by norm_num)) fr.cntWords
    have ⟨fr₁, hr₁, hf₃, ho₁, hd₁, hc₁⟩ := @readWords_spec _ _
      { fr with fin := fin₂, curDocid := r.docid, cntWords := r.words.length } hf₂ r.words_lt
    have ⟨fr', hr', hf', ho, hd, hc⟩ := ih hf₃
    refine ⟨fr', ?_, hf', ?_, ?_, ?_⟩
    · rw [List.length_cons, Nat.add_right_comm]
      simp only [readDocs, he₁, IfStream.fail_of_good hf₁.good, he₂, hr₁]
      exact hr'
    · simp [ho, ho₁, pairs, Record.pairs]
    · simp [hd, hd₁, pairs, Record.pairs, Function.comp_def]
    · rw [hc, hc₁, lastCount]

theorem readDocs_end {n : ℕ} (h : (fr.fin.readValue 8 fr.curDocid).2.fail) :
    ∃ fr', readDocs (n + 1) fr = some fr' ∧ fr'.fout = fr.fout ∧ fr'.wordDict = fr.wordDict :=
  ⟨_, if_pos h, rfl, rfl⟩

theorem read_spec (hc : ∀ w, ((pairs rs).map fun p => (ofLex p).1).count w < 2 ^ 64) :
    ∃ fr, read (fileBytes rs) = some fr ∧ fr.fout = pairsText (pairs rs) ∧
      Counts fr.wordDict ((pairs rs).map fun p => (ofLex p).1) := by
  have hl : rs.length ≤ (fileBytes rs).length := length_le_length_fileBytes
  obtain ⟨n, hn⟩ := Nat.exists_eq_add_of_le hl
  have ⟨fr, hr, hf, ho, hd, _⟩ := @readDocs_records rs [] (init (fileBytes rs)) (n + 1)
    (by rw [List.append_nil]; exact .opened)
  have ⟨fr', hr', ho', hd'⟩ := readDocs_end (n := n) (hf.readValue_nil (by simp) _)
  refine ⟨fr', ?_, ho'.trans ho, hd' ▸ hd ▸ counts_foldl hc⟩
  rw [read, hn, Nat.add_assoc, hr, hr']

end FileReader

end Index
