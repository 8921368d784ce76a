import Technosphere.Index.Theorems.Encoder

namespace Index

variable {index : List (ℕ × List ℕ)} {es : List (ℕ × ℕ)} {docs : List ℕ} {fin : IfStream}
  {more file : List UInt8}

theorem readDocs_eq (h : fin.Holds (docs.flatMap (LittleEndian.bytes 8) ++ more))
    (hd : ∀ d ∈ docs, d < 2 ^ 64) (cur : ℕ) :
    ∃ fin' cur', readDocs docs.length fin cur = (docs, fin', cur') ∧ fin'.Holds more := by
  induction docs generalizing fin cur with
  | nil => exact ⟨fin, cur, rfl, h⟩
  | cons d docs ih =>
    simp only [List.mem_cons, forall_eq_or_imp] at hd
    rw [List.flatMap_cons, List.append_assoc] at h
    have ⟨fin₁, he, h₁⟩ := h.readValue (hd.1.trans_eq (by norm_num)) cur
    have ⟨fin', cur', hr, h'⟩ := ih h₁ hd.2 d
    exact ⟨fin', cur', by simp [readDocs, he, hr], h'⟩

theorem readList_eq (h : fin.Holds (listBytes docs ++ more)) (hl : docs.length < 2 ^ 32)
    (hd : ∀ d ∈ docs, d < 2 ^ 64) (cnt cur : ℕ) :
    ∃ fin' cur', readList fin cnt cur = ((docs.length, docs), fin', cur') ∧ fin'.Holds more := by
  rw [listBytes, List.append_assoc] at h
  obtain ⟨fin₁, he, h₁⟩ := h.readValue (hl.trans_eq (by norm_num)) cnt
  obtain ⟨fin', cur', hr, h'⟩ := readDocs_eq h₁ hd cur
  exact ⟨fin', cur', by simp [readList, he, hr], h'⟩

def ListsFit (index : List (ℕ × List ℕ)) : Prop :=
  ∀ e ∈ index, e.2.length < 2 ^ 32 ∧ ∀ d ∈ e.2, d < 2 ^ 64

theorem readLists_eq (h : fin.Holds (listsBytes index ++ more)) (hf : ListsFit index)
    (cnt cur : ℕ) : ∃ fin', readLists index.length fin cnt cur =
      (index.map fun e => (e.2.length, e.2), fin') ∧ fin'.Holds more := by
  induction index generalizing fin cnt cur with
  | nil => exact ⟨fin, rfl, h⟩
  | cons e index ih =>
    obtain ⟨he, hf⟩ := List.forall_mem_cons.mp hf
    simp only [listsBytes, List.flatMap_cons, List.append_assoc] at h
    obtain ⟨fin₁, cur₁, hr₁, h₁⟩ := readList_eq h he.1 he.2 cnt cur
    obtain ⟨fin', hr, h'⟩ := ih h₁ hf e.2.length cur₁
    exact ⟨fin', by simp [readLists, hr₁, hr], h'⟩

theorem readHeader_eq {n : ℕ} (h : fin.Holds (headerBytes es ++ LittleEndian.bytes 8 0 ++
    LittleEndian.bytes 8 0 ++ more)) (hf : ∀ e ∈ es, e.1 < 2 ^ 64 ∧ e.2 < 2 ^ 64 ∧ e.2 ≠ 0)
    (hn : es.length < n) (cur : ℕ × ℕ) :
    ∃ fin', readHeader n fin cur = some (es ++ [(0, 0)], fin') ∧ fin'.Holds more := by
  induction es generalizing n fin cur with
  | nil =>
    obtain ⟨n, rfl⟩ := Nat.exists_eq_succ_of_ne_zero (Nat.ne_zero_of_lt hn)
    simp only [headerBytes, List.flatMap_nil, List.nil_append, List.append_assoc] at h
    obtain ⟨fin₁, he₁, h₁⟩ := h.readValue (by norm_num) cur.1
    obtain ⟨fin₂, he₂, h₂⟩ := h₁.readValue (by norm_num) cur.2
    exact ⟨fin₂, by simp [readHeader, he₁, he₂], h₂⟩
  | cons e es ih =>
    obtain ⟨n, rfl⟩ := Nat.exists_eq_succ_of_ne_zero (Nat.ne_zero_of_lt hn)
    obtain ⟨⟨hw, ho, hz⟩, hf⟩ := List.forall_mem_cons.mp hf
    simp only [headerBytes, List.flatMap_cons, List.append_assoc] at h
    obtain ⟨fin₁, he₁, h₁⟩ := h.readValue (hw.trans_eq (by norm_num)) cur.1
    obtain ⟨fin₂, he₂, h₂⟩ := h₁.readValue (ho.trans_eq (by norm_num)) cur.2
    have h₂ : fin₂.Holds (headerBytes es ++ LittleEndian.bytes 8 0 ++ LittleEndian.bytes 8 0 ++
        more) := by simpa [headerBytes] using h₂
    obtain ⟨fin', hr, h'⟩ := ih h₂ hf (Nat.succ_lt_succ_iff.mp hn) e
    exact ⟨fin', by simp [readHeader, he₁, he₂, hz, hr], h'⟩

theorem drop_offset (pre : List UInt8) : ∀ p ∈ (header pre.length index).zip index,
    ∃ more, (pre ++ listsBytes index).drop p.1.2 = listBytes p.2.2 ++ more := by
  induction index generalizing pre with
  | nil => simp [header]
  | cons e index ih =>
    simp only [header, List.zip_cons_cons, List.forall_mem_cons]
    constructor
    · exact ⟨listsBytes index, by simp [listsBytes]⟩
    · have := ih (pre ++ listBytes e.2)
      simpa [length_listBytes, listsBytes] using this

-- The file has these words with these documents, for a reader that goes through it from its
-- beginning and for one that goes to the offset of a word.
def Decodes (file : List UInt8) (index : List (ℕ × List ℕ)) : Prop :=
  ∃ entries, entries.map (·.1) = index.map (·.1) ∧
    (∀ cur cnt doc, ∃ fin, printReadable file cur cnt doc =
      some ⟨entries ++ [(0, 0)], index.map fun e => (e.2.length, e.2), fin⟩ ∧ fin.rest = []) ∧
    ∀ p ∈ entries.zip index, ∀ cnt cur,
      (readList ((IfStream.opened file).seekg p.1.2) cnt cur).1 = (p.2.2.length, p.2.2)

theorem header_bounds {off : ℕ} : ∀ e ∈ header off index,
    off ≤ e.2 ∧ e.2 ≤ off + (listsBytes index).length := by
  induction index generalizing off with
  | nil => simp [header]
  | cons e index ih =>
    simp only [header, List.forall_mem_cons, length_listsBytes_cons]
    constructor
    · exact ⟨le_rfl, Nat.le_add_right ..⟩
    · intro e' he'
      have := ih e' he'
      omega

theorem length_indexBytes : (indexBytes index).length =
    16 * (index.length + 1) + (listsBytes index).length := by
  simp only [indexBytes, List.length_append, length_headerBytes, length_header,
    LittleEndian.length_bytes]
  omega

theorem decodes_indexBytes (hf : ListsFit index) (hw : ∀ e ∈ index, e.1 < 2 ^ 64)
    (hs : (indexBytes index).length < 2 ^ 64) : Decodes (indexBytes index) index := by
  let entries := header (16 * (index.length + 1)) index
  let pre := headerBytes entries ++ LittleEndian.bytes 8 0 ++ LittleEndian.bytes 8 0
  have hb : indexBytes index = pre ++ listsBytes index := rfl
  have hpre : pre.length = 16 * (index.length + 1) := by
    simp only [pre, entries, List.length_append, length_headerBytes, length_header,
      LittleEndian.length_bytes]
    omega
  rw [length_indexBytes] at hs
  have he : ∀ e ∈ entries, e.1 < 2 ^ 64 ∧ e.2 < 2 ^ 64 ∧ e.2 ≠ 0 := by
    intro e hm
    have ⟨h₁, h₂⟩ := header_bounds e hm
    have hk : e.1 ∈ index.map (·.1) := map_fst_header ▸ List.mem_map_of_mem hm
    have ⟨e', hm', hk⟩ := List.mem_map.mp hk
    exact ⟨hk ▸ hw e' hm', by omega, by omega⟩
  have hn : entries.length < (indexBytes index).length + 1 := by
    rw [length_indexBytes, length_header]
    omega
  have ho : (IfStream.opened (indexBytes index)).Holds (pre ++ listsBytes index) := .opened
  refine ⟨entries, map_fst_header, ?_, ?_⟩
  · intro cur cnt doc
    have ⟨fin₁, hr₁, h₁⟩ := readHeader_eq ho he hn cur
    have h₁ : fin₁.Holds (listsBytes index ++ []) := by simpa using h₁
    have ⟨fin, hr, h⟩ := readLists_eq h₁ hf cnt doc
    exact ⟨fin, by simp [printReadable, hr₁, entries, length_header, hr], h.rest⟩
  · intro p hp cnt cur
    have hp' : p ∈ (header pre.length index).zip index := by
      rw [hpre]
      exact hp
    have ⟨more, hd⟩ := drop_offset pre p hp'
    have hm := (List.of_mem_zip hp).2
    have ⟨fin', cur', hr', _⟩ := readList_eq (ho.seekg hd) (hf _ hm).1 (hf _ hm).2 cnt cur
    rw [hr']

end Index
