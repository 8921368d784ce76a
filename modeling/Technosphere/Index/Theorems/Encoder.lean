import Technosphere.Index.Theorems.Pairs

namespace Index

variable {ps qs : List WordDoc} {index : List (ℕ × List ℕ)} {docs : List ℕ}
  {sorted fin : IfStream} {more : List UInt8} {off : ℕ}

def listBytes (docs : List ℕ) : List UInt8 :=
  LittleEndian.bytes 4 docs.length ++ docs.flatMap (LittleEndian.bytes 8)

def listsBytes (index : List (ℕ × List ℕ)) : List UInt8 :=
  index.flatMap fun e => listBytes e.2

def header : ℕ → List (ℕ × List ℕ) → List (ℕ × ℕ)
  | _,   []         => []
  | off, e :: index => (e.1, off) :: header (off + (4 + e.2.length * 8)) index

def headerBytes (es : List (ℕ × ℕ)) : List UInt8 :=
  es.flatMap fun e => LittleEndian.bytes 8 e.1 ++ LittleEndian.bytes 8 e.2

def indexBytes (index : List (ℕ × List ℕ)) : List UInt8 :=
  headerBytes (header (16 * (index.length + 1)) index) ++ LittleEndian.bytes 8 0 ++
    LittleEndian.bytes 8 0 ++ listsBytes index

theorem length_listBytes : (listBytes docs).length = 4 + docs.length * 8 := by
  simp [listBytes, List.length_flatMap]

theorem length_headerBytes {es : List (ℕ × ℕ)} : (headerBytes es).length = 16 * es.length := by
  simp [headerBytes, List.length_flatMap, Nat.mul_comm]

theorem map_fst_header : (header off index).map (·.1) = index.map (·.1) := by
  induction index generalizing off with
  | nil => rfl
  | cons e index ih => simp [header, ih]

theorem length_header : (header off index).length = index.length := by
  have h : (header off index).map (·.1) = index.map (·.1) := map_fst_header
  simpa using congrArg List.length h

theorem writeDocs_eq (h : Reads sorted (ps ++ qs)) (hf : ∀ p ∈ ps, Fits p) (cur : ℕ × ℕ) :
    ∃ sorted' cur', writeDocs ps.length sorted cur =
        ((ps.map fun p => (ofLex p).2).flatMap (LittleEndian.bytes 8), sorted', cur') ∧
      Reads sorted' qs := by
  induction ps generalizing sorted cur with
  | nil => exact ⟨sorted, cur, rfl, h⟩
  | cons p ps ih =>
    simp only [List.mem_cons, forall_eq_or_imp] at hf
    have ⟨sorted₁, he, hr₁⟩ : ∃ sorted₁, sorted.extractPair cur = (ofLex p, sorted₁) ∧
        Reads sorted₁ (ps ++ qs) := ⟨_, Reads.extractPair_cons h hf.1 cur⟩
    have ⟨sorted', cur', hw, hr'⟩ := ih hr₁ hf.2 (ofLex p)
    exact ⟨sorted', cur', by simp [writeDocs, he, hw], hr'⟩

theorem writeLists_eq {words : List (ℕ × List WordDoc)} (cur : ℕ × ℕ)
    (h : Reads sorted (words.flatMap (·.2))) (hf : ∀ e ∈ words, ∀ p ∈ e.2, Fits p)
    (hl : ∀ e ∈ words, e.2.length < 2 ^ 32) :
    writeLists (words.map fun e => (e.1, e.2.length)) sorted cur =
      listsBytes (words.map fun e => (e.1, e.2.map fun p => (ofLex p).2)) := by
  induction words generalizing sorted cur with
  | nil => rfl
  | cons e words ih =>
    simp only [List.mem_cons, forall_eq_or_imp] at hf hl
    have ⟨sorted', cur', hw, hr⟩ := writeDocs_eq (List.flatMap_cons ▸ h) hf.1 cur
    simp only [List.map_cons, writeLists, hw, ih cur' hr hf.2 hl.2, Nat.mod_eq_of_lt hl.1]
    simp [listsBytes, listBytes]

theorem length_listsBytes_cons {e : ℕ × List ℕ} : (listsBytes (e :: index)).length =
    (4 + e.2.length * 8) + (listsBytes index).length := by
  simp [listsBytes, length_listBytes]

theorem writeHeader_succ_eq {size i prev cur : ℕ}
    (h : cur + (4 + prev * 8) + (listsBytes index).length < 2 ^ 64) :
    writeHeader size (index.map fun e => (e.1, e.2.length)) (i + 1) prev cur =
      headerBytes (header (cur + (4 + prev * 8)) index) := by
  induction index generalizing i prev cur with
  | nil => rfl
  | cons e index ih =>
    rw [length_listsBytes_cons] at h
    have hm : (cur + (4 + prev * 8)) % 2 ^ 64 = cur + (4 + prev * 8) :=
      Nat.mod_eq_of_lt (by omega)
    simp only [List.map_cons, writeHeader, Nat.succ_ne_zero, if_false, hm]
    rw [ih (by omega)]
    simp [header, headerBytes]

theorem writeHeader_eq (h : 16 * (index.length + 1) + (listsBytes index).length < 2 ^ 64) :
    writeHeader index.length (index.map fun e => (e.1, e.2.length)) 0 0 0 =
      headerBytes (header (16 * (index.length + 1)) index) := by
  cases index with
  | nil => rfl
  | cons e index =>
    rw [length_listsBytes_cons] at h
    have hm : (0 + 16 * ((e :: index).length + 1)) % 2 ^ 64 = 16 * ((e :: index).length + 1) := by
      rw [Nat.zero_add, Nat.mod_eq_of_lt (by omega)]
    simp only [List.map_cons, writeHeader, if_true, hm]
    rw [writeHeader_succ_eq (by omega)]
    simp [header, headerBytes]

theorem length_writeHeader {es : List (ℕ × ℕ)} {size i prev cur : ℕ} :
    (writeHeader size es i prev cur).length = 16 * es.length := by
  induction es generalizing i prev cur with
  | nil => rfl
  | cons e es ih =>
    simp only [writeHeader, List.length_append, LittleEndian.length_bytes, ih, List.length_cons]
    omega

end Index
