import Technosphere.Index.Checker
import Technosphere.Index.Theorems.Inverse

namespace Index

variable {ps : List WordDoc} {rs : List Record} {words docs : List ℕ}
  {index index₁ index₂ : List (ℕ × List ℕ)} {more : List UInt8}

namespace Checker

def Collects (wordDict : SortedMap ℕ (List ℕ)) (ps : List WordDoc) : Prop :=
  ∀ w, wordDict.find? w = if docsOf ps w = [] then none else some (docsOf ps w)

def push (wordDict : SortedMap ℕ (List ℕ)) (p : WordDoc) : SortedMap ℕ (List ℕ) :=
  pushDoc wordDict (ofLex p).1 (ofLex p).2

theorem docsOf_concat {p : WordDoc} {w : ℕ} : docsOf (ps ++ [p]) w =
    if (ofLex p).1 = w then docsOf ps w ++ [(ofLex p).2] else docsOf ps w := by
  by_cases h : (ofLex p).1 = w <;> simp [docsOf, h]

theorem Collects.push {wordDict : SortedMap ℕ (List ℕ)} {p : WordDoc} (h : Collects wordDict ps) :
    Collects (push wordDict p) (ps ++ [p]) := by
  intro w
  have hd : (wordDict.find? (ofLex p).1).getD [] = docsOf ps (ofLex p).1 := by
    rw [h]
    split_ifs with hz <;> simp [hz]
  rw [Checker.push, pushDoc, hd, SortedMap.find?_set, docsOf_concat]
  by_cases hw : w = (ofLex p).1
  case pos => simp [hw]
  case neg => simpa [hw, Ne.symm hw] using h w

theorem collects_foldl : Collects (ps.foldl push ∅) ps := by
  induction ps using List.reverseRecOn with
  | nil                   => exact fun w => by simp [docsOf]
  | append_singleton ps p ih =>
    rw [List.foldl_append]
    exact ih.push

variable {c : Checker}

theorem readWords_spec (h : c.fin.Holds (words.flatMap (LittleEndian.bytes 8) ++ more))
    (hw : ∀ w ∈ words, w < 2 ^ 64) : ∃ c', readWord^[words.length] c = c' ∧ c'.fin.Holds more ∧
      c'.wordDict = (words.map fun word => toLex (word, c.curDocid)).foldl push c.wordDict := by
  induction words generalizing c with
  | nil => exact ⟨c, rfl, h, rfl⟩
  | cons w words ih =>
    simp only [List.mem_cons, forall_eq_or_imp] at hw
    rw [List.flatMap_cons, List.append_assoc] at h
    have ⟨fin, he, hf⟩ := h.readValue hw.1 c.curWord
    have ⟨c', hi, hf', hd⟩ := @ih c.readWord (by simpa [readWord, he] using hf) hw.2
    exact ⟨c', by simpa using hi, hf', by simp [hd, readWord, he, push]⟩

theorem readDocs_spec {n : ℕ} (h : c.fin.Holds (fileBytes rs)) (hn : rs.length < n) :
    ∃ c', readDocs n c = some c' ∧ c'.wordDict = (pairs rs).foldl push c.wordDict := by
  induction rs generalizing n c with
  | nil =>
    obtain ⟨n, rfl⟩ := Nat.exists_eq_succ_of_ne_zero (Nat.ne_zero_of_lt hn)
    have hf := h.readValue_nil (w := 8) (by simp) c.curDocid
    have he : readDocs (n + 1) c = some { c with
        fin      := (c.fin.readValue 8 c.curDocid).2
        curDocid := (c.fin.readValue 8 c.curDocid).1 } := by
      simp only [readDocs, hf, if_true]
    exact ⟨_, he, by simp [pairs]⟩
  | cons r rs ih =>
    obtain ⟨n, rfl⟩ := Nat.exists_eq_succ_of_ne_zero (Nat.ne_zero_of_lt hn)
    simp only [fileBytes, List.flatMap_cons, Record.bytes, List.append_assoc] at h
    obtain ⟨fin₁, he₁, hf₁⟩ := h.readValue (r.docid_lt.trans_eq (by norm_num)) c.curDocid
    obtain ⟨fin₂, he₂, hf₂⟩ := hf₁.readValue (r.count_lt.trans_eq (by norm_num)) c.cntWords
    obtain ⟨c₁, hr₁, hf₃, hd₁⟩ := @readWords_spec _ _
      { c with fin := fin₂, curDocid := r.docid, cntWords := r.words.length } hf₂ r.words_lt
    obtain ⟨c', hr', hd⟩ := ih hf₃ (Nat.succ_lt_succ_iff.mp hn)
    refine ⟨c', ?_, ?_⟩
    · simp only [readDocs, he₁, IfStream.fail_of_good hf₁.good, he₂, hr₁]
      exact hr'
    · simp [hd, hd₁, pairs, Record.pairs]

theorem writeHeader_eq {size i prev cur : ℕ} : writeHeader size index i prev cur =
    Index.writeHeader size (index.map fun e => (e.1, e.2.length)) i prev cur := by
  induction index generalizing i prev cur with
  | nil => rfl
  | cons e index ih => simp [writeHeader, Index.writeHeader, ih]

theorem writeLists_eq (hl : ∀ e ∈ index, e.2.length < 2 ^ 32) :
    writeLists index = listsBytes index := by
  induction index with
  | nil => rfl
  | cons e index ih =>
    have ⟨he, hl⟩ := List.forall_mem_cons.mp hl
    rw [writeLists, ih hl, Nat.mod_eq_of_lt he]
    simp [listsBytes, listBytes]

end Checker

theorem Inverts.unique (h₁ : Inverts ps index₁) (h₂ : Inverts ps index₂) : index₁ = index₂ := by
  have hm : ∀ {i₁ i₂}, Inverts ps i₁ → Inverts ps i₂ → ∀ e ∈ i₁, e ∈ i₂ := by
    intro i₁ i₂ h₁ h₂ e he
    have hw : e.1 ∈ i₂.map (·.1) := (h₂.words _).mpr <| (h₁.words _).mp <| List.mem_map_of_mem he
    have ⟨e', he', hk⟩ := List.mem_map.mp hw
    have ⟨hs, hd⟩   := h₁.docs e he
    have ⟨hs', hd'⟩ := h₂.docs e' he'
    have : e.2 = e'.2 := hs.eq_of_mem_iff hs' fun d => by rw [hd, hd', hk]
    rwa [← Prod.ext hk this.symm]
  let m₁ : SortedMap ℕ (List ℕ) := ⟨index₁, List.pairwise_map.mp h₁.ascending⟩
  let m₂ : SortedMap ℕ (List ℕ) := ⟨index₂, List.pairwise_map.mp h₂.ascending⟩
  have he : m₁ = m₂ := SortedMap.ext_find? fun w => Option.ext fun docs => by
    rw [← SortedMap.mem_entries, ← SortedMap.mem_entries]
    exact ⟨hm h₁ h₂ _, hm h₂ h₁ _⟩
  exact congrArg SortedMap.entries he

theorem count_pairs (hn : ∀ r ∈ rs, r.words.Nodup) (w : ℕ) :
    ((pairs rs).map fun p => (ofLex p).1).count w = rs.countP (w ∈ ·.words) := by
  induction rs with
  | nil => rfl
  | cons r rs ih =>
    have ⟨hr, hn⟩ := List.forall_mem_cons.mp hn
    have hp : r.pairs.map (fun p => (ofLex p).1) = r.words := by
      simp [Record.pairs, Function.comp_def]
    rw [pairs, List.flatMap_cons, List.map_append, List.count_append, hp, ← pairs, ih hn, hr.count,
      List.countP_cons]
    simp [add_comm]

section Increasing

variable (hd : (rs.map Record.docid).Pairwise (· < ·)) (hw : ∀ r ∈ rs, r.words.Nodup)
include hd hw

theorem pairs_increasing :
    (pairs rs).Pairwise fun p q => (ofLex p).1 = (ofLex q).1 → (ofLex p).2 < (ofLex q).2 := by
  rw [pairs, List.pairwise_flatMap]
  constructor
  · intro r hr
    rw [Record.pairs, List.pairwise_map]
    exact (hw r hr).imp fun hne he => absurd he hne
  · apply (List.pairwise_map.mp hd).imp
    intro r₁ r₂ hlt p hp q hq _
    obtain ⟨_, _, hp⟩ := List.mem_map.mp hp
    obtain ⟨_, _, hq⟩ := List.mem_map.mp hq
    rwa [← hp, ← hq]

theorem nodup_pairs : (pairs rs).Nodup := by
  apply (pairs_increasing hd hw).imp
  rintro p _ h rfl
  exact (h rfl).false

theorem docsOf_pairs_increasing (w : ℕ) : (docsOf (pairs rs) w).Pairwise (· < ·) := by
  rw [docsOf, List.pairwise_map]
  apply ((pairs_increasing hd hw).filter _).imp_of_mem
  intro p q hp hq h
  simp only [List.mem_filter, decide_eq_true_eq] at hp hq
  exact h (hp.2.trans hq.2.symm)

theorem Checker.Collects.inverts {wordDict : SortedMap ℕ (List ℕ)}
    (h : Collects wordDict (pairs rs)) : Inverts (pairs rs) wordDict.entries where
  ascending := wordDict.keys_sorted
  words     := by
    intro w
    have hk : w ∈ wordDict.entries.map (·.1) ↔ docsOf (pairs rs) w ≠ [] := by
      rw [← SortedMap.keys, SortedMap.mem_keys, h w]
      split_ifs with hz <;> simp [hz]
    simp only [hk, ne_eq, List.eq_nil_iff_forall_not_mem, not_forall, not_not, mem_docsOf]
  docs      := by
    rintro ⟨w, docs⟩ he
    have hf := h w
    rw [SortedMap.mem_entries.mp he] at hf
    split_ifs at hf
    rw [Option.some.inj hf]
    exact ⟨docsOf_pairs_increasing hd hw w, fun d => mem_docsOf⟩

end Increasing

theorem makeReverseIndex_eq_checker (rs : List Record)
    (hd : (rs.map Record.docid).Pairwise (· < ·)) (hn : ∀ r ∈ rs, r.words.Nodup)
    (hw : ∀ r ∈ rs, ∀ w ∈ r.words, w < 2 ^ 64 - 1)
    (hc : ∀ w, rs.countP (w ∈ ·.words) < 2 ^ 32) (cur : ℕ × ℕ) :
    ∃ file, makeReverseIndex (fileBytes rs) cur = some file ∧
      Checker.main (fileBytes rs) = some file := by
  have hw' : ∀ p ∈ pairs rs, (ofLex p).1 < 2 ^ 64 - 1 := by
    intro p hp
    have ⟨r, hr, hp⟩ := List.mem_flatMap.mp hp
    have ⟨w, hm, hp⟩ := List.mem_map.mp hp
    exact hp ▸ hw r hr w hm
  have hc' : ∀ w, ((pairs rs).map fun p => (ofLex p).1).count w < 2 ^ 32 := fun w => by
    rw [count_pairs hn]
    exact hc w
  have ⟨index, hi, hf, he⟩ := makeReverseIndex_eq (nodup_pairs hd hn) hw' hc' cur
  have ⟨c, hr, hdict⟩ := @Checker.readDocs_spec rs (Checker.init (fileBytes rs)) _ .opened
    (Nat.lt_succ_of_le length_le_length_fileBytes)
  have hcol : Checker.Collects c.wordDict (pairs rs) := hdict ▸ Checker.collects_foldl
  have hu : c.wordDict.entries = index := (hcol.inverts hd hn).unique hi
  refine ⟨_, he, ?_⟩
  simp only [Checker.main, hr, Option.bind_eq_bind, Option.bind_some, hu, Checker.writeHeader_eq,
    Checker.writeLists_eq fun e he => (hf e he).1]
  rfl

theorem makeReverseIndex_eq_checker_of_two :
    let rs : List Record := [⟨2, [5], by decide, by decide, by decide⟩,
      ⟨7, [5, 10], by decide, by decide, by decide⟩]
    ∃ file, makeReverseIndex (fileBytes rs) (3, 9) = some file ∧
      Checker.main (fileBytes rs) = some file :=
  makeReverseIndex_eq_checker _ (by decide) (by decide) (by decide)
    (fun _ => List.countP_le_length.trans_lt (by decide)) (3, 9)

end Index
