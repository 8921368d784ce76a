import Technosphere.Lib.Munch
import Technosphere.Lib.Words
import Technosphere.Shell.Parser

open Munch (Token tokens longest argument)

namespace LexemParser

def pieces (input : List Char) : List (List Char) :=
  (input.splitOnP isSpace).filter (· ≠ [])

def operators : List (List Char) :=
  ["&&", "||", "&", "|", "<", ">"].map String.toList

def lexem : Token Char → Lexem
  | .op w  => ⟨.ofList w, takeType (.ofList w)⟩
  | .arg w => ⟨.ofList w, .argument⟩

def reference (input : String) : List Lexem :=
  (pieces input.toList).flatMap fun piece => (tokens operators [] piece).map lexem

variable {temp ss w cs : List Char} {s : Scan} {lexems : List Lexem} {input : String} {i n : ℕ}

theorem ofList_eq {s : String} : String.ofList w = s ↔ w = s.toList := by
  rw [← String.toList_inj, String.toList_ofList]

theorem takeType_ofList : takeType (.ofList w) ≠ .argument ↔ w ∈ operators := by
  simp only [takeType, ofList_eq, operators, List.map_cons, List.map_nil, List.mem_cons,
    List.not_mem_nil, or_false]
  split_ifs <;> simp_all

theorem length_operators : ∀ o ∈ operators, o.length = 1 ∨ o.length = 2 := by
  decide

theorem nil_notMem_operators : [] ∉ operators := by
  decide

-- As no operator is longer, the longest one that matches is found by trying two characters and
-- then one.
theorem longest_operators : longest operators cs =
    if 2 ≤ cs.length ∧ cs.take 2 ∈ operators then some (cs.take 2)
    else if 1 ≤ cs.length ∧ cs.take 1 ∈ operators then some (cs.take 1)
    else none := by
  have hp {o : List Char} (hp : o <+: cs) : o.length ≤ cs.length ∧ cs.take o.length = o :=
    ⟨hp.length_le, (List.prefix_iff_eq_take.mp hp).symm⟩
  split_ifs with h₂ h₁
  · refine Munch.longest_eq_some.mpr ⟨h₂.2, List.take_prefix .., fun o ho _ => ?_⟩
    have := length_operators o ho
    simp only [List.length_take]
    omega
  · refine Munch.longest_eq_some.mpr ⟨h₁.2, List.take_prefix .., fun o ho hpo => ?_⟩
    rcases length_operators o ho with hl | hl
    · simp only [List.length_take]
      omega
    · have ⟨hlen, ht⟩ := hp hpo
      rw [hl] at hlen ht
      exact absurd ⟨hlen, ht ▸ ho⟩ h₂
  · refine Munch.longest_eq_none.mpr fun o ho hpo => ?_
    have ⟨hlen, ht⟩ := hp hpo
    rcases length_operators o ho with hl | hl <;> rw [hl] at hlen ht
    · exact h₁ ⟨hlen, ht ▸ ho⟩
    · exact h₂ ⟨hlen, ht ▸ ho⟩

def Scan.current (s : Scan) (temp : List Char) : List Char :=
  (temp.take s.it1).drop s.prevIt

-- The scan in which the operator `o` has been found.
def Scan.found (s : Scan) (temp o : List Char) : Scan where
  lexems := s.lexems ++ ((argument (s.current temp)).map lexem ++ [lexem (.op o)])
  prevIt := s.it1 + o.length
  it1    := s.it1 + (o.length - 1)

-- The lexems of a piece are those that have been found, and those of what is left to scan.
structure Scans (temp : List Char) (s : Scan) (lexems : List Lexem) : Prop where
  prevIt : s.prevIt ≤ s.it1
  it1    : s.it1 ≤ temp.length
  lexems : s.lexems ++ (tokens operators (s.current temp) (temp.drop s.it1)).map lexem = lexems

theorem flush_eq (h : s.it1 ≤ temp.length) :
    (if s.prevIt < s.it1 then s.lexems ++ [⟨slice temp s.prevIt s.it1, .argument⟩] else s.lexems) =
      s.lexems ++ (argument (s.current temp)).map lexem := by
  have hc : s.current temp = [] ↔ ¬s.prevIt < s.it1 := by simp [Scan.current, h]
  split_ifs with hp
  · have ⟨c, w, hw⟩ := List.exists_cons_of_ne_nil (mt hc.mp (not_not_intro hp))
    rw [show slice temp s.prevIt s.it1 = .ofList (s.current temp) from rfl, hw]
    rfl
  · rw [hc.mpr hp, argument, List.map_nil, List.append_nil]

theorem tryOperator_eq (h : s.it1 ≤ temp.length) : tryOperator temp s i =
    if i ≤ (temp.drop s.it1).length ∧ (temp.drop s.it1).take i ∈ operators
    then some (s.found temp ((temp.drop s.it1).take i)) else none := by
  have hs : slice temp s.it1 (s.it1 + i) = .ofList ((temp.drop s.it1).take i) := by
    rw [slice, List.drop_take, Nat.add_sub_cancel_left]
  have hi : s.it1 + i ≤ temp.length ↔ i ≤ (temp.drop s.it1).length := by
    rw [List.length_drop]
    omega
  simp only [tryOperator, hs, hi, takeType_ofList, flush_eq h]
  by_cases hlen : i ≤ (temp.drop s.it1).length
  case pos =>
    simp only [hlen, ↓reduceIte, true_and]
    split_ifs
    · rw [Scan.found, List.length_take_of_le hlen, List.append_assoc]
      rfl
    · rfl
  case neg => simp only [hlen, ↓reduceIte, false_and]

theorem scanBody_eq (h : s.it1 ≤ temp.length) : scanBody temp s =
    match longest operators (temp.drop s.it1) with
    | some o => { s.found temp o with it1 := s.it1 + (o.length - 1) + 1 }
    | none   => { s with it1 := s.it1 + 1 } := by
  rw [longest_operators, scanBody, tryOperator_eq h, tryOperator_eq h]
  split_ifs <;> rfl

theorem Scans.body (h : Scans temp s lexems) (hlt : s.it1 < temp.length) :
    Scans temp (scanBody temp s) lexems := by
  have hd := List.drop_eq_getElem_cons hlt
  have hl := h.lexems
  rw [hd, tokens, ← hd] at hl
  rw [scanBody_eq h.it1]
  cases ho : longest operators (temp.drop s.it1) with
  | some o =>
    obtain ⟨hm, hp, _⟩ := Munch.longest_eq_some.mp ho
    have hlen := hp.length_le
    have hpos : o.length - 1 + 1 = o.length := by
      rcases length_operators o hm with h | h <;> omega
    simp only [ho] at hl
    rw [List.length_drop] at hlen
    refine ⟨?_, ?_, ?_⟩
    · simp only [Scan.found]
      omega
    · simp only
      omega
    · simpa [Scan.found, Scan.current, add_assoc, add_comm 1, hpos] using hl
  | none =>
    simp only [ho] at hl
    refine ⟨h.prevIt.trans (Nat.le_succ _), hlt, ?_⟩
    have hc : s.current temp ++ [temp[s.it1]] = (temp.take (s.it1 + 1)).drop s.prevIt := by
      rw [Scan.current, ← List.take_concat_get' _ _ hlt, List.drop_append_of_le_length]
      simpa using ⟨h.prevIt, h.prevIt.trans h.it1⟩
    rwa [hc] at hl

theorem Scans.loop (h : Scans temp s lexems) (hn : temp.length ≤ s.it1 + n) :
    Scans temp (scanLoop temp n s) lexems ∧ (scanLoop temp n s).it1 = temp.length := by
  induction n generalizing s with
  | zero => exact ⟨h, le_antisymm h.it1 hn⟩
  | succ n hi =>
    rw [scanLoop]
    split_ifs with hlt
    · refine hi (h.body hlt) ?_
      rw [scanBody_eq h.it1]
      cases longest operators (temp.drop s.it1) <;> simp only <;> omega
    · exact ⟨h, le_antisymm h.it1 (not_lt.mp hlt)⟩

theorem parsePiece_eq (temp : List Char) (lexems : List Lexem) :
    parsePiece temp lexems = lexems ++ (tokens operators [] temp).map lexem := by
  have h : Scans temp { lexems } (lexems ++ (tokens operators [] temp).map lexem) :=
    ⟨le_rfl, Nat.zero_le _, rfl⟩
  obtain ⟨h, hit⟩ := h.loop (Nat.le_add_left temp.length 0)
  simp only [parsePiece]
  generalize scanLoop temp temp.length { lexems } = s at h hit ⊢
  have hp : s.prevIt ≠ temp.length ↔ s.prevIt < s.it1 := by
    have := h.prevIt
    omega
  have hl := h.lexems
  rw [hit, List.drop_length, tokens] at hl
  have hf := flush_eq h.it1
  simp only [hp]
  rw [hit] at hf ⊢
  rw [hf, hl]

theorem pieces_eq : pieces ss =
    match nextPiece ss with
    | some (temp, ss) => temp :: pieces ss
    | none            => [] := by
  simp only [nextPiece, List.isEmpty_iff]
  by_cases h : ss.dropWhile isSpace = []
  case pos =>
    rw [if_pos h]
    exact Words.words_of_nil h
  case neg =>
    rw [if_neg h]
    exact Words.words_of_ne_nil h

theorem nextPiece_length {temp ss' : List Char} (h : nextPiece ss = some (temp, ss')) :
    ss'.length < ss.length := by
  simp only [nextPiece, List.isEmpty_iff] at h
  split_ifs at h with he
  obtain ⟨_, rfl⟩ := Prod.mk.inj (Option.some.inj h)
  exact Words.length_lt_of_ne_nil he

theorem parseLoop_eq (hn : ss.length ≤ n) : parseLoop n ss lexems =
    lexems ++ (pieces ss).flatMap fun piece => (tokens operators [] piece).map lexem := by
  induction n generalizing ss lexems with
  | zero =>
    rw [List.length_eq_zero_iff.mp (Nat.le_zero.mp hn)]
    simp [parseLoop, pieces]
  | succ n hi =>
    rw [parseLoop, pieces_eq]
    cases hp : nextPiece ss with
    | none => simp
    | some p =>
      have hlt := nextPiece_length hp
      simp only [List.flatMap_cons]
      rw [hi (by omega), parsePiece_eq, List.append_assoc]

theorem parse_eq (input : String) : (parse { input }).get = reference input := by
  have hl : input.toList.length ≤ input.length := String.length_toList.le
  rw [get, parse, parseLoop_eq hl, List.nil_append]
  rfl

@[simp]
theorem toList_lexem (t : Token Char) : (lexem t).lexem.toList = t.word := by
  cases t <;> simp [lexem]

theorem flatMap_lexem (piece : List Char) :
    ((tokens operators [] piece).map lexem).flatMap (·.lexem.toList) = piece := by
  simp only [List.flatMap_map, toList_lexem]
  exact Munch.tokens_word operators [] piece nil_notMem_operators

theorem singleton_mem_operators : ∀ o ∈ operators, ∀ c ∈ o, [c] ∈ operators := by
  simp [operators]

theorem type_eq_takeType {t : Token Char} (ht : t ∈ tokens operators [] w) :
    (lexem t).type = takeType (lexem t).lexem := by
  cases t with
  | op o  => rfl
  | arg o =>
    by_contra ha
    have ho := takeType_ofList.mp (Ne.symm ha)
    have ⟨c, cs, hc⟩ := List.exists_cons_of_ne_nil (Munch.tokens_ne_nil nil_notMem_operators ht)
    have hm : c ∈ o := by
      rw [show o = c :: cs from hc]
      exact List.mem_cons_self
    exact Munch.arg_mem_tokens ht (singleton_mem_operators o ho c hm) (by simp) hm

theorem type_eq_argument {t : Token Char} (ht : t ∈ tokens operators [] w) :
    (lexem t).type = .argument ↔ t.IsArg := by
  cases t with
  | op o  => exact iff_of_false (takeType_ofList.mpr (Munch.op_mem_tokens ht)) id
  | arg o => exact iff_of_true rfl trivial

theorem flatten_pieces : (pieces cs).flatten = cs.filter (!isSpace ·) :=
  Words.flatten_words

theorem isSpace_of_mem_pieces (h : w ∈ pieces cs) : ∀ c ∈ w, isSpace c = false :=
  Words.sep_of_mem_words h

-- What it means that nothing is lost in a line and that its lexems are as long as they can be.
structure MaximalMunch (input : String) (lexems : List Lexem) : Prop where
  reference : lexems = reference input
  concat    : lexems.flatMap (·.lexem.toList) = input.toList.filter (!isSpace ·)
  nonempty  : ∀ l ∈ lexems, l.lexem ≠ ""
  type      : ∀ l ∈ lexems, l.type = takeType l.lexem
  argument  : ∀ l ∈ lexems, l.type = .argument → ∀ c ∈ l.lexem.toList,
                isSpace c = false ∧ ∀ o ∈ operators, c ∉ o
  adjacent  : ∃ parts, lexems = parts.flatten ∧ List.Forall₂ (fun piece part =>
                part.flatMap (·.lexem.toList) = piece ∧
                part.IsChain fun l l' => l.type = .argument → l'.type ≠ .argument)
                  (pieces input.toList) parts

theorem mem_reference {l : Lexem} : l ∈ reference input ↔
    ∃ piece ∈ pieces input.toList, ∃ t ∈ tokens operators [] piece, lexem t = l := by
  simp [reference]

theorem isChain_piece (piece : List Char) : ((tokens operators [] piece).map lexem).IsChain
    fun l l' => l.type = .argument → l'.type ≠ .argument := by
  rw [List.isChain_map]
  refine (Munch.isChain_tokens operators [] piece).imp_of_mem_imp ?_
  intro t t' ht ht' h
  rw [ne_eq, type_eq_argument ht, type_eq_argument ht']
  exact h

theorem maximalMunch_reference (input : String) : MaximalMunch input (reference input) where
  reference := rfl
  concat    := by
    rw [reference, List.flatMap_assoc, ← flatten_pieces]
    simp only [flatMap_lexem, List.flatMap_id']
  nonempty  := by
    intro l hl he
    obtain ⟨piece, _, t, ht, rfl⟩ := mem_reference.mp hl
    apply Munch.tokens_ne_nil nil_notMem_operators ht
    rw [← toList_lexem, he]
    rfl
  type      := by
    intro l hl
    obtain ⟨piece, _, t, ht, rfl⟩ := mem_reference.mp hl
    exact type_eq_takeType ht
  argument  := by
    intro l hl ha c hc
    obtain ⟨piece, hp, t, ht, rfl⟩ := mem_reference.mp hl
    rw [toList_lexem] at hc
    have hm : c ∈ (tokens operators [] piece).flatMap Token.word :=
      List.mem_flatMap.mpr ⟨t, ht, hc⟩
    rw [Munch.tokens_word _ _ _ nil_notMem_operators] at hm
    refine ⟨isSpace_of_mem_pieces hp c hm, fun o ho hco => ?_⟩
    cases t with
    | op o'  => exact absurd ha (takeType_ofList.mpr (Munch.op_mem_tokens ht))
    | arg o' =>
      exact Munch.arg_mem_tokens ht (singleton_mem_operators o ho c hco) (by simp) hc
  adjacent  := by
    refine ⟨(pieces input.toList).map fun piece => (tokens operators [] piece).map lexem,
      rfl, ?_⟩
    rw [List.forall₂_map_right_iff, List.forall₂_same]
    exact fun piece _ => ⟨flatMap_lexem piece, isChain_piece piece⟩

theorem parse_maximalMunch (input : String) : MaximalMunch input (parse { input }).get :=
  parse_eq input ▸ maximalMunch_reference input

example : (parse { input := "a&&&>>b |" }).get.map (·.lexem) =
    ["a", "&&", "&", ">", ">", "b", "|"] := by
  decide

end LexemParser
