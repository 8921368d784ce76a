import Technosphere.Lib.Words

-- The formatted input of the C++ standard library from a file with text, of which `rest` has yet to
-- be read.
structure TextStream where
  rest : List Char
  eof  : Bool
  fail : Bool
deriving DecidableEq

namespace TextStream

def opened (text : String) : TextStream where
  rest := text.toList
  eof  := false
  fail := false

-- The space and the control characters from the tab to the carriage return.
def isSpace (c : Char) : Bool :=
  c = ' ' || (9 ≤ c.toNat && c.toNat ≤ 13)

-- Whitespace in front of a value is skipped, and with nothing else left there is no value.
def skipSpace (s : TextStream) : TextStream :=
  if s.eof || s.fail then { s with fail := true }
  else
    let rest := s.rest.dropWhile isSpace
    { rest, eof := rest.isEmpty, fail := rest.isEmpty }

def extractInt (s : TextStream) (old : ℤ) : ℤ × TextStream :=
  let s := s.skipSpace
  if s.fail then (old, s)
  else
    let minus  := s.rest.head? = some '-'
    let text   := if s.rest.head? = some '+' ∨ minus then s.rest.tail else s.rest
    let digits := text.takeWhile Char.isDigit
    let rest   := text.dropWhile Char.isDigit
    let value  := (Nat.ofDigitChars 10 digits 0 : ℤ)
    let n      := if minus then -value else value
    (if digits = [] then 0 else max (-2 ^ 31) (min n (2 ^ 31 - 1)),
      { rest, eof := rest.isEmpty, fail := digits = [] ∨ n < -2 ^ 31 ∨ 2 ^ 31 ≤ n })

def extractChar (s : TextStream) (old : Char) : Char × TextStream :=
  let s := s.skipSpace
  if s.fail then (old, s) else (s.rest.headD old, { s with rest := s.rest.tail })

def extractString (s : TextStream) (old : String) : String × TextStream :=
  let s := s.skipSpace
  if s.fail then (old, s)
  else
    let rest := s.rest.dropWhile (!isSpace ·)
    (.ofList (s.rest.takeWhile (!isSpace ·)), { s with rest, eof := rest.isEmpty })

structure Ready (s : TextStream) : Prop where
  fail : s.fail = false
  eof  : s.eof = true → s.rest = []

variable {s : TextStream} {spaces more : List Char} {n : ℤ}

theorem ready_opened (text : String) : (opened text).Ready :=
  ⟨rfl, by simp [opened]⟩

theorem skipSpace_of_fail (h : s.fail = true) : s.skipSpace.fail = true := by
  simp [skipSpace, h]

theorem Ready.skipSpace_fail (h : s.Ready) :
    s.skipSpace.fail = true ↔ s.rest.dropWhile isSpace = [] := by
  rw [skipSpace, h.fail]
  cases he : s.eof with
  | true  => simp [h.eof he]
  | false => simp

theorem Ready.skipSpace_eq (h : s.Ready) (hn : s.rest.dropWhile isSpace ≠ []) :
    s.skipSpace = ⟨s.rest.dropWhile isSpace, false, false⟩ := by
  have he : s.eof = false := by
    by_contra he
    simp [h.eof (by simpa using he)] at hn
  simp [skipSpace, h.fail, he, hn]

theorem Ready.extractString_nil (h : s.Ready) (hn : s.rest.dropWhile isSpace = []) (old : String) :
    (s.extractString old).2.fail = true := by
  have hf := h.skipSpace_fail.mpr hn
  simp [extractString, hf]

theorem extractString_of_fail (h : s.fail = true) (old : String) :
    (s.extractString old).2.fail = true := by
  simp [extractString, skipSpace_of_fail h]

theorem Ready.extractString_eq (h : s.Ready) (hn : s.rest.dropWhile isSpace ≠ [])
    (old : String) : ∃ s', s.extractString old =
        (.ofList ((s.rest.dropWhile isSpace).takeWhile (!isSpace ·)), s') ∧ s'.Ready ∧
      s'.rest = (s.rest.dropWhile isSpace).dropWhile (!isSpace ·) := by
  simp only [extractString, h.skipSpace_eq hn]
  exact ⟨_, rfl, ⟨rfl, by simp⟩, rfl⟩

theorem Ready.skipSpace_cons (h : s.Ready) {c : Char} (hr : s.rest = c :: more)
    (hc : isSpace c = false) : s.skipSpace = ⟨c :: more, false, false⟩ := by
  have hd : s.rest.dropWhile isSpace = c :: more := by simp [hr, hc]
  rw [h.skipSpace_eq (by simp [hd]), hd]

theorem Ready.extractChar_eq (h : s.Ready) {c : Char} (hr : s.rest = c :: more)
    (hc : isSpace c = false) (old : Char) : s.extractChar old = (c, ⟨more, false, false⟩) := by
  simp [extractChar, h.skipSpace_cons hr hc]

theorem Ready.extractChar_nil (h : s.Ready) (hn : s.rest.dropWhile isSpace = []) (old : Char) :
    (s.extractChar old).2.fail = true := by
  have hf := h.skipSpace_fail.mpr hn
  simp [extractChar, hf]

theorem ready_extractInt {old : ℤ} (h : (s.extractInt old).2.fail = false) :
    (s.extractInt old).2.Ready := by
  refine ⟨h, ?_⟩
  by_cases hf : s.skipSpace.fail = true
  case pos => simp [extractInt, hf] at h
  case neg => simp [extractInt, hf, -List.dropWhile_eq_nil_iff]

theorem ready_extractChar {old : Char} (h : (s.extractChar old).2.fail = false) :
    (s.extractChar old).2.Ready := by
  refine ⟨h, ?_⟩
  by_cases hf : s.skipSpace.fail = true
  case pos => simp [extractChar, hf] at h
  case neg =>
    have he : s.skipSpace.eof = false := by
      simp only [skipSpace] at hf ⊢
      split_ifs at hf ⊢
      · exact absurd rfl hf
      · exact (Bool.not_eq_true _).mp hf
    simp [extractChar, hf, he]

theorem length_skipSpace : s.skipSpace.rest.length ≤ s.rest.length := by
  rw [skipSpace]
  split_ifs
  · rfl
  · exact (List.dropWhile_suffix _).length_le

theorem length_extractInt (old : ℤ) : (s.extractInt old).2.rest.length ≤ s.rest.length := by
  refine le_trans ?_ length_skipSpace
  simp only [extractInt]
  split_ifs
  · rfl
  all_goals
    refine (List.dropWhile_suffix _).length_le.trans ?_
    simp

theorem length_extractChar (old : Char) : (s.extractChar old).2.rest.length ≤ s.rest.length := by
  refine le_trans ?_ length_skipSpace
  simp only [extractChar]
  split_ifs <;> simp

theorem extractInt_stream (old old' : ℤ) : (s.extractInt old).2 = (s.extractInt old').2 := by
  simp only [extractInt]
  split_ifs <;> rfl

theorem isSpace_of_isDigit {c : Char} (h : c.isDigit = true) :
    isSpace c = false ∧ c ≠ '+' ∧ c ≠ '-' := by
  have hd : 48 ≤ c.toNat ∧ c.toNat ≤ 57 := by
    simpa [Char.isDigit, UInt32.le_iff_toNat_le, ← Char.toNat_val] using h
  refine ⟨?_, ?_, ?_⟩
  · simp only [isSpace, Bool.or_eq_false_iff, decide_eq_false_iff_not, Bool.and_eq_false_iff]
    exact ⟨by rintro rfl; simp at hd, by omega⟩
  · rintro rfl
    simp at hd
  · rintro rfl
    simp at hd

theorem mem_toString {c : Char} (h : c ∈ (toString n).toList) : c = '-' ∨ c.isDigit = true := by
  rw [Int.toString_eq_repr, Int.repr_eq_if] at h
  split_ifs at h
  · rw [Nat.toList_repr] at h
    exact .inr (Nat.isDigit_of_mem_toDigits (by decide) (by decide) h)
  · rw [String.toList_append, Nat.toList_repr] at h
    rcases List.mem_append.mp h with h | h
    · exact .inl (by simpa using h)
    · exact .inr (Nat.isDigit_of_mem_toDigits (by decide) (by decide) h)

theorem takeWhile_toDigits (m : ℕ) (hm : ∀ c ∈ more.head?, c.isDigit = false) :
    (Nat.toDigits 10 m ++ more).takeWhile Char.isDigit = Nat.toDigits 10 m ∧
      (Nat.toDigits 10 m ++ more).dropWhile Char.isDigit = more := by
  have hd : ∀ c ∈ Nat.toDigits 10 m, c.isDigit = true := fun c hc =>
    Nat.isDigit_of_mem_toDigits (by decide) (by decide) hc
  rw [List.takeWhile_append_of_pos hd, List.dropWhile_append_of_pos hd]
  cases more with
  | nil         => simp
  | cons c more => simp [hm c rfl]

theorem Ready.extractInt_text (h : s.Ready) (hr : s.rest = (toString n).toList ++ more)
    (hm : ∀ c ∈ more.head?, c.isDigit = false) (hl : -2 ^ 31 ≤ n) (hu : n < 2 ^ 31) (old : ℤ) :
    s.extractInt old = (n, ⟨more, more.isEmpty, false⟩) := by
  obtain ⟨d, ds, hds⟩ := List.exists_cons_of_ne_nil (Nat.toDigits_ne_nil (n := n.natAbs) (b := 10))
  obtain ⟨ht, hd⟩ := takeWhile_toDigits n.natAbs hm
  have hdig : d.isDigit = true :=
    Nat.isDigit_of_mem_toDigits (b := 10) (n := n.natAbs) (by decide) (by decide) (by simp [hds])
  obtain ⟨hsp, hplus, hminus⟩ := isSpace_of_isDigit hdig
  have hc : max (-2 ^ 31) (min n (2 ^ 31 - 1)) = n := by
    have hu : n ≤ 2 ^ 31 - 1 := by omega
    rw [min_eq_left hu, max_eq_right hl]
  have hf : ¬(False ∨ n < -2 ^ 31 ∨ 2 ^ 31 ≤ n) := by
    rw [false_or, not_or, not_lt, not_le]
    exact ⟨hl, hu⟩
  have hv : Nat.ofDigitChars 10 (Nat.toDigits 10 n.natAbs) 0 = n.natAbs :=
    Nat.ofDigitChars_ten_toDigits
  rcases Int.lt_or_le n 0 with hn | hn
  · have hs : s.rest = '-' :: (Nat.toDigits 10 n.natAbs ++ more) := by
      rw [hr, Int.toString_eq_repr, Int.repr_eq_if, if_neg (by omega)]
      simp [show (-n).toNat = n.natAbs by omega]
    have hk := h.skipSpace_cons hs (by decide)
    simp only [extractInt, hk, Bool.false_eq_true, ↓reduceIte, List.head?_cons, Option.some.injEq,
      List.tail_cons, or_true, ht, hd, hv, Nat.toDigits_ne_nil]
    rw [show -(n.natAbs : ℤ) = n by omega, hc, decide_eq_false hf]
  · have hs : s.rest = d :: (ds ++ more) := by
      rw [hr, Int.toString_eq_repr, Int.repr_eq_if, if_pos hn, Nat.toList_repr,
        show n.toNat = n.natAbs by omega, hds]
      rfl
    have hk := h.skipSpace_cons hs hsp
    rw [hds, List.cons_append] at ht hd
    simp only [extractInt, hk, Bool.false_eq_true, ↓reduceIte, List.head?_cons, Option.some.injEq,
      hplus, hminus, or_self, ht, hd, ← hds, hv, Nat.toDigits_ne_nil]
    rw [show (n.natAbs : ℤ) = n by omega, hc, decide_eq_false hf]

end TextStream
