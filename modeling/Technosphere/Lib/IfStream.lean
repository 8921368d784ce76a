import Technosphere.Lib.Decimal
import Technosphere.Lib.LittleEndian

-- The input file stream of the C++ standard library, for a file with the bytes `content`.
structure IfStream where
  content : List UInt8
  pos     : ℕ
  eof     : Bool
  fail    : Bool
deriving DecidableEq

namespace IfStream

def opened (content : List UInt8) : IfStream where
  content := content
  pos     := 0
  eof     := false
  fail    := false

def rest (s : IfStream) : List UInt8 :=
  s.content.drop s.pos

def good (s : IfStream) : Bool :=
  !s.eof && !s.fail

def isSpace (b : UInt8) : Bool :=
  b = 32 ∨ (9 ≤ b ∧ b ≤ 13)

def advance (s : IfStream) (n : ℕ) : IfStream :=
  { s with pos := s.pos + n }

-- `tellg()`, which counts as input: at the end of the file it fails.
def tellg (s : IfStream) : ℤ × IfStream :=
  if s.good then (s.pos, s) else (-1, { s with fail := true })

def seekg (s : IfStream) (pos : ℕ) : IfStream :=
  if s.fail then { s with eof := false } else { s with eof := false, pos := pos }

def read (s : IfStream) (n : ℕ) : List UInt8 × IfStream :=
  if s.good then
    let bytes := s.rest.take n
    (bytes, { s.advance bytes.length with eof := bytes.length < n, fail := bytes.length < n })
  else ([], { s with fail := true })

def readValue (s : IfStream) (w old : ℕ) : ℕ × IfStream :=
  let (bytes, s) := s.read w
  (LittleEndian.value (bytes ++ (LittleEndian.bytes w old).drop bytes.length), s)

def extract (s : IfStream) (old : ℕ) : ℕ × IfStream :=
  if s.good then
    let spaces := s.rest.takeWhile isSpace
    let text   := s.rest.dropWhile isSpace
    if text = [] then (old, { s with pos := s.content.length, eof := true, fail := true })
    else
      let minus  := text.head? = some 45
      let sign   := if text.head? = some 43 ∨ minus then 1 else 0
      let digits := (text.drop sign).takeWhile Decimal.isDigit
      let n      := Decimal.value digits
      let s      := { s.advance (spaces.length + sign + digits.length) with
        eof  := text.drop (sign + digits.length) = []
        fail := digits = [] ∨ 2 ^ 64 ≤ n }
      if digits = [] then (0, s)
      else if 2 ^ 64 ≤ n then (2 ^ 64 - 1, s)
      else if minus then ((2 ^ 64 - n) % 2 ^ 64, s)
      else (n, s)
  else (old, { s with fail := true })

def extractPair (s : IfStream) (old : ℕ × ℕ) : (ℕ × ℕ) × IfStream :=
  let (fst, s) := s.extract old.1
  let (snd, s) := s.extract old.2
  ((fst, snd), s)

variable {s : IfStream} {w n old : ℕ} {spaces more bytes : List UInt8}

theorem eof_of_good (h : s.good) : s.eof = false := by
  simp_all [good]

theorem fail_of_good (h : s.good) : s.fail = false := by
  simp_all [good]

@[simp]
theorem rest_advance : (s.advance n).rest = s.rest.drop n :=
  List.drop_drop.symm

theorem tellg_of_good (h : s.good) : s.tellg = (↑s.pos, s) := by
  simp [tellg, h]

theorem seekg_of_good (h : s.good) : s.seekg n = { s with pos := n } := by
  simp [seekg, fail_of_good h, eof_of_good h]

@[simp]
theorem content_seekg : (s.seekg n).content = s.content := by
  unfold seekg
  split_ifs <;> rfl

theorem read_of_good (h : s.good) (hr : s.rest = bytes ++ more) :
    s.read bytes.length = (bytes, s.advance bytes.length) := by
  simp [read, h, hr, advance, eof_of_good h, fail_of_good h]

structure Holds (s : IfStream) (bytes : List UInt8) : Prop where
  good : s.good
  rest : s.rest = bytes

theorem Holds.opened : Holds (.opened bytes) bytes where
  good := rfl
  rest := rfl

theorem Holds.seekg (h : Holds s bytes) (hc : s.content.drop n = more) :
    (s.seekg n).Holds more := by
  rw [seekg_of_good h.good]
  exact ⟨h.good, hc⟩

theorem Holds.readValue (h : s.Holds (LittleEndian.bytes w n ++ more)) (hn : n < 256 ^ w)
    (old : ℕ) : ∃ s', s.readValue w old = (n, s') ∧ s'.Holds more := by
  refine ⟨s.advance w, ?_, h.good, by simp [h.rest]⟩
  have hb := read_of_good h.good h.rest
  have hd : (LittleEndian.bytes w old).drop w = [] := List.drop_of_length_le (by simp)
  simp only [LittleEndian.length_bytes] at hb
  simp [IfStream.readValue, hb, hd, LittleEndian.value_bytes hn]

-- A value that the file ends inside of overwrites the low bytes of the variable.
theorem Holds.readValue_short (h : s.Holds bytes) (hw : bytes.length < w) (old : ℕ) :
    ∃ s', s.readValue w old =
        (LittleEndian.value (bytes ++ (LittleEndian.bytes w old).drop bytes.length), s') ∧
      s'.fail := by
  have ht : bytes.take w = bytes := List.take_of_length_le hw.le
  simp [IfStream.readValue, IfStream.read, h.good, h.rest, ht, hw]

theorem Holds.readValue_nil (h : s.Holds []) (hw : 0 < w) (old : ℕ) :
    (s.readValue w old).2.fail := by
  obtain ⟨s', hs, hf⟩ := h.readValue_short (w := w) hw old
  rwa [hs]

theorem readValue_fail (h : s.fail) (w old : ℕ) : (s.readValue w old).2.fail := by
  simp [readValue, read, good, h]

theorem isSpace_of_isDigit {b : UInt8} (h : Decimal.isDigit b) : isSpace b = false := by
  simp only [Decimal.isDigit, isSpace, Bool.decide_and, Bool.and_eq_true, decide_eq_true_eq,
    decide_eq_false_iff_not, UInt8.le_iff_toNat_le, ← UInt8.toNat_inj, UInt8.reduceToNat] at h ⊢
  omega

theorem sign_of_isDigit {b : UInt8} (h : Decimal.isDigit b) : b ≠ 43 ∧ b ≠ 45 := by
  simp only [Decimal.isDigit, Bool.decide_and, Bool.and_eq_true, decide_eq_true_eq,
    UInt8.le_iff_toNat_le, ne_eq, ← UInt8.toNat_inj, UInt8.reduceToNat] at h ⊢
  omega

theorem extract_text (h : s.good) (hr : s.rest = spaces ++ Decimal.text n ++ 32 :: more)
    (hs : ∀ b ∈ spaces, isSpace b) (hn : n < 2 ^ 64) :
    s.extract old = (n, s.advance (spaces.length + (Decimal.text n).length)) := by
  have hd := Decimal.isDigit_of_mem_text (n := n)
  obtain ⟨b, bs, ht⟩ := List.exists_cons_of_ne_nil (Decimal.text_ne_nil (n := n))
  have hb : Decimal.isDigit b := hd b (by simp [ht])
  have h₁ : s.rest.takeWhile isSpace = spaces := by
    rw [hr, List.append_assoc, List.takeWhile_append_of_pos hs, ht]
    simp [isSpace_of_isDigit hb]
  have h₂ : s.rest.dropWhile isSpace = Decimal.text n ++ 32 :: more := by
    rw [hr, List.append_assoc, List.dropWhile_append_of_pos hs, ht]
    simp [isSpace_of_isDigit hb]
  have h₃ : (Decimal.text n ++ 32 :: more).takeWhile Decimal.isDigit = Decimal.text n := by
    rw [List.takeWhile_append_of_pos hd]
    simp [Decimal.isDigit]
  have hh : (Decimal.text n ++ 32 :: more).head? = some b := by simp [ht]
  obtain ⟨hp, hm⟩ := sign_of_isDigit hb
  norm_num at hn
  simp [extract, h, h₁, h₂, h₃, hh, hp, hm, hn.not_ge, Decimal.text_ne_nil, Decimal.value_text,
    advance, eof_of_good h, fail_of_good h]

theorem extract_of_spaces (h : s.good) (hr : ∀ b ∈ s.rest, isSpace b) :
    s.extract old = (old, { s with pos := s.content.length, eof := true, fail := true }) := by
  have : s.rest.dropWhile isSpace = [] := List.dropWhile_eq_nil_iff.mpr hr
  simp [extract, h, this]

theorem extract_of_not_good (h : s.good = false) :
    s.extract old = (old, { s with fail := true }) := by
  simp [extract, h]

end IfStream
