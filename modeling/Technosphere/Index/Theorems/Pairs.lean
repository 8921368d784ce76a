import Technosphere.Index.Basic

namespace Index

variable {p : WordDoc} {ps qs : List WordDoc} {s : IfStream}

def Fits (p : WordDoc) : Prop :=
  (ofLex p).1 < 2 ^ 64 ∧ (ofLex p).2 < 2 ^ 64

@[simp]
theorem pairsText_nil : pairsText [] = [] :=
  rfl

@[simp]
theorem pairsText_cons : pairsText (p :: ps) = pairText p ++ pairsText ps :=
  List.flatMap_cons

@[simp]
theorem pairsText_append : pairsText (ps ++ qs) = pairsText ps ++ pairsText qs :=
  List.flatMap_append

theorem length_pairsText_perm (h : ps.Perm qs) :
    (pairsText ps).length = (pairsText qs).length :=
  (h.flatMap_right pairText).length_eq

theorem four_le_length_pairText : 4 ≤ (pairText p).length := by
  have h₁ := Decimal.length_text_pos (n := (ofLex p).1)
  have h₂ := Decimal.length_text_pos (n := (ofLex p).2)
  simp only [pairText, List.length_append, List.length_cons, List.length_nil]
  omega

theorem exists_pairsText_eq (h : ps ≠ []) : ∃ bs, pairsText ps = bs ++ [32] := by
  have ⟨qs, p, hp⟩ := List.eq_nil_or_concat ps |>.resolve_left h
  refine ⟨pairsText qs ++ (Decimal.text (ofLex p).1 ++ 32 :: Decimal.text (ofLex p).2), ?_⟩
  simp [hp, pairText]

theorem length_le_length_pairsText : ps.length ≤ (pairsText ps).length := by
  induction ps with
  | nil => simp
  | cons p ps ih =>
    have := four_le_length_pairText (p := p)
    simp only [pairsText_cons, List.length_append, List.length_cons]
    omega

theorem eq_nil_of_length_pairsText (h : (pairsText ps).length = 0) : ps = [] :=
  List.eq_nil_of_length_eq_zero (Nat.le_zero.mp (h ▸ length_le_length_pairsText))

-- The position in a file of the length `len` of the space in front of its last pairs.
def position (len : ℕ) (ps : List WordDoc) : ℕ :=
  len - (pairsText ps).length - 1

-- What the stream has yet to read is these pairs, perhaps with the space after the last one.
structure Reads (s : IfStream) (ps : List WordDoc) : Prop where
  good : s.good
  rest : s.rest = pairsText ps ∨ s.rest = 32 :: pairsText ps

namespace Reads

theorem opened (h : s = .opened (pairsText ps)) : Reads s ps where
  good := h ▸ rfl
  rest := .inl (h ▸ rfl)

theorem exists_spaces (h : Reads s ps) : ∃ spaces : List UInt8,
    s.rest = spaces ++ pairsText ps ∧ ∀ b ∈ spaces, IfStream.isSpace b := by
  rcases h.rest with hr | hr
  · exact ⟨[], hr, by simp⟩
  · exact ⟨[32], hr, by simp [IfStream.isSpace]⟩

theorem extractPair_nil (h : Reads s []) (old : ℕ × ℕ) : (s.extractPair old).2.fail := by
  have hs : ∀ b ∈ s.rest, IfStream.isSpace b := by
    have ⟨spaces, hr, hs⟩ := h.exists_spaces
    simpa [hr] using hs
  have hg : IfStream.good { s with pos := s.content.length, eof := true, fail := true } = false :=
    rfl
  rw [IfStream.extractPair, IfStream.extract_of_spaces h.good hs]
  simp [IfStream.extract_of_not_good hg]

theorem pos_eq_position (h : s.rest = 32 :: pairsText ps) :
    s.pos = position s.content.length ps := by
  have hl : s.content.length - s.pos = (pairsText ps).length + 1 := by
    have := congrArg List.length h
    simpa [IfStream.rest] using this
  rw [position]
  omega

theorem extractPair_cons (h : Reads s (p :: ps)) (hp : Fits p) (old : ℕ × ℕ) :
    s.extractPair old = (ofLex p, { s with pos := position s.content.length ps }) ∧
      Reads { s with pos := position s.content.length ps } ps := by
  have ⟨spaces, hr, hs⟩ := h.exists_spaces
  let s₁ := s.advance (spaces.length + (Decimal.text (ofLex p).1).length)
  let s₂ := s₁.advance (1 + (Decimal.text (ofLex p).2).length)
  have hr : s.rest = spaces ++ Decimal.text (ofLex p).1 ++
      32 :: (Decimal.text (ofLex p).2 ++ 32 :: pairsText ps) := by
    simp [hr, pairText]
  have hr₁ : s₁.rest = [32] ++ Decimal.text (ofLex p).2 ++ 32 :: pairsText ps := by
    simp [s₁, hr, ← List.drop_drop]
  have hr₂ : s₂.rest = 32 :: pairsText ps := by
    simp only [s₂, IfStream.rest_advance, hr₁]
    exact List.drop_left' (by simp [Nat.add_comm])
  have he₁ : s.extract old.1 = ((ofLex p).1, s₁) := IfStream.extract_text h.good hr hs hp.1
  have he₂ : s₁.extract old.2 = ((ofLex p).2, s₂) :=
    IfStream.extract_text (s := s₁) h.good hr₁ (by simp [IfStream.isSpace]) hp.2
  have hs₂ : s₂ = { s with pos := position s.content.length ps } := by
    have hp : s₂.pos = position s.content.length ps := pos_eq_position hr₂
    rw [← hp]
    rfl
  constructor
  · simp [IfStream.extractPair, he₁, he₂, hs₂]
  · exact hs₂ ▸ ⟨h.good, .inr hr₂⟩

theorem seekg (hg : s.good) (hc : s.content = pairsText (qs ++ ps)) :
    Reads (s.seekg (position s.content.length ps)) ps := by
  rw [IfStream.seekg_of_good hg]
  refine ⟨hg, ?_⟩
  rw [pairsText_append] at hc
  by_cases hq : qs = []
  case pos =>
    left
    simp [IfStream.rest, position, hc, hq]
  case neg =>
    right
    have ⟨bs, hb⟩ := exists_pairsText_eq hq
    have hp : position s.content.length ps = bs.length := by
      simp only [position, hc, hb, List.length_append, List.length_singleton]
      omega
    rw [hp]
    simp [IfStream.rest, hc, hb]

end Reads

end Index
