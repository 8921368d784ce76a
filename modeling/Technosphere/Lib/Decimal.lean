import Mathlib

namespace Decimal

-- `'0'` is 48.
def isDigit (b : UInt8) : Bool :=
  48 ≤ b ∧ b ≤ 57

def digit (d : ℕ) : UInt8 :=
  .ofNat (48 + d)

def text (n : ℕ) : List UInt8 :=
  if n = 0 then [digit 0] else (Nat.digits 10 n).reverse.map digit

def value (bs : List UInt8) : ℕ :=
  bs.foldl (fun v b => 10 * v + (b.toNat - 48)) 0

variable {n d : ℕ}

theorem digit_toNat (h : d < 10) : (digit d).toNat = 48 + d := by
  simp only [digit, UInt8.toNat_ofNat']
  omega

theorem isDigit_digit (h : d < 10) : isDigit (digit d) := by
  simp only [isDigit, UInt8.le_iff_toNat_le, digit_toNat h, Bool.decide_and, Bool.and_eq_true,
    decide_eq_true_eq]
  exact ⟨Nat.le_add_right .., Nat.add_le_add_left (Nat.le_of_lt_succ h) 48⟩

theorem text_ne_nil : text n ≠ [] := by
  by_cases h : n = 0
  case pos => simp [text, h]
  case neg => simpa [text, h] using Nat.digits_ne_nil_iff_ne_zero.mpr h

theorem length_text_pos : 0 < (text n).length :=
  List.length_pos_of_ne_nil text_ne_nil

theorem isDigit_of_mem_text : ∀ b ∈ text n, isDigit b := by
  intro b hb
  by_cases h : n = 0
  case pos =>
    obtain rfl : b = digit 0 := by simpa [text, h] using hb
    exact isDigit_digit (by simp)
  case neg =>
    simp only [text, h, if_false, List.mem_map, List.mem_reverse] at hb
    obtain ⟨d, hd, rfl⟩ := hb
    exact isDigit_digit (Nat.digits_lt_base (by simp) hd)

theorem value_map_digit {ds : List ℕ} (h : ∀ d ∈ ds, d < 10) :
    value (ds.reverse.map digit) = Nat.ofDigits 10 ds := by
  induction ds with
  | nil => rfl
  | cons d ds ih =>
    simp only [List.mem_cons, forall_eq_or_imp] at h
    have := ih h.2
    simp only [value] at this
    simp only [value, List.reverse_cons, List.map_append, List.foldl_append, this, List.map_cons,
      List.map_nil, List.foldl_cons, List.foldl_nil, digit_toNat h.1, Nat.ofDigits_cons]
    simp [Nat.add_comm]

theorem value_text : value (text n) = n := by
  by_cases h : n = 0
  case pos =>
    rw [h]
    rfl
  case neg =>
    simp only [text, h, if_false]
    rw [value_map_digit fun d hd => Nat.digits_lt_base (by simp) hd, Nat.ofDigits_digits]

end Decimal
