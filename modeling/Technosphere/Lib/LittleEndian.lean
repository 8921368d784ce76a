import Mathlib

namespace LittleEndian

-- The `w` low bytes of a number, the lowest one first.
def bytes : ℕ → ℕ → List UInt8
  | 0,     _ => []
  | w + 1, n => .ofNat n :: bytes w (n / 256)

def value : List UInt8 → ℕ
  | []      => 0
  | b :: bs => b.toNat + 256 * value bs

variable {w n : ℕ}

@[simp]
theorem length_bytes : (bytes w n).length = w := by
  induction w generalizing n with
  | zero => rfl
  | succ w ih => simp [bytes, ih]

theorem value_bytes (h : n < 256 ^ w) : value (bytes w n) = n := by
  induction w generalizing n with
  | zero =>
    have : n = 0 := by simpa using h
    rw [this]
    rfl
  | succ w ih =>
    have hd : n / 256 < 256 ^ w := by
      rw [pow_succ] at h
      exact Nat.div_lt_of_lt_mul (Nat.mul_comm .. ▸ h)
    rw [bytes, value, ih hd, UInt8.toNat_ofNat']
    exact Nat.mod_add_div n 256

theorem value_lt (bs : List UInt8) : value bs < 256 ^ bs.length := by
  induction bs with
  | nil => simp [value]
  | cons b bs ih =>
    have := b.toNat_lt
    simp only [value, List.length_cons, pow_succ]
    omega

theorem bytes_value (bs : List UInt8) : bytes bs.length (value bs) = bs := by
  induction bs with
  | nil => rfl
  | cons b bs ih =>
    have hd : (b.toNat + 256 * value bs) / 256 = value bs := by
      have := b.toNat_lt
      omega
    rw [value, List.length_cons, bytes, hd, ih]
    simp

end LittleEndian
