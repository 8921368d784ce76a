import Mathlib

abbrev Memory := ℕ → UInt8

namespace Memory

def write (m : Memory) (x : ℕ) (v : UInt8) : Memory :=
  Function.update m x v

structure Copy where
  dst : ℕ
  src : ℕ
  len : ℕ
deriving DecidableEq, Repr

namespace Copy

def Inside (c : Copy) (lo hi : ℕ) : Prop :=
  lo ≤ c.dst ∧ c.dst + c.len ≤ hi

def apply (m : Memory) (c : Copy) : Memory :=
  fun x => if c.dst ≤ x ∧ x < c.dst + c.len then m (c.src + (x - c.dst)) else m x

variable {c : Copy} {m : Memory}

theorem apply_dst (h : i < c.len) : apply m c (c.dst + i) = m (c.src + i) := by
  simp [apply, h]

theorem apply_outside (h : x < c.dst ∨ c.dst + c.len ≤ x) : apply m c x = m x := by
  simp only [apply]
  split_ifs
  · omega
  · rfl

end Copy

def copyAll (m : Memory) (cs : List Copy) : Memory :=
  cs.foldl Copy.apply m

variable {m : Memory} {cs : List Copy}

@[simp]
theorem copyAll_nil : m.copyAll [] = m :=
  rfl

@[simp]
theorem copyAll_cons : m.copyAll (c :: cs) = (Copy.apply m c).copyAll cs :=
  rfl

theorem copyAll_outside (h : ∀ c ∈ cs, x < c.dst ∨ c.dst + c.len ≤ x) : m.copyAll cs x = m x := by
  induction cs generalizing m with
  | nil => rfl
  | cons c cs hi =>
    simp only [List.mem_cons, forall_eq_or_imp] at h
    rw [copyAll_cons, hi h.2, Copy.apply_outside h.1]

-- Copies to consecutive targets above `lo` and below `hi` that only read from outside of that range
-- bring over the bytes that were there before the first of them.
theorem copyAll_dst
    (hs : cs.Pairwise fun c₁ c₂ => c₁.dst + c₁.len ≤ c₂.dst) (hd : ∀ c ∈ cs, c.Inside lo hi)
    (ho : ∀ c ∈ cs, c.src + c.len ≤ lo ∨ hi ≤ c.src) (hc : c ∈ cs) (hi : i < c.len) :
    m.copyAll cs (c.dst + i) = m (c.src + i) := by
  induction cs generalizing m with
  | nil => simp at hc
  | cons c' cs ih =>
    simp only [List.mem_cons, forall_eq_or_imp] at hd ho
    have ⟨hlt, hs⟩ := List.pairwise_cons.mp hs
    simp only [copyAll_cons]
    cases List.mem_cons.mp hc with
    | inl h =>
      subst h
      rw [copyAll_outside fun d hd => .inl (by have := hlt d hd; omega), Copy.apply_dst hi]
    | inr h =>
      have := ho.2 c h
      have := hd.1
      simp only [Copy.Inside] at this
      rw [ih hs hd.2 ho.2 h, Copy.apply_outside (by omega)]

end Memory
