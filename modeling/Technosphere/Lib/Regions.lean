import Technosphere.Lib.Memory

open Set

-- Regions of memory. Copies within a region are determined by its bytes, and change no others.
namespace Memory

variable {m m' : Memory} {R R' : Set ℕ} {c : Copy} {cs : List Copy} {x : ℕ} {v : UInt8}

structure Copy.Within (c : Copy) (R : Set ℕ) : Prop where
  dst : Ico c.dst (c.dst + c.len) ⊆ R
  src : Ico c.src (c.src + c.len) ⊆ R

theorem Copy.Within.eqOn (h : c.Within R) (he : EqOn m m' R) : EqOn (c.apply m) (c.apply m') R := by
  intro y hy
  simp only [Copy.apply]
  split_ifs with hd
  · exact he (h.src ⟨by omega, by omega⟩)
  · exact he hy

theorem Copy.Within.eqOn_of_disjoint (h : c.Within R) (hd : Disjoint R R') :
    EqOn (c.apply m) m R' := by
  intro y hy
  apply Copy.apply_outside
  by_contra! hn
  exact Set.disjoint_left.mp hd (h.dst hn) hy

theorem copyAll_eqOn (h : ∀ c ∈ cs, c.Within R) (he : EqOn m m' R) :
    EqOn (m.copyAll cs) (m'.copyAll cs) R := by
  induction cs generalizing m m' with
  | nil          => exact he
  | cons c cs ih =>
    have ⟨hc, h⟩ := List.forall_mem_cons.mp h
    exact ih h (hc.eqOn he)

theorem copyAll_eqOn_of_disjoint (h : ∀ c ∈ cs, c.Within R) (hd : Disjoint R R') :
    EqOn (m.copyAll cs) m R' := by
  induction cs generalizing m with
  | nil          => exact fun _ _ => rfl
  | cons c cs ih =>
    have ⟨hc, h⟩ := List.forall_mem_cons.mp h
    exact (ih h).trans (hc.eqOn_of_disjoint hd)

theorem write_eqOn (he : EqOn m m' R) : EqOn (m.write x v) (m'.write x v) R := by
  intro y hy
  simp only [write, Function.update_apply, he hy]

theorem write_eqOn_of_not_mem (hx : x ∉ R) : EqOn (m.write x v) m R :=
  fun _ hy => Function.update_of_ne (ne_of_mem_of_not_mem hy hx) ..

end Memory
