import Technosphere.Allocator.Theorems.FirstFit
import Technosphere.Allocator.Theorems.Integrity

open Set Tiling

namespace Allocator

variable {arena : Arena} {this id j k n f : ℕ} {w₀ w : World} {a : Allocator} {b : Block}

def freeSize (a : Allocator) : ℕ :=
  (a.freeBlocks.map (·.size)).sum

namespace WellFormed

theorem length_freeBlocks_le (h : a.WellFormed) :
    a.freeBlocks.length ≤ a.pointers.values.length + 1 := by
  apply length_le_of_separated h.separated h.tiles
  case hle => exact fun b _ => b.begin_le_stop
  case ha  => exact fun b hb => (h.free_bounds hb).1
  case hc  => exact fun b hb => b.begin_le_stop.trans (h.free_bounds hb).2
  case he  => exact fun b hb hz => h.empty_last b hb (by simpa [Block.stop] using hz)

theorem freeSize_le (h : a.WellFormed) (hs : ∀ b ∈ a.freeBlocks, b.size < n) :
    a.freeSize ≤ (a.pointers.values.length + 1) * (n - 1) := by
  have hsum : a.freeSize ≤ (a.freeBlocks.map (·.size)).length • (n - 1) :=
    List.sum_le_card_nsmul _ _ (List.forall_mem_map.mpr fun b hb => Nat.le_pred_of_lt (hs b hb))
  rw [List.length_map, smul_eq_mul] at hsum
  exact hsum.trans (Nat.mul_le_mul_right _ h.length_freeBlocks_le)

theorem alloc_ok (h : a.WellFormed) (hl : a.pointers.values.length ≤ k)
    (hf : (k + 1) * (n - 1) < a.freeSize) : ∃ p, (a.alloc this n).1 = .ok p := by
  cases a.alloc_cases this n with
  | zero _ eq | success _ _ _ _ _ _ _ eq => exact ⟨_, by rw [eq]⟩
  | noMemory _ full =>
    have hle := Nat.mul_le_mul_right (n - 1) (Nat.add_le_add_right hl 1)
    exact absurd ((h.freeSize_le full).trans hle) (by omega)

end WellFormed

theorem Invariant.exists_run_free (h : Invariant arena this w) (he : Even arena.size)
    (ids : List ℕ) : ∃ w', Nonempty (Run (Step this) w w') ∧
      (w'.allocators this).base₁ = (w.allocators this).base₁ ∧
      (w'.allocators this).memorySize₁ = (w.allocators this).memorySize₁ ∧
      ∀ id, (w'.allocators this).pointers.find? id =
        if id ∈ ids then none else (w.allocators this).pointers.find? id := by
  induction ids generalizing w with
  | nil         => exact ⟨w, ⟨.refl⟩, rfl, rfl, by simp⟩
  | cons i ids ih =>
    cases hf : (w.allocators this).pointers.find? i with
    | none   =>
      obtain ⟨w', r, hb, hm, hp⟩ := ih h
      refine ⟨w', r, hb, hm, fun id => ?_⟩
      by_cases hid : id = i <;> simp [hp, hid, hf]
    | some b =>
      have hd : w.Denotes this ⟨some this, i⟩ b := ⟨rfl, hf, h.nonnull hf⟩
      have hs : Step this w (.free ⟨some this, i⟩) (w.free this ⟨some this, i⟩).2.1 :=
        ⟨.inr ⟨rfl, h.wellFormed.find?_lt hf⟩, rfl⟩
      obtain ⟨w', ⟨r⟩, hb, hm, hp⟩ := ih (h.step he hs)
      obtain ⟨a, hw, _, bs, rfl⟩ := World.free_denotes hd h.wellFormed
      simp only [hw, World.update_allocators] at hb hm hp
      refine ⟨w', ⟨(Run.snoc .refl _ hs).append r⟩, hb, hm, fun id => ?_⟩
      by_cases hid : id = i <;> simp [hp, hid, SortedMap.find?_erase]

structure Bytes (arena : Arena) (this j : ℕ) (w : World) : Prop where
  blocks    : j < arena.size / 2 →
                (w.allocators this).freeBlocks = [⟨arena.base + j, arena.size / 2 - j⟩]
  base      : (w.allocators this).base₁ = arena.base
  size      : (w.allocators this).memorySize₁ = arena.size / 2
  pointerId : (w.allocators this).pointerId = j + 1
  find?_iff : ∀ id b, (w.allocators this).pointers.find? id = some b ↔
                ∃ i < j, id = i + 1 ∧ b = ⟨arena.base + i, 1⟩

theorem Bytes.initial (hi : Initial arena this w₀) : Bytes arena this 0 w₀ := by
  constructor <;> simp [show w₀.allocators this = _ from hi, init]

theorem Bytes.alloc (h : Bytes arena this j w) (hj : j < arena.size / 2) :
    Bytes arena this (j + 1) (w.alloc this 1).2 := by
  have hl := h.blocks hj
  cases (w.allocators this).alloc_cases this 1 with
  | zero hz         => omega
  | noMemory _ full => exact absurd (full _ (hl ▸ List.mem_singleton_self _)) (by simp; omega)
  | success _ l₁ b l₂ blocks enough first eq =>
    obtain ⟨rfl, rfl, rfl⟩ : l₁ = [] ∧ b = ⟨arena.base + j, arena.size / 2 - j⟩ ∧ l₂ = [] := by
      rw [hl] at blocks
      cases l₁ <;> simp_all
    have hf : (w.allocators this).pointers.find? (j + 1) = none := by
      by_contra hn
      obtain ⟨b, hb⟩ := Option.ne_none_iff_exists'.mp hn
      obtain ⟨i, hlt, hi, _⟩ := (h.find?_iff _ _).mp hb
      omega
    simp only [World.alloc, eq]
    constructor
    case blocks    =>
      intro hj'
      have := arena.fits
      simp only [World.update_allocators, Block.rest]
      rw [if_neg (by omega), Nat.mod_eq_of_lt (by omega)]
      simp [add_assoc, Nat.sub_sub]
    case base      => simpa using h.base
    case size      => simpa using h.size
    case pointerId => simp [h.pointerId]
    case find?_iff =>
      intro id b
      rw [World.update_allocators, h.pointerId, SortedMap.insert_of_find?_eq_none hf,
        SortedMap.find?_set]
      by_cases hid : id = j + 1
      case pos => simp [hid, eq_comm]
      case neg =>
        rw [if_neg hid, h.find?_iff]
        constructor
        · rintro ⟨i, hlt, hi⟩
          exact ⟨i, by omega, hi⟩
        · rintro ⟨i, hlt, hi⟩
          exact ⟨i, by omega, hi⟩

theorem exists_run_bytes (hi : Initial arena this w₀) (hj : j ≤ arena.size / 2) :
    ∃ w, Nonempty (Run (Step this) w₀ w) ∧ Bytes arena this j w := by
  induction j with
  | zero      => exact ⟨w₀, ⟨.refl⟩, .initial hi⟩
  | succ j ih =>
    obtain ⟨w, ⟨r⟩, h⟩ := ih (by omega)
    exact ⟨_, ⟨r.snoc (.alloc 1) ⟨trivial, rfl⟩⟩, h.alloc (by omega)⟩

structure Sparse (arena : Arena) (this n : ℕ) (w : World) : Prop where
  wellFormed : (w.allocators this).WellFormed
  base       : (w.allocators this).base₁ = arena.base
  size       : (w.allocators this).memorySize₁ = arena.size / 2
  find?_iff  : ∀ id b, (w.allocators this).pointers.find? id = some b ↔
                ∃ i < arena.size / 2, n ∣ i + 1 ∧ id = i + 1 ∧ b = ⟨arena.base + i, 1⟩

theorem exists_run_sparse (he : Even arena.size) (hi : Initial arena this w₀) (n : ℕ) :
    ∃ w, Nonempty (Run (Step this) w₀ w) ∧ Sparse arena this n w := by
  obtain ⟨w, ⟨r⟩, h⟩ := exists_run_bytes hi le_rfl
  obtain ⟨w', ⟨r'⟩, hb, hm, hf⟩ := (Invariant.run he hi r).exists_run_free he
    ((List.range (arena.size / 2 + 1)).filter (¬n ∣ ·))
  refine ⟨w', ⟨r.append r'⟩, (Invariant.run he hi (r.append r')).wellFormed, hb.trans h.base,
    hm.trans h.size, fun id b => ?_⟩
  rw [hf, Option.ite_none_left_eq_some, h.find?_iff]
  simp only [List.mem_filter, List.mem_range, decide_eq_true_eq, not_and, not_not]
  constructor
  · rintro ⟨hd, i, hlt, rfl, rfl⟩
    exact ⟨i, hlt, hd (by omega), rfl, rfl⟩
  · rintro ⟨i, hlt, hd, rfl, rfl⟩
    exact ⟨fun _ => hd, i, hlt, rfl, rfl⟩

namespace Sparse

variable (h : Sparse arena this n w)
include h

theorem length_le (hs : arena.size / 2 + 1 = (k + 1) * n) :
    (w.allocators this).pointers.values.length ≤ k := by
  have hsub : (w.allocators this).pointers.keys ⊆ (List.range k).map fun q => n * (q + 1) := by
    intro id hid
    obtain ⟨b, hb⟩ := Option.isSome_iff_exists.mp (SortedMap.mem_keys.mp hid)
    obtain ⟨i, hlt, ⟨q, hq⟩, rfl, _⟩ := (h.find?_iff _ _).mp hb
    have hlt : n * q < n * (k + 1) := by rw [mul_comm n (k + 1)]; omega
    have := Nat.lt_of_mul_lt_mul_left hlt
    cases q with
    | zero   => omega
    | succ q => exact List.mem_map.mpr ⟨q, List.mem_range.mpr (by omega), hq.symm⟩
  have hle := ((w.allocators this).pointers.keys_nodup.subperm hsub).length_le
  simpa [SortedMap.keys, SortedMap.values] using hle

theorem freeSize_ge (hn : 0 < n) (hs : arena.size / 2 + 1 = (k + 1) * n) :
    (k + 1) * (n - 1) ≤ (w.allocators this).freeSize := by
  have hone : ∀ b ∈ (w.allocators this).pointers.values, b.size ≤ 1 := by
    intro b hb
    obtain ⟨id, hb⟩ := SortedMap.mem_values.mp hb
    obtain ⟨i, _, _, _, rfl⟩ := (h.find?_iff _ _).mp hb
    exact le_rfl
  have hsum : (w.allocators this).liveSize ≤
      ((w.allocators this).pointers.values.map (·.size)).length • 1 :=
    List.sum_le_card_nsmul _ 1 (List.forall_mem_map.mpr hone)
  have hsize : (w.allocators this).freeSize + (w.allocators this).liveSize = arena.size / 2 :=
    h.wellFormed.size_add_liveSize.trans h.size
  have hmul : (k + 1) * (n - 1) + (k + 1) = (k + 1) * n := by
    rw [← Nat.mul_succ, Nat.succ_eq_add_one, Nat.sub_add_cancel hn]
  have := h.length_le hs
  rw [List.length_map, smul_eq_mul, mul_one] at hsum
  omega

theorem alloc_ne_ok (hn : 0 < n) : ¬∃ p, (w.alloc this n).1 = .ok p := by
  rw [World.alloc, h.wellFormed.alloc_unallocated_iff hn, not_exists]
  intro x hx
  have hb := (Ico_subset_Ico_iff (Nat.lt_add_of_pos_right hn)).mp hx.1
  rw [h.base, h.size] at hb
  have hdiv := Nat.div_add_mod (x - arena.base) n
  have hmod := Nat.mod_lt (x - arena.base) hn
  set q := (x - arena.base) / n
  let y := n * q + (n - 1)
  have hy : (w.allocators this).pointers.find? (y + 1) = some ⟨arena.base + y, 1⟩ :=
    (h.find?_iff _ _).mpr ⟨y, by omega, ⟨q + 1, by simp only [y, Nat.mul_succ]; omega⟩, rfl, rfl⟩
  have hyb : arena.base + y ∈ Block.span ⟨arena.base + y, 1⟩ := by
    simp [Block.span, Block.stop]
  have hyx : arena.base + y ∈ Ico x (x + n) := by
    constructor <;> omega
  exact Set.disjoint_left.mp (hx.2 _ (SortedMap.mem_values.mpr ⟨_, hy⟩)) hyb hyx

end Sparse

-- With at most `k` live blocks, `(k + 1) * (n - 1)` free bytes are what an allocation of `n` bytes
-- may not find enough.
theorem alloc_guaranteed_iff (hn : 0 < n) (hk : 2 * ((k + 1) * n) ≤ sizeRange) :
    (∀ (arena : Arena) (this : ℕ) (w₀ w : World), Even arena.size → Initial arena this w₀ →
      Run (Step this) w₀ w → (w.allocators this).pointers.values.length ≤ k →
      f ≤ (w.allocators this).freeSize → ∃ p, (w.alloc this n).1 = .ok p) ↔
    (k + 1) * (n - 1) < f := by
  constructor
  case mpr =>
    intro hf arena this w₀ w he hi r hl hw
    exact (Invariant.run he hi r).wellFormed.alloc_ok hl (hf.trans_le hw)
  case mp  =>
    intro h
    by_contra! hf
    have hpos : 0 < (k + 1) * n := Nat.mul_pos k.succ_pos hn
    let arena : Arena := ⟨1, 2 * ((k + 1) * n - 1), by decide, by omega⟩
    let w₀ : World := World.fresh arena
    have hs : arena.size / 2 + 1 = (k + 1) * n := by simp only [arena]; omega
    obtain ⟨w, ⟨r⟩, hw⟩ := exists_run_sparse (even_two_mul _) (show Initial arena 0 w₀ from rfl) n
    exact hw.alloc_ne_ok hn (h arena 0 w₀ w (even_two_mul _) rfl r (hw.length_le hs)
      (hf.trans (hw.freeSize_ge hn hs)))

theorem alloc_guaranteed_iff_of_three :
    (∀ (arena : Arena) (this : ℕ) (w₀ w : World), Even arena.size → Initial arena this w₀ →
      Run (Step this) w₀ w → (w.allocators this).pointers.values.length ≤ 2 →
      7 ≤ (w.allocators this).freeSize → ∃ p, (w.alloc this 3).1 = .ok p) ↔
    (2 + 1) * (3 - 1) < 7 :=
  alloc_guaranteed_iff (by decide) (by decide)

end Allocator
