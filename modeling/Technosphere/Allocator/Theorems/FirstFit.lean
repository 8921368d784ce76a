import Technosphere.Allocator.Theorems.Safety

open Set Tiling

namespace Allocator

variable {arena : Arena} {this x y m n : ℕ} {w₀ w : World} {a : Allocator} {b : Block}

def Unallocated (a : Allocator) (x n : ℕ) : Prop :=
  Ico x (x + n) ⊆ Ico a.base₁ (a.base₁ + a.memorySize₁) ∧
    ∀ b ∈ a.pointers.values, Disjoint b.span (Ico x (x + n))

structure Gap (a : Allocator) (x n : ℕ) : Prop where
  pos         : 0 < n
  unallocated : a.Unallocated x n
  maximal     : ∀ y m, a.Unallocated y m → Ico x (x + n) ⊆ Ico y (y + m) → y = x ∧ m = n

namespace WellFormed

theorem unallocated_of_mem (h : a.WellFormed) (hb : b ∈ a.freeBlocks) :
    a.Unallocated b.begin b.size := by
  have ⟨_, _, hd⟩ := List.pairwise_append.mp h.tiles.pairwise_disjoint
  exact ⟨h.tiles.subset (List.mem_append_left _ hb), fun c hc => (hd b hb c hc).symm⟩

-- As the list of free blocks is coalesced, bytes that are unallocated are in one free block.
theorem exists_mem_of_unallocated (h : a.WellFormed) (hn : 0 < n) (hu : a.Unallocated x n) :
    ∃ b ∈ a.freeBlocks, Ico x (x + n) ⊆ b.span := by
  apply exists_Ico_subset h.separated (Nat.lt_add_of_pos_right hn)
  intro y hy
  have ⟨b, hb, hyb⟩ := h.tiles.mem_iff.mp (hu.1 hy)
  refine ⟨b, (List.mem_append.mp hb).resolve_right fun hb => ?_, hyb⟩
  exact Set.disjoint_left.mp (hu.2 b hb) hyb hy

theorem gap_iff_mem (h : a.WellFormed) : a.Gap x n ↔ 0 < n ∧ ⟨x, n⟩ ∈ a.freeBlocks := by
  constructor
  case mp  =>
    intro hg
    have ⟨b, hb, hs⟩ := h.exists_mem_of_unallocated hg.pos hg.unallocated
    have ⟨hx, hn⟩ := hg.maximal _ _ (h.unallocated_of_mem hb) hs
    exact ⟨hg.pos, hx ▸ hn ▸ hb⟩
  case mpr =>
    intro ⟨hn, hb⟩
    refine ⟨hn, h.unallocated_of_mem hb, fun y m hu hs => ?_⟩
    have hx := (Ico_subset_Ico_iff (Nat.lt_add_of_pos_right hn)).mp hs
    have hm : 0 < m := by omega
    have ⟨c, hc, hcs⟩ := h.exists_mem_of_unallocated hm hu
    have hy := (Ico_subset_Ico_iff (Nat.lt_add_of_pos_right hm)).mp hcs
    -- Both free blocks have the byte at `x`.
    rcases eq_or_separated h.separated hb hc with rfl | hsep | hsep <;>
      simp only [Block.stop] at * <;> omega

theorem alloc_unallocated_iff (h : a.WellFormed) (hn : 0 < n) :
    (∃ p, (a.alloc this n).1 = .ok p) ↔ ∃ x, a.Unallocated x n := by
  constructor
  case mp  =>
    intro ⟨p, hp⟩
    cases a.alloc_cases this n with
    | zero hz          => omega
    | noMemory _ _ eq  => simp [eq] at hp
    | success _ l₁ b l₂ blocks enough =>
      have ⟨hr, hd⟩ := h.unallocated_of_mem (b := b) (by simp [blocks])
      have hs : Ico b.begin (b.begin + n) ⊆ Ico b.begin (b.begin + b.size) :=
        Ico_subset_Ico_right (Nat.add_le_add_left enough _)
      exact ⟨b.begin, hs.trans hr, fun c hc => (hd c hc).mono_right hs⟩
  case mpr =>
    intro ⟨x, hx⟩
    have ⟨b, hb, hs⟩ := h.exists_mem_of_unallocated hn hx
    have hle := (Ico_subset_Ico_iff (Nat.lt_add_of_pos_right hn)).mp hs
    cases a.alloc_cases this n with
    | zero hz                     => omega
    | noMemory _ full             =>
      have := full b hb
      simp only [Block.stop] at hle
      omega
    | success _ _ _ _ _ _ _ eq => exact ⟨_, by rw [eq]⟩

theorem alloc_lowest (h : a.WellFormed) (hn : 0 < n) {p : Pointer}
    (hp : (a.alloc this n).1 = .ok p) : p.allocator = some this ∧
      ∃ m, a.Gap ((a.alloc this n).2.findBegin p.id) m ∧ n ≤ m ∧
        ∀ y k, a.Gap y k → n ≤ k → (a.alloc this n).2.findBegin p.id ≤ y := by
  cases a.alloc_cases this n with
  | zero hz         => omega
  | noMemory _ _ eq => simp [eq] at hp
  | success _ l₁ b l₂ blocks enough first eq =>
    have hb : b ∈ a.freeBlocks := by simp [blocks]
    simp only [eq, Except.ok.injEq] at hp ⊢
    subst hp
    have hf : ((a.pointers.insert a.pointerId ⟨b.begin, n⟩).find? a.pointerId) =
        some ⟨b.begin, n⟩ := by
      rw [SortedMap.insert_of_find?_eq_none h.find?_pointerId]
      simp
    simp only [findBegin, findBlock, hf, Option.getD_some]
    refine ⟨trivial, b.size, h.gap_iff_mem.mpr ⟨by omega, hb⟩, enough, fun y k hg hk => ?_⟩
    have hy := (h.gap_iff_mem.mp hg).2
    rw [blocks, List.mem_append, List.mem_cons] at hy
    rcases hy with hy | hy | hy
    · have := first _ hy
      simp only at this
      omega
    · exact hy ▸ le_rfl
    · obtain ⟨_, hs, _⟩ := List.pairwise_append.mp (blocks ▸ h.separated.sorted)
      exact (List.rel_of_pairwise_cons hs hy).le

end WellFormed

structure FirstFit (w : World) (this n : ℕ) : Prop where
  complete  : (∃ p, (w.alloc this n).1 = .ok p) ↔ ∃ x, (w.allocators this).Unallocated x n
  lowest    : ∀ p, (w.alloc this n).1 = .ok p → ∃ m,
                (w.allocators this).Gap (p.get (w.alloc this n).2.allocators) m ∧ n ≤ m ∧
                ∀ y k, (w.allocators this).Gap y k → n ≤ k →
                  p.get (w.alloc this n).2.allocators ≤ y
  unchanged : ∀ e, (w.alloc this n).1 = .error e → e = .noMemory ∧ (w.alloc this n).2 = w

theorem run_firstFit (he : Even arena.size) (hi : Initial arena this w₀)
    (r : Run (Step this) w₀ w) (hn : 1 ≤ n) : FirstFit w this n where
  complete  := (Invariant.run he hi r).wellFormed.alloc_unallocated_iff hn
  lowest    := by
    intro p hp
    have ⟨ho, hg⟩ := (Invariant.run he hi r).wellFormed.alloc_lowest hn hp
    simpa [Pointer.get, ho, World.alloc] using hg
  unchanged := by
    intro e he
    cases (w.allocators this).alloc_cases this n with
    | zero _ eq | success _ _ _ _ _ _ _ eq => simp [World.alloc, eq] at he
    | noMemory _ _ eq =>
      simp only [World.alloc, eq, Except.error.injEq] at he ⊢
      exact ⟨he.symm, World.update_self⟩

theorem run_firstFit_of_two :
    FirstFit ((World.fresh ⟨16, 8, by decide, by decide⟩).alloc 0 3).2 0 2 :=
  run_firstFit (show Even 8 by decide)
    (show Initial ⟨16, 8, by decide, by decide⟩ 0 (World.fresh _) from rfl)
    (.snoc .refl (.alloc 3) ⟨trivial, rfl⟩) (by decide)

end Allocator
