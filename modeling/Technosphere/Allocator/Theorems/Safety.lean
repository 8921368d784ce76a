import Technosphere.Allocator.Theorems.Runs

open Set Tiling

namespace World

def fresh (arena : Arena) : World where
  allocators _ := Allocator.init arena.base arena.size
  memory     _ := 0

end World

namespace Allocator

variable {arena : Arena} {this id : ℕ} {w₀ w : World} {a : Allocator} {b : Block}

-- The invariant of the heap in terms of the two containers: every byte of the active half is in
-- exactly one block, and the list of free blocks is sorted and coalesced.
structure HeapInvariant (a : Allocator) : Prop where
  disjoint  : (a.freeBlocks ++ a.pointers.values).Pairwise (Disjoint ·.span ·.span)
  cover     : ∀ x, (∃ b ∈ a.freeBlocks ++ a.pointers.values, x ∈ b.span) ↔
                x ∈ Ico a.base₁ (a.base₁ + a.memorySize₁)
  live_pos  : ∀ b ∈ a.pointers.values, 1 ≤ b.size
  sorted    : a.freeBlocks.Pairwise (·.begin < ·.begin)
  coalesced : a.freeBlocks.IsChain (·.getEnd ≠ ·.begin)

theorem WellFormed.heapInvariant (h : a.WellFormed) : a.HeapInvariant where
  disjoint  := h.tiles.pairwise_disjoint
  cover     := fun _ => h.tiles.mem_iff.symm
  live_pos  := h.live_pos
  sorted    := h.separated.sorted
  coalesced := h.separated.not_touching fun _ => h.free_fits

theorem run_heapInvariant (he : Even arena.size) (hi : Initial arena this w₀)
    (r : Run (Step this) w₀ w) : (w.allocators this).HeapInvariant :=
  (Invariant.run he hi r).wellFormed.heapInvariant

theorem run_heapInvariant_of_calls :
    ((((World.fresh ⟨16, 8, by decide, by decide⟩).alloc 0 3).2.alloc 0 2).2.defrag 0
      |>.allocators 0 |>.HeapInvariant) :=
  run_heapInvariant (show Even 8 by decide)
    (show Initial ⟨16, 8, by decide, by decide⟩ 0 (World.fresh _) from rfl)
    (.snoc (.snoc (.snoc .refl (.alloc 3) ⟨trivial, rfl⟩) (.alloc 2) ⟨trivial, rfl⟩) .defrag
      ⟨trivial, rfl⟩)

-- The spare half of the allocator at `this` is large enough for everything that is copied into it.
structure SpareHalfFits (w : World) (this : ℕ) : Prop where
  allSize_le   : (w.allocators this).defragLoop.allSize ≤ (w.allocators this).memorySize₂
  liveSize_le  : (w.allocators this).liveSize ≤ (w.allocators this).memorySize₂
  defragCopies : ∀ c ∈ (w.allocators this).defrag.2, c.Inside (w.allocators this).base₂
                  ((w.allocators this).base₂ + (w.allocators this).memorySize₂)
  saveCopy     : ∀ p, (w.allocators this).Issued this p → p.get w.allocators ≠ nullptr →
                  (w.saveCopy this p).Inside (w.allocators this).base₂
                    ((w.allocators this).base₂ + (w.allocators this).memorySize₂)

theorem size_le_liveSize (hb : a.pointers.find? id = some b) :
    b.size ≤ a.liveSize := by
  have hm := List.mem_map_of_mem (f := Block.size) <| SortedMap.mem_values.mpr ⟨_, hb⟩
  exact List.le_sum_of_mem hm

theorem Invariant.spareHalfFits (h : Invariant arena this w)
    (hl : (w.allocators this).liveSize ≤ (w.allocators this).memorySize₂) :
    SpareHalfFits w this where
  allSize_le   := by rwa [(defragLoop_eq ((Nat.add_le_add_left hl _).trans_lt h.spare_fits)).2.1]
  liveSize_le  := hl
  defragCopies := by
    intro c hc
    rw [defrag_eq hl h.spare_fits] at hc
    have := inside_of_mem_layoutCopies hc
    simp only [Memory.Copy.Inside, totalSize_entries] at *
    omega
  saveCopy     := by
    intro p hp hg
    obtain ⟨b, hd⟩ := (World.null_or_denotes hp).resolve_left hg
    have := size_le_liveSize hd.find
    simp only [Memory.Copy.Inside, World.saveCopy, hd.getSize]
    omega

theorem liveSize_set (h : a.pointers.find? id = none) :
    ({ a with pointers := a.pointers.set id b }).liveSize = b.size + a.liveSize := by
  simp only [liveSize, ((SortedMap.values_set_perm h).map _).sum_eq, List.map_cons, List.sum_cons]

theorem alloc_single (h : a.WellFormed) (hb : a.freeBlocks = [b]) (hs : 0 < b.size) :
    (a.alloc this b.size).2.liveSize = b.size + a.liveSize ∧
      (a.alloc this b.size).2.memorySize₂ = a.memorySize₂ := by
  cases a.alloc_cases this b.size with
  | zero hn           => omega
  | noMemory _ full   => exact absurd (full b (by simp [hb])) (lt_irrefl _)
  | success _ l₁ c l₂ _ _ _ eq =>
    rw [eq, SortedMap.insert_of_find?_eq_none h.find?_pointerId]
    exact ⟨liveSize_set h.find?_pointerId, rfl⟩

-- In an arena of odd size, one `defrag` makes the larger half the active one, which can then be
-- filled with more than fits into the smaller half.
theorem exists_run_not_spareHalfFits (ho : ¬Even arena.size) (hi : Initial arena this w₀) :
    ∃ w, Nonempty (Run (Step this) w₀ w) ∧ ¬SpareHalfFits w this := by
  have hinv := Invariant.initial hi
  have hl : (w₀.allocators this).liveSize = 0 := by rw [hi]; rfl
  have hle : (w₀.allocators this).liveSize ≤ (w₀.allocators this).memorySize₂ := by omega
  have hm : (w₀.allocators this).memorySize₁ + 1 = (w₀.allocators this).memorySize₂ := by
    have hs := Nat.not_even_iff.mp ho
    simp only [show w₀.allocators this = init .. from hi, init]
    omega
  have hd := defrag_eq hle hinv.spare_fits
  have hw := hinv.wellFormed.defrag hle hinv.spare_fits
  simp only [hd, hl, add_zero, Nat.sub_zero] at hw
  obtain ⟨hs, hs₂⟩ := @alloc_single this _ _ hw rfl (by simp only; omega)
  refine ⟨_, ⟨.snoc (.snoc .refl .defrag ⟨trivial, rfl⟩)
    (.alloc (w₀.allocators this).memorySize₂) ⟨trivial, rfl⟩⟩, fun hf => ?_⟩
  have := hf.liveSize_le
  simp only [Call.exec, World.alloc, World.defrag, World.update_allocators, hd, hl, add_zero,
    Nat.sub_zero] at this
  rw [hs, hs₂] at this
  simp only at this
  omega

theorem spareHalfFits_iff_even (hi : Initial arena this w₀) :
    (∀ w, Run (Step this) w₀ w → SpareHalfFits w this) ↔ Even arena.size := by
  constructor
  · intro h
    by_contra ho
    have ⟨w, ⟨r⟩, hn⟩ := exists_run_not_spareHalfFits ho hi
    exact hn (h w r)
  · intro he w r
    have hv := Invariant.run he hi r
    exact hv.spareHalfFits (hv.liveSize_le he)

theorem spareHalfFits_iff_even_of_three :
    (∀ w, Run (Step 0) (World.fresh ⟨16, 3, by decide, by decide⟩) w → SpareHalfFits w 0) ↔
      Even 3 :=
  spareHalfFits_iff_even (show Initial ⟨16, 3, by decide, by decide⟩ 0 (World.fresh _) from rfl)

-- In an arena of three bytes, the allocation of two bytes after a `defrag` makes the next `defrag`
-- compute a free block of almost the whole address space.
theorem spareHalf_overflow :
    let w := (((World.fresh ⟨16, 3, by decide, by decide⟩).defrag 0).alloc 0 2).2
    Nonempty (Run (Step 0) (World.fresh ⟨16, 3, by decide, by decide⟩) w) ∧ ¬SpareHalfFits w 0 ∧
      ((w.defrag 0).allocators 0).freeBlocks = [⟨18, 2 ^ 64 - 1⟩] :=
  ⟨⟨.snoc (.snoc .refl .defrag ⟨trivial, rfl⟩) (.alloc 2) ⟨trivial, rfl⟩⟩,
    fun h => absurd h.liveSize_le (by decide), by decide⟩

end Allocator
