import Technosphere.Allocator.Theorems.FreeList

open Set Tiling

namespace Allocator

def liveSize (a : Allocator) : ℕ :=
  (a.pointers.values.map (·.size)).sum

-- The free and the live blocks tile the active half, and the list of free blocks is in its normal
-- form. A free block can only be empty if it stands at the end of the half: this is what `defrag`
-- leaves when there is no free memory.
structure WellFormed (a : Allocator) : Prop where
  tiles      : Tiles Block.span (a.freeBlocks ++ a.pointers.values)
                (Ico a.base₁ (a.base₁ + a.memorySize₁))
  separated  : Block.Separated a.freeBlocks
  live_pos   : ∀ b ∈ a.pointers.values, 0 < b.size
  empty_last : ∀ b ∈ a.freeBlocks, b.size = 0 → b.begin = a.base₁ + a.memorySize₁
  id_lt      : ∀ id ∈ a.pointers.keys, id < a.pointerId
  fits       : a.base₁ + a.memorySize₁ < sizeRange

-- The active and the spare half are the two parts of the arena, in one order or the other.
structure Halves (arena : Arena) (a : Allocator) : Prop where
  bounds :
    (a.base₁ = arena.base ∧ a.memorySize₁ = arena.size / 2 ∧
      a.base₂ = arena.base + arena.size / 2 ∧ a.memorySize₂ = arena.size - arena.size / 2) ∨
    (a.base₂ = arena.base ∧ a.memorySize₂ = arena.size / 2 ∧
      a.base₁ = arena.base + arena.size / 2 ∧ a.memorySize₁ = arena.size - arena.size / 2)

namespace WellFormed

variable {a : Allocator} {b c : Block} {base size id : ℕ}

theorem init (h : base + size < sizeRange) : (init base size).WellFormed where
  tiles      := by
    simpa [Allocator.init, SortedMap.values, Block.span, Block.stop] using
      Tiles.nil.cons (disjoint_empty (Block.span ⟨base, size / 2⟩))
  separated  := List.pairwise_singleton ..
  live_pos   := by simp [Allocator.init, SortedMap.values]
  empty_last := by simp [Allocator.init]
  id_lt      := by simp [Allocator.init, SortedMap.keys]
  fits       := (Nat.add_le_add_left (Nat.div_le_self size 2) base).trans_lt h

theorem find?_pointerId (h : a.WellFormed) : a.pointers.find? a.pointerId = none := by
  by_contra hn
  have := h.id_lt _ <| SortedMap.mem_keys.mpr <| Option.isSome_iff_ne_none.mpr hn
  omega

theorem find?_lt (h : a.WellFormed) (hb : a.pointers.find? id = some b) : id < a.pointerId :=
  h.id_lt _ <| SortedMap.mem_keys.mpr (by simp [hb])

theorem find?_pos (h : a.WellFormed) (hb : a.pointers.find? id = some b) : 0 < b.size :=
  h.live_pos b <| SortedMap.mem_values.mpr ⟨_, hb⟩

theorem live_bounds (h : a.WellFormed) (hb : b ∈ a.pointers.values) :
    a.base₁ ≤ b.begin ∧ b.stop ≤ a.base₁ + a.memorySize₁ := by
  have hs := h.tiles.subset (List.mem_append_right _ hb)
  exact (Set.Ico_subset_Ico_iff <| Block.begin_lt_stop <| h.live_pos b hb).mp hs

theorem find?_bounds (h : a.WellFormed) (hb : a.pointers.find? id = some b) :
    a.base₁ ≤ b.begin ∧ b.stop ≤ a.base₁ + a.memorySize₁ :=
  h.live_bounds <| SortedMap.mem_values.mpr ⟨_, hb⟩

theorem free_bounds (h : a.WellFormed) (hb : b ∈ a.freeBlocks) :
    a.base₁ ≤ b.begin ∧ b.stop ≤ a.base₁ + a.memorySize₁ := by
  by_cases hz : b.size = 0
  case pos =>
    have := h.empty_last b hb hz
    simp only [Block.stop]
    omega
  case neg =>
    have hs := h.tiles.subset (List.mem_append_left _ hb)
    exact (Set.Ico_subset_Ico_iff <| Block.begin_lt_stop <| Nat.pos_of_ne_zero hz).mp hs

theorem find?_fits (h : a.WellFormed) (hb : a.pointers.find? id = some b) : b.Fits :=
  (h.find?_bounds hb).2.trans_lt h.fits

theorem free_fits (h : a.WellFormed) (hb : b ∈ a.freeBlocks) : b.Fits :=
  (h.free_bounds hb).2.trans_lt h.fits

theorem ordered (h : a.WellFormed) (hb : b ∈ a.pointers.values) (hc : c ∈ a.freeBlocks) :
    c.stop ≤ b.begin ∨ b.stop ≤ c.begin := by
  by_cases hz : c.size = 0
  case pos => exact .inr <| h.empty_last c hc hz ▸ (h.live_bounds hb).2
  case neg =>
    have ⟨_, _, hd⟩ := List.pairwise_append.mp h.tiles.pairwise_disjoint
    exact Ico_ordered_of_disjoint (hd c hc b hb)
      (Block.begin_lt_stop (by omega)) (Block.begin_lt_stop (h.live_pos b hb))

theorem size_add_liveSize (h : a.WellFormed) :
    (a.freeBlocks.map (·.size)).sum + a.liveSize = a.memorySize₁ := by
  have := h.tiles.sum_ncard (Set.finite_Ico ..)
  simpa [Block.ncard_span, Set.ncard_eq_toFinset_card', liveSize] using this

theorem liveSize_le (h : a.WellFormed) : a.liveSize ≤ a.memorySize₁ := by
  have := h.size_add_liveSize
  omega

end WellFormed

variable {a : Allocator} {b : Block} {allocators : ℕ → Allocator} {this n : ℕ} {p : Pointer}
  {l₁ l₂ : List Block}

inductive AllocCases (a : Allocator) (this n : ℕ) : Prop
  | zero (hn : n = 0) (eq : a.alloc this n = (.ok {}, a))
  | noMemory (hn : 0 < n) (full : ∀ b ∈ a.freeBlocks, b.size < n)
      (eq : a.alloc this n = (.error .noMemory, a))
  | success (hn : 0 < n) (l₁ : List Block) (b : Block) (l₂ : List Block)
      (blocks : a.freeBlocks = l₁ ++ b :: l₂) (enough : n ≤ b.size) (first : ∀ c ∈ l₁, c.size < n)
      (eq : a.alloc this n = (.ok ⟨some this, a.pointerId⟩,
        { a with
          freeBlocks := l₁ ++ b.rest n ++ l₂
          pointers   := a.pointers.insert a.pointerId ⟨b.begin, n⟩
          pointerId  := a.pointerId + 1 }))

theorem alloc_cases (a : Allocator) (this n : ℕ) : a.AllocCases this n := by
  by_cases hn : n = 0
  case pos => exact .zero hn (by simp [alloc, hn])
  case neg =>
    cases hf : a.freeBlocks.findIdx? (n ≤ ·.size) with
    | none =>
      refine .noMemory (by omega) ?_ (by simp [alloc, hn, hf])
      simpa using hf
    | some it =>
      have ⟨l₁, b, l₂, hl, hi, hb, hf'⟩ := List.findIdx?_split hf
      refine .success (by omega) l₁ b l₂ hl (by simpa using hb) (by simpa using hf') ?_
      simp only [alloc, hn, ↓reduceIte, hf, hi, block_append hl]
      rw [splitBlock_append (by exact hl)]

theorem WellFormed.alloc (h : a.WellFormed) : (a.alloc this n).2.WellFormed := by
  cases a.alloc_cases this n with
  | zero _ eq | noMemory _ _ eq => exact eq ▸ h
  | success hn l₁ b l₂ blocks enough first eq =>
    rw [eq]
    have hp := a.pointers.insert_of_find?_eq_none (v := ⟨b.begin, n⟩) h.find?_pointerId
    have hv := SortedMap.values_set_perm (v := (⟨b.begin, n⟩ : Block)) h.find?_pointerId
    have hb : b ∈ a.freeBlocks := by simp [blocks]
    have hf := h.free_fits hb
    have hs := blocks ▸ h.separated
    refine ⟨(Tiles.congr fun x => ?_).mp h.tiles, hs.rest hf, ?_, ?_, ?_, h.fits⟩
    · have := Block.cover_split hf enough (x := x)
      simp only [blocks, hp, cover_append, cover_cons, cover_perm hv, cover_nil] at *
      omega
    · intro c hc
      rw [hp] at hc
      rcases List.mem_cons.mp (hv.mem_iff.mp hc) with rfl | hc
      · exact hn
      · exact h.live_pos c hc
    · intro c hc he
      simp only [List.append_assoc, List.mem_append] at hc
      rcases hc with hc | hc | hc
      · exact h.empty_last c (by simp [blocks, hc]) he
      · have := Block.mem_rest hf hc
        simp only [Block.stop] at this
        omega
      · exact h.empty_last c (by simp [blocks, hc]) he
    · intro i hi
      simp only [hp, SortedMap.mem_keys, SortedMap.find?_set] at hi
      split_ifs at hi with he
      · exact he ▸ Nat.lt_succ_self _
      · exact (h.id_lt i <| SortedMap.mem_keys.mpr hi).trans (Nat.lt_succ_self _)

-- The place in the list of free blocks to which the block `b` of `p` belongs.
structure Split (a : Allocator) (p : Pointer) (b : Block) (l₁ l₂ : List Block) : Prop where
  blocks  : a.freeBlocks = l₁ ++ l₂
  nearest : a.findNearestFreeBlock p = l₁.length
  below   : ∀ c ∈ l₁, ¬b.getEnd ≤ c.begin
  above   : ∀ c ∈ l₂.head?, b.getEnd ≤ c.begin

theorem exists_split (hb : a.pointers.find? p.id = some b) : ∃ l₁ l₂, a.Split p b l₁ l₂ := by
  have ⟨l₁, l₂, hl, hi, h₁, h₂⟩ := a.freeBlocks.findIdx_split (b.getEnd ≤ ·.begin)
  refine ⟨l₁, l₂, hl, ?_, by simpa using h₁, by simpa using h₂⟩
  simp only [findNearestFreeBlock, findBlock, hb, Option.getD_some, ← hi]
  split_ifs with he
  · simp [List.isEmpty_iff.mp he]
  · rfl

namespace Split

variable (h : a.Split p b l₁ l₂) (hb : a.pointers.find? p.id = some b)
  (hs : p.getSize allocators = b.size) (hp : 0 < b.size)
include h hb hs hp

theorem addFreeBlock :
    a.addFreeBlock allocators p = ({ a with freeBlocks := l₁ ++ b :: l₂ }, l₁.length) := by
  simp only [Allocator.addFreeBlock, hs, hp.ne', ↓reduceIte, h.nearest, findBlock, hb, h.blocks,
    Option.getD_some, List.insertIdx_length_append]

theorem free (hg : p.get allocators ≠ nullptr) : a.free allocators p =
    (.ok (), { a with
      freeBlocks := Block.merged l₁ b l₂
      pointers   := a.pointers.erase p.id }, {}) := by
  have hm : ({ a with freeBlocks := l₁ ++ b :: l₂ } : Allocator).mergeBlocks l₁.length = _ :=
    mergeBlocks_eq rfl
  simp only [Allocator.free, hg, ↓reduceIte, h.addFreeBlock hb hs hp, hm, erasePointer, hb,
    Option.isSome_some]

end Split

namespace WellFormed

theorem split_sides (h : a.WellFormed) (hl : a.Split p b l₁ l₂)
    (hb : a.pointers.find? p.id = some b) :
    (∀ c ∈ l₁, c.stop ≤ b.begin) ∧ ∀ c ∈ l₂, b.stop ≤ c.begin := by
  have hv := SortedMap.mem_values.mpr ⟨_, hb⟩
  have he := (h.find?_fits hb).getEnd
  constructor
  · intro c hc
    exact (h.ordered hv (by simp [hl.blocks, hc])).resolve_right (he ▸ hl.below c hc)
  · intro c hc
    have ⟨_, hs₂, _⟩ := List.pairwise_append.mp <| hl.blocks ▸ h.separated
    cases l₂ with
    | nil => simp at hc
    | cons d l₂ =>
      have hd : b.stop ≤ d.begin := he ▸ hl.above d rfl
      rcases List.mem_cons.mp hc with rfl | hc
      · exact hd
      · have := List.rel_of_pairwise_cons hs₂ hc
        have := d.begin_le_stop
        omega

theorem free (h : a.WellFormed) (hb : a.pointers.find? p.id = some b)
    (hg : p.get allocators ≠ nullptr) (hs : p.getSize allocators = b.size) :
    ∃ bs, a.free allocators p =
        (.ok (), { a with freeBlocks := bs, pointers := a.pointers.erase p.id }, {}) ∧
      { a with freeBlocks := bs, pointers := a.pointers.erase p.id : Allocator }.WellFormed := by
  have ⟨l₁, l₂, hl⟩ := exists_split hb
  have ⟨h₁, h₂⟩ := h.split_sides hl hb
  have hpos := h.find?_pos hb
  have hf := h.find?_fits hb
  have hf₁ : ∀ c ∈ l₁, c.Fits := fun c hc => h.free_fits (by simp [hl.blocks, hc])
  have hf₂ : ∀ c ∈ l₂, c.Fits := fun c hc => h.free_fits (by simp [hl.blocks, hc])
  have hv := SortedMap.values_erase_perm hb
  refine ⟨Block.merged l₁ b l₂, hl.free hb hs hpos hg, ?_⟩
  constructor
  case tiles      =>
    refine (Tiles.congr fun x => ?_).mp h.tiles
    simp only [cover_append, cover_perm hv, Block.cover_merged hf₁ hf hf₂, hl.blocks, cover_cons]
    omega
  case separated  => exact Block.Separated.merged hf₁ hf hf₂ (hl.blocks ▸ h.separated) h₁ h₂
  case live_pos   => exact fun c hc => h.live_pos c <| hv.mem_iff.mpr <| List.mem_cons_of_mem _ hc
  case empty_last =>
    intro c hc he
    exact h.empty_last c (hl.blocks ▸ Block.mem_of_mem_merged hf₁ hf hf₂ hpos hc he) he
  case id_lt      =>
    intro i hi
    rw [SortedMap.mem_keys_erase] at hi
    exact h.id_lt i hi.2
  case fits       => exact h.fits

end WellFormed

end Allocator
