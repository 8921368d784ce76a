import Technosphere.Allocator.Theorems.Safety

-- In an arena of odd size the two halves are not of the same size, and after a `defrag` that does
-- not fit blocks wrap around. What is shown here holds in any arena and for any calls.
namespace Block

variable {b c : Block} {bs l₁ l₂ : List Block}

theorem size_mergeNext (hb : b.size < sizeRange) (h : ∀ c ∈ bs, c.size < sizeRange) :
    ∀ c ∈ b.mergeNext bs, c.size < sizeRange := by
  cases bs with
  | nil => simpa [mergeNext] using hb
  | cons c bs =>
    rw [mergeNext]
    split_ifs
    · exact List.forall_mem_cons.mpr ⟨Nat.mod_lt _ (by decide), (List.forall_mem_cons.mp h).2⟩
    · exact List.forall_mem_cons.mpr ⟨hb, h⟩

theorem size_merged (h : ∀ c ∈ l₁ ++ b :: l₂, c.size < sizeRange) :
    ∀ c ∈ merged l₁ b l₂, c.size < sizeRange := by
  obtain ⟨h₁, h₂⟩ := List.forall_mem_append.mp h
  obtain ⟨hb, h₂⟩ := List.forall_mem_cons.mp h₂
  rcases List.eq_nil_or_concat l₁ with rfl | ⟨l, q, rfl⟩
  · exact size_mergeNext hb h₂
  · rw [List.concat_eq_append] at h₁ ⊢
    obtain ⟨hl, hq⟩ := List.forall_mem_append.mp h₁
    rw [merged_concat]
    exact List.forall_mem_append.mpr ⟨hl, size_mergeNext (hq q (by simp)) (size_mergeNext hb h₂)⟩

end Block

namespace Allocator

variable {this n : ℕ} {a : Allocator} {b : Block} {l₁ l₂ : List Block} {p : Pointer}
  {allocators : ℕ → Allocator}

structure Sound (a : Allocator) : Prop where
  blocks : ∀ c ∈ a.freeBlocks, c.size < sizeRange
  live   : ∀ id b, a.pointers.find? id = some b → 0 < b.size ∧ b.size < sizeRange

theorem foldl_defragBody {es : List (ℕ × Block)} {l : DefragLocals}
    (he : ∀ e ∈ es, 0 < e.2.size ∧ e.2.size < sizeRange)
    (hl : ∀ id b, l.tempPointers.find? id = some b → 0 < b.size ∧ b.size < sizeRange) :
    ∀ id b, (es.foldl a.defragBody l).tempPointers.find? id = some b →
      0 < b.size ∧ b.size < sizeRange := by
  induction es generalizing l with
  | nil => exact hl
  | cons e es ih =>
    have ⟨hp, he⟩ := List.forall_mem_cons.mp he
    apply ih he
    intro id b hb
    simp only [defragBody, SortedMap.find?_insert] at hb
    split_ifs at hb with hi
    · exact Option.some.inj hb ▸ hp
    · exact hl id b hb

namespace Sound

theorem init (arena : Arena) : (Allocator.init arena.base arena.size).Sound where
  blocks := by
    have := arena.fits
    simp only [Allocator.init, List.mem_singleton, forall_eq]
    omega
  live   := by simp [Allocator.init]

theorem alloc (h : a.Sound) : (a.alloc this n).2.Sound := by
  cases a.alloc_cases this n with
  | zero _ eq | noMemory _ _ eq => exact eq ▸ h
  | success hn l₁ b l₂ blocks enough _ eq =>
    rw [eq]
    have hb := h.blocks b (by simp [blocks])
    refine ⟨fun c hc => ?_, fun id c hc => ?_⟩
    · simp only [List.append_assoc, List.mem_append] at hc
      rcases hc with hc | hc | hc
      · exact h.blocks c (by simp [blocks, hc])
      · rw [Block.rest] at hc
        split_ifs at hc
        · simp at hc
        · exact List.mem_singleton.mp hc ▸ (Nat.sub_le ..).trans_lt hb
      · exact h.blocks c (by simp [blocks, hc])
    · simp only [SortedMap.find?_insert] at hc
      split_ifs at hc with hi
      · exact Option.some.inj hc ▸ ⟨hn, enough.trans_lt hb⟩
      · exact h.live id c hc

theorem findBlock (h : a.Sound) (id : ℕ) : (a.findBlock id).size < sizeRange := by
  rw [Allocator.findBlock]
  cases hb : a.pointers.find? id with
  | none   => exact Nat.two_pow_pos 64
  | some b => exact (h.live id b hb).2

theorem mergeBlocks (h : a.Sound) (hl : a.freeBlocks = l₁ ++ b :: l₂) :
    (a.mergeBlocks l₁.length).Sound := by
  rw [mergeBlocks_eq hl]
  exact ⟨Block.size_merged (hl ▸ h.blocks), h.live⟩

theorem mergeBlocks_zero (h : a.Sound) : (a.mergeBlocks 0).Sound := by
  cases hl : a.freeBlocks with
  | nil      => simpa [Allocator.mergeBlocks, hl] using h
  | cons b l => exact mergeBlocks (b := b) h (show a.freeBlocks = [] ++ b :: l from hl)

theorem addFreeBlock (h : a.Sound) (allocators : ℕ → Allocator) (p : Pointer) :
    ((a.addFreeBlock allocators p).1.mergeBlocks (a.addFreeBlock allocators p).2).Sound := by
  rw [Allocator.addFreeBlock]
  split_ifs
  · exact h.mergeBlocks_zero
  · obtain ⟨l₁, l₂, hl, hi, _⟩ :=
      a.freeBlocks.findIdx_split fun c => (a.findBlock p.id).getEnd ≤ c.begin
    have hn : a.findNearestFreeBlock p = l₁.length := by
      rw [findNearestFreeBlock, ← hi]
      split_ifs with he
      · simp [List.isEmpty_iff.mp he]
      · rfl
    simp only [hn, hl, List.insertIdx_length_append]
    have hb : ∀ c ∈ l₁ ++ a.findBlock p.id :: l₂, c.size < sizeRange := by
      obtain ⟨h₁, h₂⟩ := List.forall_mem_append.mp (hl ▸ h.blocks)
      exact List.forall_mem_append.mpr ⟨h₁, List.forall_mem_cons.mpr ⟨h.findBlock _, h₂⟩⟩
    exact mergeBlocks (a := { a with freeBlocks := _ }) ⟨hb, h.live⟩ rfl

theorem erasePointer (h : a.Sound) : (a.erasePointer p).2.Sound := by
  rw [Allocator.erasePointer]
  split_ifs
  · refine ⟨h.blocks, fun id b hb => h.live id b ?_⟩
    simp only [SortedMap.find?_erase] at hb
    split_ifs at hb
    exact hb
  · exact h

theorem free (h : a.Sound) : (a.free allocators p).2.1.Sound := by
  rw [Allocator.free]
  split_ifs
  · exact h
  · have he := (h.addFreeBlock allocators p).erasePointer (p := p)
    simp only
    rcases hr : Allocator.erasePointer _ p with ⟨_ | _, a'⟩ <;> simpa [hr] using he

theorem defrag (h : a.Sound) : a.defrag.1.Sound where
  blocks := by
    simp only [Allocator.defrag, List.mem_singleton, forall_eq]
    exact Nat.mod_lt _ (by decide)
  live   := foldl_defragBody (fun e he => h.live e.1 e.2 (SortedMap.mem_entries.mp he)) (by simp)

end Sound

end Allocator

namespace Allocator.Sound

variable {arena : Arena} {this other n : ℕ} {w₀ w w' : World} {a : Allocator} {p : Pointer}

theorem update (h : (w.allocators other).Sound) (ha : (w.allocators this).Sound → a.Sound) :
    ((w.update this a).allocators other).Sound := by
  rw [World.update]
  rcases eq_or_ne other this with rfl | hne
  · simpa using ha h
  · simpa [Function.update_of_ne hne] using h

theorem alloc_world (h : (w.allocators other).Sound) (this n : ℕ) :
    ((w.alloc this n).2.allocators other).Sound :=
  h.update fun h => h.alloc

theorem free_world (h : (w.allocators other).Sound) (this : ℕ) (p : Pointer) :
    ((w.free this p).2.1.allocators other).Sound :=
  h.update fun h => h.free

theorem realloc_world (h : (w.allocators other).Sound) (this : ℕ) (p : Pointer) (n : ℕ) :
    ((w.realloc this p n).2.1.allocators other).Sound := by
  rw [World.realloc]
  split_ifs
  · have ha := h.alloc_world this n
    rcases hw : w.alloc this n with ⟨_ | _, w'⟩ <;> simpa [hw] using ha
  · have hf := free_world (w := w.memcpy (w.saveCopy this p)) h this p
    simp only
    rcases hr : World.free _ this p with ⟨_ | _, w₁, q⟩ <;> rw [hr] at hf
    · exact hf
    · have ha := hf.alloc_world this n
      simp only at ha ⊢
      rcases hw : w₁.alloc this n with ⟨_ | _, w₂⟩ <;> rw [hw] at ha
      · exact ha
      · simp only
        split_ifs <;> simpa using ha

theorem exec (h : (w.allocators other).Sound) (this : ℕ) (c : Call) :
    ((c.exec w this).allocators other).Sound := by
  cases c with
  | alloc n     => exact h.alloc_world this n
  | free p      => exact h.free_world this p
  | realloc p n => exact h.realloc_world this p n
  | defrag      => exact h.update fun h => h.defrag

theorem run (hi : Initial arena this w₀) (r : Run (Step this) w₀ w) :
    (w.allocators this).Sound := by
  apply r.invariant (P := fun w => (w.allocators this).Sound) (hi ▸ init arena)
  rintro w c _ h ⟨_, rfl⟩
  exact h.exec this c

end Allocator.Sound

namespace World

open Allocator

variable {this : ℕ} {w : World} {b : Block} {p : Pointer} {l₁ l₂ : List Block}

theorem free_of_split (hs : (w.allocators this).Sound) (h : w.Denotes this p b)
    (hl : (w.allocators this).Split p b l₁ l₂) : w.free this p =
      (.ok (), w.update this { w.allocators this with
        freeBlocks := Block.merged l₁ b l₂
        pointers   := (w.allocators this).pointers.erase p.id }, {}) := by
  simp only [free, hl.free h.find h.getSize (hs.live _ _ h.find).1 h.get_ne]

theorem Denotes.of_find (ho : p.allocator = some this)
    (hb : (w.allocators this).pointers.find? p.id = some b) (hn : p.get w.allocators ≠ nullptr) :
    w.Denotes this p b where
  owner   := ho
  find    := hb
  nonnull := by simpa [Pointer.get, ho, findBegin, findBlock, hb] using hn

end World
