import Technosphere.Allocator.Theorems.AnyArena

namespace Allocator

-- A read of the list of free blocks, at a position that is to be less than the length that the list
-- has at that moment.
structure Read where
  position : ℕ
  length   : ℕ
deriving DecidableEq

def Read.InList (r : Read) : Prop :=
  r.position < r.length

def merge2BlocksReads (a : Allocator) (it₁ it₂ : ℕ) : List Read :=
  [⟨it₂, a.freeBlocks.length⟩,
   ⟨it₁, (a.splitBlock it₂ (a.block it₂).size).freeBlocks.length⟩]

def touchReads (a : Allocator) (it₁ it₂ : ℕ) : List Read :=
  [⟨it₁, a.freeBlocks.length⟩, ⟨it₂, a.freeBlocks.length⟩] ++
    if a.touch it₁ it₂ then a.merge2BlocksReads it₁ it₂ else []

def mergeBlocksReads (a : Allocator) (it : ℕ) : List Read :=
  let prevIt := it - 1
  let nextIt := it + 1
  if a.freeBlocks.length ≤ 1 then []
  else if it = 0 then a.touchReads it nextIt
  else if it = a.freeBlocks.length then a.touchReads prevIt it
  else
    let reads   := a.touchReads it nextIt
    let (a, it) := if a.touch it nextIt then a.merge2Blocks it nextIt else (a, it)
    reads ++ a.touchReads prevIt it

def freeReads (a : Allocator) (allocators : ℕ → Allocator) (p : Pointer) : List Read :=
  if p.get allocators = nullptr then []
  else
    let (a, it) := a.addFreeBlock allocators p
    a.mergeBlocksReads it

def Call.reads (w : World) (this : ℕ) : Call → List Read
  | alloc _ | defrag => []
  | free p           => (w.allocators this).freeReads w.allocators p
  | realloc p _      =>
    if p.get w.allocators = nullptr then []
    else
      let w := w.memcpy (w.saveCopy this p)
      (w.allocators this).freeReads w.allocators p

variable {arena : Arena} {this n : ℕ} {w₀ w : World} {a : Allocator} {b c : Block}
  {l₁ l₂ : List Block} {p : Pointer} {call : Call}

theorem touchReads_inList (h : a.freeBlocks = l₁ ++ b :: c :: l₂) :
    ∀ r ∈ a.touchReads l₁.length (l₁.length + 1), r.InList := by
  have hc : a.freeBlocks = (l₁ ++ [b]) ++ c :: l₂ := by simp [h]
  have hs := splitBlock_append (n := (a.block (l₁ ++ [b]).length).size) hc
  simp only [List.length_append, List.length_singleton] at hs
  intro r hr
  simp only [touchReads, merge2BlocksReads, hs, h] at hr
  split_ifs at hr <;> simp only [List.mem_append, List.mem_cons, List.not_mem_nil, or_false] at hr
  · rcases hr with (rfl | rfl) | rfl | rfl <;> simp [Read.InList]
  · rcases hr with rfl | rfl <;> simp [Read.InList]

theorem not_touchReads_inList (h : a.freeBlocks = l₁ ++ [b]) :
    ¬∀ r ∈ a.touchReads l₁.length (l₁.length + 1), r.InList := by
  intro hr
  have := hr ⟨l₁.length + 1, a.freeBlocks.length⟩ (by simp [touchReads])
  simp [Read.InList, h] at this

-- The block that is put behind all others is not taken for the last one, and its successor is read.
theorem mergeBlocksReads_inList_iff (h : a.freeBlocks = l₁ ++ b :: l₂) :
    (∀ r ∈ a.mergeBlocksReads l₁.length, r.InList) ↔ l₁ = [] ∨ l₂ ≠ [] := by
  rcases List.eq_nil_or_concat l₁ with rfl | ⟨l, q, rfl⟩
  · refine iff_of_true ?_ (.inl rfl)
    cases l₂ with
    | nil       => simp [mergeBlocksReads, h]
    | cons c l₂ => simpa [mergeBlocksReads, h] using touchReads_inList h
  · simp only [List.concat_eq_append] at *
    have hl : a.freeBlocks.length = l.length + 2 + l₂.length := by
      simp only [h, List.length_append, List.length_cons, List.length_nil]
      omega
    have hn := merge_next h
    simp only [mergeBlocksReads, List.length_append, List.length_singleton, hl] at hn ⊢
    rw [if_neg (by omega), if_neg (by omega), if_neg (by omega), hn]
    simp only [Nat.add_sub_cancel, List.mem_append, or_imp, forall_and]
    cases l₂ with
    | nil       =>
      refine iff_of_false (fun hr => ?_) (by simp)
      have := not_touchReads_inList h
      simp only [List.length_append, List.length_singleton] at this
      exact this hr.1
    | cons c l₂ =>
      refine iff_of_true ⟨?_, ?_⟩ (.inr (by simp))
      · have := touchReads_inList h
        simpa only [List.length_append, List.length_singleton] using this
      · have ⟨d, l', hd⟩ : ∃ d l', b.mergeNext (c :: l₂) = d :: l' := by
          simp only [Block.mergeNext]
          split_ifs <;> exact ⟨_, _, rfl⟩
        exact @touchReads_inList _ q d l l' (by simp [hd])

theorem freeReads_inList_iff {allocators : ℕ → Allocator} (hl : a.Split p b l₁ l₂)
    (hb : a.pointers.find? p.id = some b) (hs : p.getSize allocators = b.size) (hp : 0 < b.size)
    (hg : p.get allocators ≠ nullptr) : (∀ r ∈ a.freeReads allocators p, r.InList) ↔
      a.freeBlocks = [] ∨ ∃ c ∈ a.freeBlocks, b.getEnd ≤ c.begin := by
  simp only [freeReads, hg, if_false, hl.addFreeBlock hb hs hp]
  rw [mergeBlocksReads_inList_iff rfl, hl.blocks]
  cases l₂ with
  | nil       =>
    rw [List.append_nil, or_iff_left (by simp), iff_self_or]
    exact fun ⟨c, hc, hbc⟩ => absurd hbc (hl.below c hc)
  | cons c l₂ =>
    have := hl.above c rfl
    refine iff_of_true (.inr (by simp)) (.inr ⟨c, by simp, this⟩)

-- When a live block is freed, no block that is not in the list is read, exactly if the list is
-- empty or has a block that is above the freed one. A block at the null address is not freed.
theorem run_reads_inList_iff (hi : Initial arena this w₀) (r : Run (Step this) w₀ w)
    (ho : p.allocator = some this) (hb : (w.allocators this).pointers.find? p.id = some b)
    (hc : call = .free p ∨ ∃ n, call = .realloc p n) :
    (∀ r ∈ call.reads w this, r.InList) ↔
      p.get w.allocators = nullptr ∨ (w.allocators this).freeBlocks = [] ∨
        ∃ c ∈ (w.allocators this).freeBlocks, b.getEnd ≤ c.begin := by
  have hp := ((Sound.run hi r).live _ _ hb).1
  have ⟨l₁, l₂, hl⟩ := exists_split hb
  by_cases hn : p.get w.allocators = nullptr
  case pos =>
    refine iff_of_true ?_ (.inl hn)
    rcases hc with rfl | ⟨n, rfl⟩ <;> simp [Call.reads, freeReads, hn]
  case neg =>
    have hd := World.Denotes.of_find ho hb hn
    have hf := freeReads_inList_iff hl hb hd.getSize hp hn
    rw [or_iff_right hn]
    rcases hc with rfl | ⟨n, rfl⟩
    · exact hf
    · rw [Call.reads, if_neg hn]
      exact hf

namespace ThreeBlocks

def eightBytes : Arena := ⟨16, 8, by decide, by decide⟩

def last : Pointer := ⟨some 0, 3⟩

def fresh       : World := .fresh eightBytes
def one         : World := (fresh.alloc 0 1).2
def two         : World := (one.alloc 0 1).2
def three       : World := (two.alloc 0 2).2
def withoutLeft : World := (three.free 0 ⟨some 0, 1⟩).2.1

theorem initial : Initial eightBytes 0 fresh :=
  rfl

def run : Run (Step 0) fresh withoutLeft :=
  .snoc (.snoc (.snoc (.snoc .refl (.alloc 1) ⟨trivial, rfl⟩) (.alloc 1) ⟨trivial, rfl⟩)
    (.alloc 2) ⟨trivial, rfl⟩) (.free ⟨some 0, 1⟩) ⟨.inr ⟨rfl, by decide⟩, rfl⟩

theorem find?_last : (withoutLeft.allocators 0).pointers.find? last.id = some ⟨18, 2⟩ := by
  decide

end ThreeBlocks

open ThreeBlocks in
theorem run_reads_inList_iff_of_three :
    (∀ r ∈ (Call.free last).reads withoutLeft 0, r.InList) ↔
      last.get withoutLeft.allocators = nullptr ∨ (withoutLeft.allocators 0).freeBlocks = [] ∨
        ∃ c ∈ (withoutLeft.allocators 0).freeBlocks, Block.getEnd ⟨18, 2⟩ ≤ c.begin :=
  run_reads_inList_iff initial run rfl find?_last (.inl rfl)

theorem not_reads_inList : ¬ ∀ (arena : Arena) (this : ℕ) (w₀ w : World) (p : Pointer) (b : Block),
    Initial arena this w₀ → Run (Step this) w₀ w → p.allocator = some this →
    (w.allocators this).pointers.find? p.id = some b →
    ∀ r ∈ (Call.free p).reads w this, r.InList := by
  intro h
  have hr := h _ _ _ _ _ _ ThreeBlocks.initial ThreeBlocks.run rfl ThreeBlocks.find?_last
  have hm : (⟨2, 2⟩ : Read) ∈ (Call.free ThreeBlocks.last).reads ThreeBlocks.withoutLeft 0 := by
    decide
  exact absurd (hr _ hm) (lt_irrefl 2)

end Allocator
