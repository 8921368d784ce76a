import Technosphere.Allocator.Theorems.AnyArena

namespace Block

variable {b q : Block} {bs l₁ l₂ : List Block} {n : ℕ}

def sizeAfter (b : Block) (bs : List Block) : ℕ :=
  (bs.head?.filter (b.getEnd = ·.begin)).elim 0 (·.size)

def sizeBefore (bs : List Block) (b : Block) : ℕ :=
  (bs.getLast?.filter (·.getEnd = b.begin)).elim 0 (·.size)

theorem sizeAfter_cons {c : Block} :
    b.sizeAfter (c :: bs) = if b.getEnd = c.begin then c.size else 0 := by
  by_cases h : b.getEnd = c.begin <;> simp [sizeAfter, Option.filter, h]

theorem sizeBefore_concat :
    sizeBefore (l₁ ++ [q]) b = if q.getEnd = b.begin then q.size else 0 := by
  by_cases h : q.getEnd = b.begin <;> simp [sizeBefore, Option.filter, h]

def keptAfter (b : Block) (bs : List Block) : List Block :=
  if bs.head?.any (b.getEnd = ·.begin) then bs.tail else bs

def keptBefore (bs : List Block) (b : Block) : List Block :=
  if bs.getLast?.any (·.getEnd = b.begin) then bs.dropLast else bs

theorem mergeNext_eq (hb : b.size < sizeRange) : b.mergeNext bs =
    { b with size := (b.size + b.sizeAfter bs) % sizeRange } :: b.keptAfter bs := by
  have hm : b.size % sizeRange = b.size := Nat.mod_eq_of_lt hb
  cases bs with
  | nil       => simp [mergeNext, sizeAfter, keptAfter, hm]
  | cons c bs =>
    rw [mergeNext, sizeAfter_cons]
    by_cases h : b.getEnd = c.begin <;> simp [keptAfter, join, h, hm]

theorem exists_mem_merged (hb : b.size < sizeRange) : (∃ c ∈ merged l₁ b l₂, n ≤ c.size) ↔
    (∃ c ∈ keptBefore l₁ b ++ b.keptAfter l₂, n ≤ c.size) ∨
      n ≤ (sizeBefore l₁ b + b.size + b.sizeAfter l₂) % sizeRange := by
  rcases List.eq_nil_or_concat l₁ with rfl | ⟨l, q, rfl⟩
  · simp [keptBefore, sizeBefore, mergeNext_eq hb, or_comm]
  · rw [List.concat_eq_append, merged_concat, mergeNext_eq hb, mergeNext, sizeBefore_concat]
    by_cases h : q.getEnd = b.begin <;>
      simp only [keptBefore, join, h, List.getLast?_concat, Option.any_some, decide_true,
        decide_false, if_true, if_false, List.dropLast_concat, List.mem_append, List.mem_cons,
        List.not_mem_nil, or_false, or_and_right, exists_or, exists_eq_left, Nat.add_mod_mod,
        Nat.add_assoc, Nat.zero_add, Bool.false_eq_true]
    · grind
    · grind

end Block

namespace Allocator

def roomAround (a : Allocator) (p : Pointer) : ℕ :=
  let it := a.findNearestFreeBlock p
  let b  := a.findBlock p.id
  (Block.sizeBefore (a.freeBlocks.take it) b + b.size + b.sizeAfter (a.freeBlocks.drop it)) %
    sizeRange

def blocksApart (a : Allocator) (p : Pointer) : List Block :=
  let it := a.findNearestFreeBlock p
  let b  := a.findBlock p.id
  Block.keptBefore (a.freeBlocks.take it) b ++ b.keptAfter (a.freeBlocks.drop it)

def HasRoom (a : Allocator) (p : Pointer) (n : ℕ) : Prop :=
  n = 0 ∨ (∃ c ∈ a.blocksApart p, n ≤ c.size) ∨ n ≤ a.roomAround p

def ReallocAtomic (w : World) (this : ℕ) (p : Pointer) (n : ℕ) : Prop :=
  (w.realloc this p n).1 = .error .noMemory →
    (w.realloc this p n).2.2 = p ∧
    (w.realloc this p n).2.1.allocators = w.allocators ∧
    ∀ b ∈ (w.allocators this).pointers.values, ∀ x ∈ b.span,
      (w.realloc this p n).2.1.memory x = w.memory x

variable {arena : Arena} {this n : ℕ} {w₀ w : World} {a : Allocator} {b : Block}
  {l₁ l₂ : List Block} {p : Pointer}

theorem Split.hasRoom_iff (h : a.Split p b l₁ l₂) (hb : a.pointers.find? p.id = some b)
    (hs : b.size < sizeRange) :
    a.HasRoom p n ↔ n = 0 ∨ ∃ c ∈ Block.merged l₁ b l₂, n ≤ c.size := by
  rw [Block.exists_mem_merged hs, HasRoom, roomAround, blocksApart, h.nearest, h.blocks]
  simp [findBlock, hb]

theorem alloc_fails_iff : (a.alloc this n).1 = .error .noMemory ↔
    ¬(n = 0 ∨ ∃ c ∈ a.freeBlocks, n ≤ c.size) := by
  cases a.alloc_cases this n with
  | zero hn eq          => exact iff_of_false (by simp [eq]) (by simp [hn])
  | noMemory hn full eq => simpa [eq, hn.ne'] using full
  | success _ _ b _ blocks enough _ eq =>
    simp only [eq, reduceCtorEq, false_iff, not_not]
    exact .inr ⟨b, by simp [blocks], enough⟩

-- A `realloc` of a live block fails if there is no room after it has been freed, and the pointer is
-- lost then.
theorem realloc_fails_iff (hs : (w.allocators this).Sound) (h : w.Denotes this p b) :
    ((w.realloc this p n).1 = .error .noMemory ↔ ¬(w.allocators this).HasRoom p n) ∧
      ((w.realloc this p n).1 = .error .noMemory → (w.realloc this p n).2.2 = {}) := by
  have ⟨l₁, l₂, hl⟩ := exists_split h.find
  have hf := World.free_of_split (w := w.memcpy (w.saveCopy this p)) hs h.memcpy hl
  rw [World.realloc_of_free h hf, hl.hasRoom_iff h.find (hs.live _ _ h.find).2]
  let freed := { w.allocators this with
    freeBlocks := Block.merged l₁ b l₂
    pointers   := (w.allocators this).pointers.erase p.id }
  have ha : (freed.alloc this n).1 = .error .noMemory ↔ _ := alloc_fails_iff
  rw [← ha]
  generalize hw : World.alloc _ this n = r
  have hr := congrArg Prod.fst hw
  simp only [World.alloc, World.update_allocators, World.memcpy_allocators] at hr
  rw [hr]
  rcases r with ⟨_ | q, w'⟩
  · exact ⟨by simp, fun _ => rfl⟩
  · exact ⟨by simp, by simp⟩

theorem reallocAtomic_null (h : p.get w.allocators = nullptr) : ReallocAtomic w this p n := by
  intro hf
  rw [World.realloc_null h] at hf ⊢
  cases (w.allocators this).alloc_cases this n with
  | zero _ eq | success _ _ _ _ _ _ _ eq => simp [World.alloc, eq] at hf
  | noMemory _ _ eq                      => simp [World.alloc, eq]

theorem run_reallocAtomic_iff (hi : Initial arena this w₀) (r : Run (Step this) w₀ w)
    (ho : p.allocator = some this) (hb : (w.allocators this).pointers.find? p.id = some b) :
    ReallocAtomic w this p n ↔
      p.get w.allocators = nullptr ∨ (w.allocators this).HasRoom p n := by
  by_cases hn : p.get w.allocators = nullptr
  case pos => exact iff_of_true (reallocAtomic_null hn) (.inl hn)
  case neg =>
    rw [or_iff_right hn]
    have ⟨hf, he⟩ := realloc_fails_iff (n := n) (Sound.run hi r) (.of_find ho hb hn)
    by_cases hr : (w.allocators this).HasRoom p n
    case pos => exact iff_of_true (fun h => absurd hr (hf.mp h)) hr
    case neg =>
      refine iff_of_false (fun h => ?_) hr
      have hp := he (hf.mpr hr)
      rw [(h (hf.mpr hr)).1] at hp
      simp [hp] at ho

theorem run_reallocAtomic_iff_of_one :
    let p : Pointer := ⟨some 0, 1⟩
    let w := ((World.fresh ⟨16, 8, by decide, by decide⟩).alloc 0 3).2
    ReallocAtomic w 0 p 5 ↔ p.get w.allocators = nullptr ∨ (w.allocators 0).HasRoom p 5 :=
  run_reallocAtomic_iff (b := ⟨16, 3⟩)
    (show Initial ⟨16, 8, by decide, by decide⟩ 0 (World.fresh _) from rfl)
    (.snoc .refl (.alloc 3) ⟨trivial, rfl⟩) rfl (by decide)

theorem not_reallocAtomic : ¬ ∀ (arena : Arena) (this : ℕ) (w₀ w : World) (p : Pointer) (b : Block)
    (n : ℕ), Initial arena this w₀ → Run (Step this) w₀ w → p.allocator = some this →
    (w.allocators this).pointers.find? p.id = some b → ReallocAtomic w this p n := by
  intro h
  have hr := h _ _ _ _ ⟨some 0, 1⟩ ⟨16, 3⟩ 5
    (show Initial ⟨16, 8, by decide, by decide⟩ 0 (World.fresh _) from rfl)
    (.snoc .refl (.alloc 3) ⟨trivial, rfl⟩) rfl (by decide)
  exact absurd (hr (by rfl)).1 (by decide)

end Allocator
