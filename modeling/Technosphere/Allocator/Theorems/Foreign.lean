import Technosphere.Allocator.Theorems.AnyArena
import Technosphere.Allocator.Theorems.Frees

-- Several allocators side by side, whose calls can also be given the pointers of each other.
namespace Block

variable {bs : List Block}

-- An empty block at the null address disappears in a block that is there already, and is put in
-- front of any other list.
theorem mergeNext_null_eq_iff (h : ∀ c ∈ bs, c.size < sizeRange) :
    mergeNext {} bs = bs ↔ ∃ c ∈ bs.head?, c.begin = nullptr := by
  cases bs with
  | nil       => simp [mergeNext]
  | cons c bs =>
    have hc : (∃ d ∈ (c :: bs).head?, d.begin = nullptr) ↔ getEnd {} = c.begin := by
      simp [getEnd, eq_comm]
    rw [hc, mergeNext]
    split_ifs with he
    · have hs : c.size % sizeRange = c.size := Nat.mod_eq_of_lt (h c (by simp))
      have hb : c.begin = nullptr := by simpa [getEnd] using he.symm
      have hj : join {} c = c := calc
        join {} c = ⟨nullptr, c.size⟩ := by simp only [join, Nat.zero_add, hs]
        _         = c                 := by rw [← hb]
      simp [hj, he]
    · have hl : ({} :: c :: bs : List Block) ≠ c :: bs := fun h => by
        simpa using congrArg List.length h
      exact iff_of_false hl he

end Block

namespace Allocator

variable {arena arena' : Arena} {this other : ℕ} {a : Allocator} {w w₀ w' : World} {b : Block}
  {p : Pointer} {e : ℕ × Call} {allocators : ℕ → Allocator}

def AnyStep (w : World) (e : ℕ × Call) (w' : World) : Prop :=
  w' = e.2.exec w e.1

theorem Sound.run_any (hi : Initial arena other w₀) (r : Run AnyStep w₀ w) :
    (w.allocators other).Sound := by
  apply r.invariant (P := fun w => (w.allocators other).Sound) (hi ▸ init arena)
  rintro w e _ h rfl
  exact h.exec e.1 e.2

def Rejects (w : World) (this : ℕ) (p : Pointer) : Prop :=
  w.free this p = (.error .invalidFree, w, p)

theorem Sound.getSize_ne (h : (w.allocators other).Sound) (hp : w.Live other p) :
    p.getSize w.allocators ≠ 0 := by
  obtain ⟨ho, hl⟩ := hp
  obtain ⟨b, hb⟩ := Option.isSome_iff_exists.mp hl
  simp only [Pointer.getSize, ho, findSize, Allocator.findBlock, hb, Option.getD_some]
  exact (h.live p.id b hb).1.ne'

theorem addFreeBlock_unknown (hs : p.getSize allocators ≠ 0)
    (hn : a.pointers.find? p.id = none) :
    (a.addFreeBlock allocators p).1.mergeBlocks (a.addFreeBlock allocators p).2 =
      { a with freeBlocks := Block.mergeNext {} a.freeBlocks } := by
  have hf : a.findBlock p.id = {} := by rw [findBlock, hn, Option.getD_none]
  have h₀ : a.findNearestFreeBlock p = 0 := by
    rw [findNearestFreeBlock, hf]
    cases a.freeBlocks with
    | nil       => rfl
    | cons c bs => simp [Block.getEnd, List.findIdx_cons]
  rw [addFreeBlock, if_neg hs, h₀, hf]
  exact mergeBlocks_first rfl

theorem mergeBlocks_pointers (it : ℕ) : (a.mergeBlocks it).pointers = a.pointers := by
  have hm (a : Allocator) (i j : ℕ) : (a.merge2Blocks i j).1.pointers = a.pointers := by
    simp only [merge2Blocks, extendBlock, splitBlock]
    split_ifs <;> rfl
  rw [mergeBlocks]
  split_ifs <;> simp [hm, apply_ite Allocator.pointers]

theorem free_pointers (allocators : ℕ → Allocator) :
    ((a.addFreeBlock allocators p).1.mergeBlocks (a.addFreeBlock allocators p).2).pointers =
      a.pointers := by
  rw [mergeBlocks_pointers, addFreeBlock]
  split_ifs <;> rfl

-- A pointer of another allocator is rejected without damage only by an allocator that does not know
-- its id, and that has been given such a pointer before.
theorem Sound.rejects_iff (h : (w.allocators other).Sound) (hs : (w.allocators this).Sound)
    (hp : w.Live other p) : Rejects w this p ↔
      p.get w.allocators ≠ nullptr ∧ (w.allocators this).pointers.find? p.id = none ∧
        ∃ c ∈ (w.allocators this).freeBlocks.head?, c.begin = nullptr := by
  by_cases hg : p.get w.allocators = nullptr
  case pos => simp [Rejects, World.free_null hg, hg]
  case neg =>
    have hp' := free_pointers (a := w.allocators this) (p := p) w.allocators
    rw [and_iff_right hg, Rejects, World.free, Allocator.free, if_neg hg]
    simp only [Allocator.erasePointer, hp']
    cases hf : (w.allocators this).pointers.find? p.id with
    | some b => simp
    | none   =>
      rw [addFreeBlock_unknown (h.getSize_ne hp) hf, ← Block.mergeNext_null_eq_iff hs.blocks]
      simp only [Option.isSome_none, Bool.false_eq_true, ↓reduceIte, Prod.mk.injEq, true_and,
        and_true]
      constructor
      · intro he
        have ha := congrArg (fun w => (w.allocators this).freeBlocks) he
        simpa using ha
      · intro he
        rw [he]
        exact World.update_self

theorem run_rejects_iff (hi : Initial arena other w₀) (hi' : Initial arena' this w₀)
    (r : Run AnyStep w₀ w) (hp : w.Live other p) : Rejects w this p ↔
      p.get w.allocators ≠ nullptr ∧ (w.allocators this).pointers.find? p.id = none ∧
        ∃ c ∈ (w.allocators this).freeBlocks.head?, c.begin = nullptr :=
  (Sound.run_any hi r).rejects_iff (Sound.run_any hi' r) hp

theorem run_rejects_iff_of_again :
    let w₀ : World := ⟨Function.update (fun _ => init 16 8) 1 (init 32 8), fun _ => 0⟩
    let w := ((w₀.alloc 1 2).2.free 0 ⟨some 1, 1⟩).2.1
    Rejects w 0 ⟨some 1, 1⟩ := by
  intro w₀ w
  have r : Run AnyStep w₀ w :=
    .snoc (.snoc .refl (1, .alloc 2) rfl) (0, .free ⟨some 1, 1⟩) rfl
  have hi : Initial ⟨32, 8, by decide, by decide⟩ 1 w₀ := rfl
  have hi' : Initial ⟨16, 8, by decide, by decide⟩ 0 w₀ := rfl
  exact (run_rejects_iff hi hi' r ⟨rfl, by decide⟩).mpr
    ⟨by decide, by decide, ⟨0, 0⟩, by decide, rfl⟩

-- The first attempt throws, but leaves an empty block at the null address behind. When the id of
-- the pointer also names a block of the allocator that is asked, that block is freed.
theorem not_rejects :
    let w₀ : World := ⟨Function.update (fun _ => init 16 8) 1 (init 32 8), fun _ => 0⟩
    let w₁ := (w₀.alloc 1 2).2
    let w₂ := (w₁.alloc 0 2).2
    let p : Pointer := ⟨some 1, 1⟩
    (Nonempty (Run AnyStep w₀ w₁) ∧ w₁.Live 1 p ∧ ¬Rejects w₁ 0 p) ∧
      Nonempty (Run AnyStep w₀ w₂) ∧ w₂.Live 1 p ∧ ¬Rejects w₂ 0 p := by
  intro w₀ w₁ w₂ p
  have r₁ : Run AnyStep w₀ w₁ := .snoc .refl (1, .alloc 2) rfl
  have r₂ : Run AnyStep w₀ w₂ := r₁.snoc (0, .alloc 2) rfl
  refine ⟨⟨⟨r₁⟩, ⟨rfl, by decide⟩, fun h => ?_⟩, ⟨r₂⟩, ⟨rfl, by decide⟩, fun h => ?_⟩
  · have hl := congrArg (fun r => (r.2.1.allocators 0).freeBlocks.length) h
    exact absurd hl (by decide)
  · exact absurd (congrArg Prod.fst h) (by decide)

end Allocator
