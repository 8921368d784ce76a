import Technosphere.Allocator.Theorems.Defrag

open Set Tiling

namespace World

variable {w w' : World} {p : Pointer} {this n : ℕ}

@[simp]
theorem update_allocators : (w.update this a).allocators this = a := by
  simp [update]

@[simp]
theorem memcpy_allocators : (w.memcpy c).allocators = w.allocators :=
  rfl

@[simp]
theorem update_self : w.update this (w.allocators this) = w := by
  simp [update]

structure Denotes (w : World) (this : ℕ) (p : Pointer) (b : Block) : Prop where
  owner   : p.allocator = some this
  find    : (w.allocators this).pointers.find? p.id = some b
  nonnull : b.begin ≠ nullptr

namespace Denotes

theorem get (h : w.Denotes this p b) : p.get w.allocators = b.begin := by
  simp [Pointer.get, h.owner, Allocator.findBegin, Allocator.findBlock, h.find]

theorem getSize (h : w.Denotes this p b) : p.getSize w.allocators = b.size := by
  simp [Pointer.getSize, h.owner, Allocator.findSize, Allocator.findBlock, h.find]

theorem get_ne (h : w.Denotes this p b) : p.get w.allocators ≠ nullptr :=
  h.get ▸ h.nonnull

end Denotes

theorem null_or_denotes (h : (w.allocators this).Issued this p) :
    p.get w.allocators = nullptr ∨ ∃ b, w.Denotes this p b := by
  rcases h with rfl | ⟨ho, _⟩
  · exact .inl rfl
  · cases hf : (w.allocators this).pointers.find? p.id with
    | none => simp [Pointer.get, ho, Allocator.findBegin, Allocator.findBlock, hf]
    | some b =>
      by_cases hb : b.begin = nullptr
      case pos => simp [Pointer.get, ho, Allocator.findBegin, Allocator.findBlock, hf, hb]
      case neg => exact .inr ⟨b, ho, hf, hb⟩

theorem free_null (h : p.get w.allocators = nullptr) : w.free this p = (.ok (), w, p) := by
  simp [free, Allocator.free, h]

theorem free_denotes (h : w.Denotes this p b) (hw : (w.allocators this).WellFormed) :
    ∃ a, w.free this p = (.ok (), w.update this a, {}) ∧ a.WellFormed ∧
      ∃ bs, a = { w.allocators this with
        freeBlocks := bs, pointers := (w.allocators this).pointers.erase p.id } := by
  have ⟨bs, hf, ha⟩ := hw.free h.find h.get_ne h.getSize
  exact ⟨_, by simp only [free, hf], ha, bs, rfl⟩

theorem Denotes.memcpy (h : w.Denotes this p b) : (w.memcpy c).Denotes this p b :=
  ⟨h.owner, h.find, h.nonnull⟩

def restore (w : World) (this : ℕ) (p : Pointer) (n : ℕ) : World :=
  if p.get w.allocators ≠ nullptr then w.memcpy (w.restoreCopy this p n) else w

@[simp]
theorem restore_allocators : (w.restore this p n).allocators = w.allocators := by
  simp only [restore]
  split_ifs <;> rfl

theorem realloc_null (h : p.get w.allocators = nullptr) :
    w.realloc this p n = match w.alloc this n with
      | (.ok q, w')    => (.ok (), w', q)
      | (.error e, w') => (.error e, w', p) := by
  rcases hr : w.alloc this n with ⟨_ | _, _⟩ <;> simp only [realloc, h, hr, ↓reduceIte]

theorem realloc_of_free (h : w.Denotes this p b)
    (hf : (w.memcpy (w.saveCopy this p)).free this p = (.ok (), w', {})) :
    w.realloc this p n = match w'.alloc this n with
      | (.ok q, w'')    => (.ok (), w''.restore this q (min b.size n), q)
      | (.error e, w'') => (.error e, w'', {}) := by
  simp only [realloc, h.get_ne, ↓reduceIte, hf, h.getSize]
  rcases w'.alloc this n with ⟨_ | q, w''⟩
  · rfl
  · simp only [restore]
    split_ifs <;> rfl

theorem realloc_denotes (h : w.Denotes this p b) (hw : (w.allocators this).WellFormed) :
    ∃ a, a.WellFormed ∧
      (∃ bs, a = { w.allocators this with
        freeBlocks := bs, pointers := (w.allocators this).pointers.erase p.id }) ∧
      w.realloc this p n =
        match ((w.memcpy (w.saveCopy this p)).update this a).alloc this n with
        | (.ok q, w')    => (.ok (), w'.restore this q (min b.size n), q)
        | (.error e, w') => (.error e, w', {}) := by
  have hm := h.memcpy (c := w.saveCopy this p)
  have ⟨a, hf, ha, hbs⟩ := free_denotes hm hw
  exact ⟨a, ha, hbs, realloc_of_free h hf⟩

end World

namespace Allocator

variable {arena : Arena} {this n : ℕ} {a : Allocator} {w w' : World} {c : Call}

theorem Halves.alloc (h : a.Halves arena) : (a.alloc this n).2.Halves arena := by
  cases a.alloc_cases this n with
  | zero _ eq | noMemory _ _ eq => exact eq ▸ h
  | success _ _ _ _ _ _ _ eq => exact eq ▸ ⟨h.bounds⟩

theorem Halves.size_eq (h : a.Halves arena) (he : Even arena.size) :
    a.memorySize₁ = arena.size / 2 ∧ a.memorySize₂ = arena.size / 2 := by
  have := Nat.even_iff.mp he
  have := h.bounds
  omega

def Call.Fits (w : World) (this : ℕ) : Call → Prop
  | alloc _ | free _ | realloc .. => True
  | defrag                        =>
    (w.allocators this).liveSize ≤ (w.allocators this).memorySize₂

structure Invariant (arena : Arena) (this : ℕ) (w : World) : Prop where
  wellFormed : (w.allocators this).WellFormed
  halves     : (w.allocators this).Halves arena

namespace Invariant

theorem initial (h : Initial arena this w) : Invariant arena this w where
  wellFormed := h ▸ WellFormed.init arena.fits
  halves     := h ▸ ⟨.inl ⟨rfl, rfl, rfl, rfl⟩⟩

theorem of_allocator_eq (h : Invariant arena this w) (he : w'.allocators this = w.allocators this) :
    Invariant arena this w' :=
  ⟨he ▸ h.wellFormed, he ▸ h.halves⟩

theorem alloc (h : Invariant arena this w) : Invariant arena this (w.alloc this n).2 where
  wellFormed := by simpa [World.alloc] using h.wellFormed.alloc
  halves     := by simpa [World.alloc] using h.halves.alloc

theorem free {p : Pointer} (h : Invariant arena this w) (hp : (w.allocators this).Issued this p) :
    Invariant arena this (w.free this p).2.1 := by
  rcases World.null_or_denotes hp with hn | ⟨b, hd⟩
  · rwa [World.free_null hn]
  · have ⟨a, hf, ha, bs, hbs⟩ := World.free_denotes hd h.wellFormed
    rw [hf]
    exact ⟨by simpa using ha, by simpa [hbs] using ⟨h.halves.bounds⟩⟩

theorem realloc {p : Pointer} (h : Invariant arena this w)
    (hp : (w.allocators this).Issued this p) : Invariant arena this (w.realloc this p n).2.1 := by
  rcases World.null_or_denotes hp with hn | ⟨b, hd⟩
  · have ha := h.alloc (n := n)
    rw [World.realloc_null hn]
    rcases hw : w.alloc this n with ⟨_ | _, w'⟩ <;> simpa [hw] using ha
  · have ⟨a, ha, ⟨bs, hbs⟩, hr⟩ := World.realloc_denotes (n := n) hd h.wellFormed
    have h' : Invariant arena this ((w.memcpy (w.saveCopy this p)).update this a) :=
      ⟨by simpa using ha, by simpa [hbs] using ⟨h.halves.bounds⟩⟩
    have hal := h'.alloc (n := n)
    rw [hr]
    rcases hw : ((w.memcpy (w.saveCopy this p)).update this a).alloc this n with ⟨_ | q, w'⟩
    · simpa [hw] using hal
    · exact hal.of_allocator_eq (by simp [hw])

theorem liveSize_le (h : Invariant arena this w) (he : Even arena.size) :
    (w.allocators this).liveSize ≤ (w.allocators this).memorySize₂ := by
  have := h.wellFormed.liveSize_le
  have := h.halves.size_eq he
  omega

theorem fits (h : Invariant arena this w) (he : Even arena.size) : c.Fits w this := by
  cases c with
  | alloc n | free p | realloc p n => trivial
  | defrag                         => exact h.liveSize_le he

theorem spare_fits (h : Invariant arena this w) :
    (w.allocators this).base₂ + (w.allocators this).memorySize₂ < sizeRange := by
  have := h.halves.bounds
  have := arena.fits
  omega

theorem defrag (h : Invariant arena this w)
    (hl : (w.allocators this).liveSize ≤ (w.allocators this).memorySize₂) :
    Invariant arena this (w.defrag this) where
  wellFormed := by simpa [World.defrag] using h.wellFormed.defrag hl h.spare_fits
  halves     := by
    simp only [World.defrag, World.update_allocators, defrag_eq hl h.spare_fits]
    constructor
    rcases h.halves.bounds with ⟨h₁, h₂, h₃, h₄⟩ | ⟨h₁, h₂, h₃, h₄⟩
    · exact .inr ⟨h₁, h₂, h₃, h₄⟩
    · exact .inl ⟨h₁, h₂, h₃, h₄⟩

theorem step_of_fits (h : Invariant arena this w) (hf : c.Fits w this) (hs : Step this w c w') :
    Invariant arena this w' := by
  obtain ⟨hv, rfl⟩ := hs
  cases c with
  | alloc n     => exact h.alloc
  | free p      => exact h.free hv
  | realloc p n => exact h.realloc hv
  | defrag      => exact h.defrag hf

theorem step (he : Even arena.size) (h : Invariant arena this w) (hs : Step this w c w') :
    Invariant arena this w' :=
  h.step_of_fits (h.fits he) hs

theorem run {w₀ : World} (he : Even arena.size) (hi : Initial arena this w₀)
    (r : Run (Step this) w₀ w) : Invariant arena this w :=
  r.invariant (initial hi) (step he)

-- In any arena the invariant is kept up to the first `defrag` that does not fit.
theorem run_of_fits (h : Invariant arena this w) (r : Run (Step this) w w')
    (hf : ∀ s ∈ r.steps, s.2.Fits s.1 this) : Invariant arena this w' :=
  r.states_of_steps h step_of_fits hf _ r.last_mem_states

theorem steps_fit (he : Even arena.size) (h : Invariant arena this w) (r : Run (Step this) w w') :
    ∀ s ∈ r.steps, s.2.Fits s.1 this := by
  induction r with
  | refl           => simp [Run.steps]
  | snoc r c hs ih => exact Run.forall_mem_steps_snoc.mpr ⟨ih, (h.run_of_fits r ih).fits he⟩

end Invariant

end Allocator
