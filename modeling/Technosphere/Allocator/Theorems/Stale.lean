import Technosphere.Allocator.Theorems.Safety
import Technosphere.Allocator.Theorems.Integrity

namespace Allocator

variable {arena : Arena} {this id n : ℕ} {w w₀ w₁ w₂ w' : World} {a a₁ a₂ : Allocator} {c : Call}
  {p q : Pointer} {gone : ℕ → Prop}

-- Of the ids that have been given out in `a`, those that are `gone` name no block in `a'`, and the
-- others name one if they did.
structure Survive (gone : ℕ → Prop) (a a' : Allocator) : Prop where
  pointerId : a.pointerId ≤ a'.pointerId
  live      : ∀ id < a.pointerId, (a'.pointers.find? id).isSome ↔
    (a.pointers.find? id).isSome ∧ ¬gone id

namespace Survive

theorem refl (h : ∀ id, gone id → a.pointers.find? id = none) : Survive gone a a where
  pointerId := le_rfl
  live id _ := by
    refine ⟨fun hs => ⟨hs, fun hg => ?_⟩, And.left⟩
    simp [h id hg] at hs

theorem trans {gone' : ℕ → Prop} (h₁ : Survive gone a a₁) (h₂ : Survive gone' a₁ a₂) :
    Survive (fun id => gone id ∨ gone' id) a a₂ where
  pointerId := h₁.pointerId.trans h₂.pointerId
  live id hi := by
    rw [h₂.live id (hi.trans_le h₁.pointerId), h₁.live id hi, not_or, and_assoc]

theorem alloc (a : Allocator) (this n : ℕ) : Survive (fun _ => False) a (a.alloc this n).2 := by
  cases a.alloc_cases this n with
  | zero _ eq | noMemory _ _ eq => exact eq ▸ refl (fun _ => False.elim)
  | success _ _ _ _ _ _ _ eq    =>
    rw [eq]
    refine ⟨Nat.le_succ _, fun id hi => ?_⟩
    simp [SortedMap.find?_insert, hi.ne]

theorem erase (bs : List Block) : Survive (· = id) a
    { a with freeBlocks := bs, pointers := a.pointers.erase id } where
  pointerId := le_rfl
  live i _ := by
    simp only [SortedMap.find?_erase]
    split_ifs with h <;> simp [h]

end Survive

theorem foldl_defragBody_keys {es : List (ℕ × Block)} {l : DefragLocals} :
    ((es.foldl a.defragBody l).tempPointers.find? id).isSome ↔
      id ∈ es.map (·.1) ∨ (l.tempPointers.find? id).isSome := by
  induction es generalizing l with
  | nil          => simp
  | cons e es ih =>
    rw [List.foldl_cons, ih, List.map_cons, List.mem_cons, or_comm (a := id = e.1), or_assoc]
    simp only [defragBody, ← SortedMap.mem_keys, SortedMap.mem_keys_insert]

theorem Survive.defrag (a : Allocator) : Survive (fun _ => False) a a.defrag.1 where
  pointerId := le_rfl
  live id _ := by
    simp only [Allocator.defrag, defragLoop, foldl_defragBody_keys, not_false_eq_true, and_true]
    simp [← SortedMap.mem_keys, SortedMap.keys]

theorem survive_erase (hd : w.Denotes this p b) (bs : List Block) :
    Survive (fun id => p.allocator = some this ∧ p.id = id) (w.allocators this)
      { w.allocators this with
        freeBlocks := bs, pointers := (w.allocators this).pointers.erase p.id } := by
  have h : Survive (· = p.id) (w.allocators this) _ := Survive.erase bs
  simpa [hd.owner, eq_comm] using h

theorem survive_alloc (w : World) (this n : ℕ) : Survive (fun _ => False) (w.allocators this)
    ((w.alloc this n).2.allocators this) := by
  simpa [World.alloc] using Survive.alloc (w.allocators this) this n

namespace Invariant

theorem survive_null (h : Invariant arena this w) (hn : p.get w.allocators = nullptr) :
    Survive (fun id => p.allocator = some this ∧ p.id = id) (w.allocators this)
      (w.allocators this) := by
  refine .refl ?_
  rintro _ ⟨ho, rfl⟩
  by_contra hf
  obtain ⟨b, hb⟩ := Option.ne_none_iff_exists'.mp hf
  exact World.Denotes.get_ne ⟨ho, hb, h.nonnull hb⟩ hn

theorem survive_free (h : Invariant arena this w) (hp : (w.allocators this).Issued this p) :
    Survive (fun id => p.allocator = some this ∧ p.id = id) (w.allocators this)
      ((w.free this p).2.1.allocators this) := by
  rcases World.null_or_denotes hp with hn | ⟨b, hd⟩
  · rw [World.free_null hn]
    exact h.survive_null hn
  · obtain ⟨a, hf, _, bs, rfl⟩ := World.free_denotes hd h.wellFormed
    simpa [hf] using survive_erase hd bs

theorem survive_realloc (h : Invariant arena this w) (hp : (w.allocators this).Issued this p)
    (n : ℕ) : Survive (fun id => p.allocator = some this ∧ p.id = id) (w.allocators this)
      ((w.realloc this p n).2.1.allocators this) := by
  rcases World.null_or_denotes hp with hn | ⟨b, hd⟩
  · have ha := (h.survive_null hn).trans (survive_alloc w this n)
    rw [World.realloc_null hn]
    rcases hw : w.alloc this n with ⟨_ | _, w'⟩ <;> simpa [hw] using ha
  · obtain ⟨a, _, ⟨bs, rfl⟩, hr⟩ := World.realloc_denotes (n := n) hd h.wellFormed
    have ha := survive_alloc ((w.memcpy (w.saveCopy this p)).update this
      { w.allocators this with
        freeBlocks := bs, pointers := (w.allocators this).pointers.erase p.id }) this n
    simp only [World.update_allocators] at ha
    have ha := (survive_erase hd bs).trans ha
    rw [hr]
    rcases hw : World.alloc _ this n with ⟨_ | q, w'⟩ <;> rw [hw] at ha <;> simpa using ha

theorem survive_step (h : Invariant arena this w) (hs : Step this w c w') :
    Survive (c.Releases this) (w.allocators this) (w'.allocators this) := by
  obtain ⟨hv, rfl⟩ := hs
  cases c with
  | alloc n     => exact survive_alloc w this n
  | free p      => exact h.survive_free hv
  | realloc p n => exact h.survive_realloc hv n
  | defrag      =>
    simpa [Call.exec, Call.Releases, World.defrag] using Survive.defrag (w.allocators this)

end Invariant

def Call.Takes (p : Pointer) : Call → Prop
  | alloc _ | defrag     => False
  | free q | realloc q _ => q = p

theorem Call.takes_iff (hp : p.allocator = some this) : c.Takes p ↔ c.Releases this p.id := by
  cases c with
  | alloc _ | defrag => rfl
  | free q | realloc q n =>
    constructor
    · rintro rfl
      exact ⟨hp, rfl⟩
    · rintro ⟨ho, hi⟩
      obtain ⟨_, _⟩ := p
      obtain ⟨_, _⟩ := q
      simp_all [Call.Takes]

theorem Call.Valid.issued_of_takes (hv : c.Valid w this) (hq : c.Takes q) :
    (w.allocators this).Issued this q := by
  cases c with
  | alloc _ | defrag     => exact hq.elim
  | free p | realloc p n => exact hq ▸ hv

theorem Invariant.run_survive (h : Invariant arena this w₁) (r : Run (Step this) w₁ w₂)
    (hf : ∀ s ∈ r.steps, s.2.Fits s.1 this) :
    Survive (fun id => ∃ c ∈ r.events, c.Releases this id) (w₁.allocators this)
      (w₂.allocators this) := by
  induction r with
  | refl          => exact .refl (by simp [Run.events])
  | snoc r c hs ih =>
    rw [Run.forall_mem_steps_snoc] at hf
    have hm := h.run_of_fits r hf.1
    simpa [Run.events, or_and_right, exists_or] using (ih hf.1).trans (hm.survive_step hs)

structure Stale (w : World) (this : ℕ) (q : Pointer) : Prop where
  get  : q.get w.allocators = nullptr
  free : w.free this q = (.ok (), w, q)

structure Fresh (w w' : World) (this : ℕ) (q : Pointer) : Prop where
  before : ¬(w.allocators this).Issued this q
  after  : (w'.allocators this).Issued this q
  get    : q.get w'.allocators ≠ nullptr

structure Handles (this : ℕ) (r : Run (Step this) w₁ w₂) : Prop where
  stale   : ∀ q, (∃ c ∈ r.events, c.Takes q) → Stale w₂ this q
  live    : ∀ p, (w₁.allocators this).Issued this p → p.get w₁.allocators ≠ nullptr →
    (∀ c ∈ r.events, ¬c.Takes p) → p.get w₂.allocators ≠ nullptr
  alloc   : ∀ n q, 1 ≤ n → (w₂.alloc this n).1 = .ok q → Fresh w₂ (w₂.alloc this n).2 this q
  realloc : ∀ p n, (w₂.allocators this).Issued this p → 1 ≤ n →
    (w₂.realloc this p n).1 = .ok () →
      Fresh w₂ (w₂.realloc this p n).2.1 this (w₂.realloc this p n).2.2

namespace Invariant

theorem get_eq_null_iff (h : Invariant arena this w) (ho : p.allocator = some this) :
    p.get w.allocators = nullptr ↔ ¬((w.allocators this).pointers.find? p.id).isSome := by
  cases hf : (w.allocators this).pointers.find? p.id with
  | none   => simp [Pointer.get, ho, findBegin, findBlock, hf]
  | some b => simpa using World.Denotes.get_ne ⟨ho, hf, h.nonnull hf⟩

theorem issued_step (h : Invariant arena this w) (hs : Step this w c w')
    (hp : (w.allocators this).Issued this p) : (w'.allocators this).Issued this p :=
  hp.imp id fun ⟨ho, hi⟩ => ⟨ho, hi.trans_le (h.survive_step hs).pointerId⟩

theorem null_step (h : Invariant arena this w) (hf : c.Fits w this) (hs : Step this w c w')
    (hp : (w.allocators this).Issued this p)
    (hn : c.Takes p ∨ p.get w.allocators = nullptr) : p.get w'.allocators = nullptr := by
  rcases hp with rfl | ⟨ho, hi⟩
  · rfl
  · rw [Call.takes_iff ho, h.get_eq_null_iff ho] at hn
    rw [(h.step_of_fits hf hs).get_eq_null_iff ho, (h.survive_step hs).live _ hi]
    tauto

-- The pointer that a call takes has been given out before that call, so that no later block gets
-- its id.
theorem run_null (h : Invariant arena this w₁) (r : Run (Step this) w₁ w₂)
    (hf : ∀ s ∈ r.steps, s.2.Fits s.1 this) (hc : c ∈ r.events) (hq : c.Takes q) :
    (w₂.allocators this).Issued this q ∧ q.get w₂.allocators = nullptr := by
  induction r with
  | refl           => simp [Run.events] at hc
  | snoc r e hs ih =>
    rw [Run.forall_mem_steps_snoc] at hf
    have hm := h.run_of_fits r hf.1
    simp only [Run.events, List.mem_append, List.mem_singleton] at hc
    rcases hc with hc | rfl
    · obtain ⟨hi, hn⟩ := ih hf.1 hc
      exact ⟨hm.issued_step hs hi, hm.null_step hf.2 hs hi (.inr hn)⟩
    · have hi : (Allocator.Issued _ this q) := hs.1.issued_of_takes hq
      exact ⟨hm.issued_step hs hi, hm.null_step hf.2 hs hi (.inl hq)⟩

theorem run_live (h : Invariant arena this w₁) (r : Run (Step this) w₁ w₂)
    (hf : ∀ s ∈ r.steps, s.2.Fits s.1 this) (hi : (w₁.allocators this).Issued this p)
    (hp : p.get w₁.allocators ≠ nullptr) (hc : ∀ c ∈ r.events, ¬c.Takes p) :
    p.get w₂.allocators ≠ nullptr := by
  rcases hi with rfl | ⟨ho, hi⟩
  · exact absurd rfl hp
  · rw [Ne, h.get_eq_null_iff ho, not_not] at hp
    rw [Ne, (h.run_of_fits r hf).get_eq_null_iff ho, not_not, (h.run_survive r hf).live _ hi]
    exact ⟨hp, fun ⟨c, hm, hr⟩ => hc c hm ((Call.takes_iff ho).mpr hr)⟩

theorem alloc_fresh (h : Invariant arena this w) (hn : 1 ≤ n)
    (ha : (w.alloc this n).1 = .ok q) : Fresh w (w.alloc this n).2 this q := by
  have hs := h.alloc (n := n)
  cases (w.allocators this).alloc_cases this n with
  | zero hz _          => omega
  | noMemory _ _ eq    => simp [World.alloc, eq] at ha
  | success _ _ _ _ _ _ _ eq =>
    simp only [World.alloc, eq, Except.ok.injEq] at ha hs ⊢
    subst ha
    refine ⟨?_, .inr ⟨rfl, by simp⟩, ?_⟩
    · rintro (he | ⟨_, hi⟩)
      · cases he
      · exact lt_irrefl _ hi
    · rw [Ne, hs.get_eq_null_iff rfl, not_not]
      simp [← SortedMap.mem_keys, SortedMap.mem_keys_insert]

theorem realloc_fresh (h : Invariant arena this w) (hp : (w.allocators this).Issued this p)
    (hn : 1 ≤ n) (hr : (w.realloc this p n).1 = .ok ()) :
    Fresh w (w.realloc this p n).2.1 this (w.realloc this p n).2.2 := by
  rcases World.null_or_denotes hp with hp | ⟨b, hd⟩
  · have ha (q) := h.alloc_fresh (q := q) hn
    rw [World.realloc_null hp] at hr ⊢
    rcases hw : w.alloc this n with ⟨_ | q, w'⟩ <;> rw [hw] at hr ha
    · simp at hr
    · exact ha q rfl
  · obtain ⟨a, hwf, ⟨bs, hbs⟩, he⟩ := World.realloc_denotes (n := n) hd h.wellFormed
    have hm : Invariant arena this ((w.memcpy (w.saveCopy this p)).update this a) :=
      ⟨by simpa using hwf, by simpa [hbs] using ⟨h.halves.bounds⟩⟩
    have ha (q) := hm.alloc_fresh (q := q) hn
    rw [he] at hr ⊢
    rcases hw : World.alloc _ this n with ⟨_ | q, w'⟩ <;> rw [hw] at hr ha
    · simp at hr
    · obtain ⟨h₁, h₂, h₃⟩ := ha q rfl
      exact ⟨by simpa [Issued, hbs] using h₁, by simpa using h₂, by simpa using h₃⟩

theorem handles (h : Invariant arena this w₁) (r : Run (Step this) w₁ w₂)
    (hf : ∀ s ∈ r.steps, s.2.Fits s.1 this) : Handles this r where
  stale q hq := by
    obtain ⟨c, hc, hq⟩ := hq
    have hn := (h.run_null r hf hc hq).2
    exact ⟨hn, World.free_null hn⟩
  live p hp hg hc := h.run_live r hf hp hg hc
  alloc n q hn ha := (h.run_of_fits r hf).alloc_fresh hn ha
  realloc p n hp hn hr := (h.run_of_fits r hf).realloc_fresh hp hn hr

end Invariant

theorem run_handles (hi : Initial arena this w₀) (r₁ : Run (Step this) w₀ w₁)
    (r₂ : Run (Step this) w₁ w₂) (h₁ : ∀ s ∈ r₁.steps, s.2.Fits s.1 this)
    (h₂ : ∀ s ∈ r₂.steps, s.2.Fits s.1 this) : Handles this r₂ :=
  ((Invariant.initial hi).run_of_fits r₁ h₁).handles r₂ h₂

theorem run_handles_even (he : Even arena.size) (hi : Initial arena this w₀)
    (r₁ : Run (Step this) w₀ w₁) (r₂ : Run (Step this) w₁ w₂) : Handles this r₂ :=
  have h₁ := Invariant.run he hi r₁
  h₁.handles r₂ (h₁.steps_fit he r₂)

theorem run_handles_of_free :
    let arena : Arena := ⟨16, 17, by decide, by decide⟩
    let w₁ := (((World.fresh arena).alloc 0 2).2.alloc 0 2).2
    let w₂ := (w₁.free 0 ⟨some 0, 1⟩).2.1.defrag 0
    ∃ r : Run (Step 0) w₁ w₂, r.events = [.free ⟨some 0, 1⟩, .defrag] ∧ Handles 0 r := by
  intro arena w₁ w₂
  let r₁ : Run (Step 0) (World.fresh arena) w₁ :=
    .snoc (.snoc .refl (.alloc 2) ⟨trivial, rfl⟩) (.alloc 2) ⟨trivial, rfl⟩
  have hv : (w₁.allocators 0).Issued 0 ⟨some 0, 1⟩ := .inr ⟨rfl, by decide⟩
  let r₂ : Run (Step 0) w₁ w₂ :=
    .snoc (.snoc .refl (.free ⟨some 0, 1⟩) ⟨hv, rfl⟩) .defrag ⟨trivial, rfl⟩
  have h₁ : ∀ s ∈ r₁.steps, s.2.Fits s.1 0 := by
    simp [r₁, Run.steps, Call.Fits]
  have hl : Call.defrag.Fits (w₁.free 0 ⟨some 0, 1⟩).2.1 0 :=
    show ((w₁.free 0 ⟨some 0, 1⟩).2.1.allocators 0).liveSize ≤
      ((w₁.free 0 ⟨some 0, 1⟩).2.1.allocators 0).memorySize₂ by decide
  have h₂ : ∀ s ∈ r₂.steps, s.2.Fits s.1 0 :=
    Run.forall_mem_steps_snoc.mpr ⟨by simp [Run.steps, Call.Fits], hl⟩
  exact ⟨r₂, rfl, run_handles (show Initial arena 0 (World.fresh arena) from rfl) r₁ r₂ h₁ h₂⟩

-- In an arena of three bytes a `defrag` does not fit, and leaves a free block that reaches around
-- the address space. When all of it up to its last address has been allocated, the next block is
-- at the null address.
theorem not_handles :
    let arena : Arena := ⟨16, 3, by decide, by decide⟩
    let w := (((((World.fresh arena).defrag 0).alloc 0 2).2.defrag 0).alloc 0 (sizeRange - 18)).2
    let p : Pointer := ⟨some 0, 3⟩
    ∃ (r₁ : Run (Step 0) (World.fresh arena) w) (r₂ : Run (Step 0) w w),
      Initial arena 0 (World.fresh arena) ∧ (w.alloc 0 1).1 = .ok p ∧
        p.get (w.alloc 0 1).2.allocators = nullptr ∧
        (∀ c ∈ r₁.events ++ r₂.events, ¬c.Takes p) ∧ ¬Handles 0 r₂ := by
  intro arena w p
  have hp : (w.alloc 0 1).1 = .ok p := by decide
  have hg : p.get (w.alloc 0 1).2.allocators = nullptr := by decide
  refine ⟨.snoc (.snoc (.snoc (.snoc .refl .defrag ⟨trivial, rfl⟩) (.alloc 2) ⟨trivial, rfl⟩)
    .defrag ⟨trivial, rfl⟩) (.alloc (sizeRange - 18)) ⟨trivial, rfl⟩, .refl, rfl, hp, hg, ?_, ?_⟩
  · simp [Run.events, Call.Takes]
  · exact fun h => (h.alloc 1 p le_rfl hp).get hg

end Allocator
