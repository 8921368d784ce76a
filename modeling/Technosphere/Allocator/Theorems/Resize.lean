import Technosphere.Allocator.Theorems.FirstFit
import Technosphere.Allocator.Theorems.Frees

open Set Tiling

namespace Allocator

variable {arena : Arena} {this x y m n : ℕ} {w₀ w : World} {a : Allocator} {b : Block}
  {p q : Pointer}

def without (a : Allocator) (id : ℕ) : Allocator :=
  { a with pointers := a.pointers.erase id }

theorem Unallocated.without (h : a.Unallocated x n) (id : ℕ) : (a.without id).Unallocated x n := by
  refine ⟨h.1, fun b hb => h.2 b ?_⟩
  obtain ⟨k, hk⟩ := SortedMap.mem_values.mp hb
  simp only [Allocator.without, SortedMap.find?_erase] at hk
  split_ifs at hk
  exact SortedMap.mem_values.mpr ⟨k, hk⟩

theorem Unallocated.mono (h : a.Unallocated x n) (hs : Ico y (y + m) ⊆ Ico x (x + n)) :
    a.Unallocated y m :=
  ⟨hs.trans h.1, fun b hb => (h.2 b hb).mono_right hs⟩

theorem Unallocated.of_without {id : ℕ} (h : (a.without id).Unallocated x n)
    (hb : ∀ b, a.pointers.find? id = some b → Disjoint b.span (Ico x (x + n))) :
    a.Unallocated x n := by
  refine ⟨h.1, fun c hc => ?_⟩
  obtain ⟨k, hk⟩ := SortedMap.mem_values.mp hc
  by_cases hid : k = id
  case pos => exact hb c (hid ▸ hk)
  case neg => exact h.2 c (SortedMap.mem_values.mpr ⟨k, by simp [Allocator.without, hid, hk]⟩)

theorem Unallocated.append (h₁ : a.Unallocated x m) (h₂ : a.Unallocated (x + m) n) :
    a.Unallocated x (m + n) := by
  have hu : Ico x (x + (m + n)) = Ico x (x + m) ∪ Ico (x + m) (x + m + n) := by
    rw [Ico_union_Ico_eq_Ico (Nat.le_add_right ..) (Nat.le_add_right ..), add_assoc]
  rw [Unallocated, hu]
  exact ⟨union_subset h₁.1 h₂.1, fun b hb => (h₁.2 b hb).union_right (h₂.2 b hb)⟩

theorem WellFormed.unallocated_without (h : a.WellFormed) (hb : a.pointers.find? p.id = some b) :
    (a.without p.id).Unallocated b.begin b.size := by
  refine ⟨h.tiles.subset (List.mem_append_right _ (SortedMap.mem_values.mpr ⟨_, hb⟩)), ?_⟩
  intro c hc
  obtain ⟨k, hk⟩ := SortedMap.mem_values.mp hc
  simp only [Allocator.without, SortedMap.find?_erase] at hk
  split_ifs at hk with hid
  have hd := h.disjoint hk hb hid
  exact Set.disjoint_left.mpr fun z hz hz' => by
    simp only [Block.span, Block.stop, mem_Ico] at hz hz' hd
    omega

theorem WellFormed.alloc_least (h : a.WellFormed) (hn : 0 < n)
    (hp : (a.alloc this n).1 = .ok p) : a.Unallocated ((a.alloc this n).2.findBegin p.id) n ∧
      ∀ x, a.Unallocated x n → (a.alloc this n).2.findBegin p.id ≤ x := by
  obtain ⟨_, m, hg, hm, hl⟩ := h.alloc_lowest hn hp
  refine ⟨hg.unallocated.mono (Ico_subset_Ico_right (Nat.add_le_add_left hm _)), fun x hx => ?_⟩
  obtain ⟨c, hc, hs⟩ := h.exists_mem_of_unallocated hn hx
  obtain ⟨hcx, hce⟩ := (Ico_subset_Ico_iff (Nat.lt_add_of_pos_right hn)).mp hs
  simp only [Block.stop] at hce
  exact (hl c.begin c.size (h.gap_iff_mem.mpr ⟨by omega, hc⟩) (by omega)).trans hcx

-- A `realloc` of a live block is an allocation in the state in which the block has been freed.
structure Reallocs (w : World) (this n : ℕ) (p : Pointer) (a : Allocator) : Prop where
  wellFormed : a.WellFormed
  freed      : ∀ x m, a.Unallocated x m ↔ ((w.allocators this).without p.id).Unallocated x m
  fails      : ∀ e, (w.realloc this p n).1 = .error e ↔ (a.alloc this n).1 = .error e
  pointer    : ∀ q, (a.alloc this n).1 = .ok q → (w.realloc this p n).2.2 = q
  allocator  : (w.realloc this p n).2.1.allocators this = (a.alloc this n).2

theorem Invariant.reallocs (h : Invariant arena this w) (hd : w.Denotes this p b) (n : ℕ) :
    ∃ a, Reallocs w this n p a := by
  obtain ⟨a, ha, ⟨bs, hbs⟩, hr⟩ := World.realloc_denotes (n := n) hd h.wellFormed
  have hf (x m : ℕ) :
      a.Unallocated x m ↔ ((w.allocators this).without p.id).Unallocated x m := by
    rw [hbs]
    rfl
  refine ⟨a, ha, hf, ?_, ?_, ?_⟩ <;> rw [hr] <;> simp only [World.alloc, World.update_allocators]
  all_goals rcases a.alloc this n with ⟨_ | q, a'⟩ <;> simp

theorem Reallocs.ok (h : Reallocs w this n p a) (hr : (w.realloc this p n).1 = .ok ()) :
    ∃ q, (a.alloc this n).1 = .ok q := by
  cases ha : (a.alloc this n).1 with
  | ok q    => exact ⟨q, rfl⟩
  | error e =>
    rw [(h.fails e).mpr ha] at hr
    cases hr

theorem Reallocs.get (h : Reallocs w this n p a) (hn : 0 < n) (hq : (a.alloc this n).1 = .ok q) :
    (w.realloc this p n).2.2.get (w.realloc this p n).2.1.allocators =
      (a.alloc this n).2.findBegin q.id := by
  have ho := (h.wellFormed.alloc_lowest hn hq).1
  simp only [h.pointer q hq, Pointer.get, ho, h.allocator]

theorem gap_congr {a' : Allocator} (h : ∀ x m, a.Unallocated x m ↔ a'.Unallocated x m) :
    a.Gap x n ↔ a'.Gap x n := by
  have himp {a a' : Allocator} (h : ∀ x m, a.Unallocated x m ↔ a'.Unallocated x m)
      (hg : a.Gap x n) : a'.Gap x n :=
    ⟨hg.pos, (h x n).mp hg.unallocated, fun y m hu => hg.maximal y m ((h y m).mpr hu)⟩
  exact ⟨himp h, himp fun x m => (h x m).symm⟩

structure ReallocFits (w : World) (this : ℕ) (p : Pointer) (n : ℕ) : Prop where
  noMemory : (w.realloc this p n).1 = .error .noMemory ↔
              ¬∃ x, ((w.allocators this).without p.id).Unallocated x n
  throws   : ∀ e, (w.realloc this p n).1 = .error e → e = .noMemory
  shrink   : n ≤ p.getSize w.allocators → (w.realloc this p n).1 = .ok ()
  lowest   : (w.realloc this p n).1 = .ok () → ∃ m,
              ((w.allocators this).without p.id).Gap
                ((w.realloc this p n).2.2.get (w.realloc this p n).2.1.allocators) m ∧ n ≤ m ∧
              ∀ y k, ((w.allocators this).without p.id).Gap y k → n ≤ k →
                (w.realloc this p n).2.2.get (w.realloc this p n).2.1.allocators ≤ y

theorem alloc_error {e : AllocErrorType} (h : (a.alloc this n).1 = .error e) : e = .noMemory := by
  cases a.alloc_cases this n with
  | zero _ eq | success _ _ _ _ _ _ _ eq => simp [eq] at h
  | noMemory _ _ eq                      => simpa [eq] using h.symm

theorem Reallocs.noMemory_iff (h : Reallocs w this n p a) (hn : 0 < n) :
    (w.realloc this p n).1 = .error .noMemory ↔
      ¬∃ x, ((w.allocators this).without p.id).Unallocated x n := by
  have hu : (∃ q, (a.alloc this n).1 = .ok q) ↔ ∃ x, a.Unallocated x n :=
    h.wellFormed.alloc_unallocated_iff hn
  simp only [h.fails, ← h.freed, ← hu]
  cases ha : (a.alloc this n).1 with
  | ok q    => simp
  | error e => simp [alloc_error ha]

theorem Invariant.reallocFits (h : Invariant arena this w) (hp : w.Live this p) (hn : 0 < n) :
    ReallocFits w this p n := by
  have hd := hp.denotes h
  obtain ⟨a, hr⟩ := h.reallocs hd n
  have ht : ∀ e, (w.realloc this p n).1 = .error e → e = .noMemory :=
    fun e he => alloc_error ((hr.fails e).mp he)
  refine ⟨hr.noMemory_iff hn, ht, fun hs => ?_, fun hok => ?_⟩
  · cases he : (w.realloc this p n).1 with
    | ok _    => rfl
    | error e =>
      -- The bytes of the block itself are enough.
      have hu := h.wellFormed.unallocated_without hd.find
      rw [hd.getSize] at hs
      rw [ht e he, hr.noMemory_iff hn] at he
      exact absurd ⟨_, hu.mono (Ico_subset_Ico_right (Nat.add_le_add_left hs _))⟩ he
  · obtain ⟨q, hq⟩ := hr.ok hok
    obtain ⟨_, m, hg, hm, hl⟩ := hr.wellFormed.alloc_lowest hn hq
    rw [hr.get hn hq]
    exact ⟨m, (gap_congr hr.freed).mp hg, hm, fun y k hy => hl y k ((gap_congr hr.freed).mpr hy)⟩

theorem run_reallocFits (he : Even arena.size) (hi : Initial arena this w₀)
    (r : Run (Step this) w₀ w) (hp : w.Live this p) (hn : 1 ≤ n) : ReallocFits w this p n :=
  (Invariant.run he hi r).reallocFits hp hn

theorem run_reallocFits_of_full :
    let arena : Arena := ⟨16, 8, by decide, by decide⟩
    let w := (((World.fresh arena).alloc 0 3).2.alloc 0 1).2.defrag 0
    ReallocFits w 0 ⟨some 0, 1⟩ 4 := by
  intro arena w
  exact run_reallocFits (show Even 8 by decide)
    (show Initial arena 0 (World.fresh arena) from rfl)
    (.snoc (.snoc (.snoc .refl (.alloc 3) ⟨trivial, rfl⟩) (.alloc 1) ⟨trivial, rfl⟩) .defrag
      ⟨trivial, rfl⟩) ⟨rfl, by decide⟩ (by decide)

def InPlace (w : World) (this : ℕ) (p : Pointer) (n : ℕ) : Prop :=
  (w.realloc this p n).1 = .ok () ∧
    (w.realloc this p n).2.2.get (w.realloc this p n).2.1.allocators = p.get w.allocators

theorem Reallocs.inPlace_iff (h : Reallocs w this n p a) (hn : 0 < n)
    (hx : ((w.allocators this).without p.id).Unallocated (p.get w.allocators) n) :
    InPlace w this p n ↔ ∀ x < p.get w.allocators,
      ¬((w.allocators this).without p.id).Unallocated x n := by
  obtain ⟨q, hq⟩ : ∃ q, (a.alloc this n).1 = .ok q :=
    (h.wellFormed.alloc_unallocated_iff hn).mpr ⟨_, (h.freed _ _).mpr hx⟩
  obtain ⟨hu, hl⟩ := h.wellFormed.alloc_least hn hq
  have hok : (w.realloc this p n).1 = .ok () := by
    cases he : (w.realloc this p n).1 with
    | ok _    => rfl
    | error e =>
      rw [h.fails, hq] at he
      cases he
  rw [InPlace, h.get hn hq, and_iff_right hok]
  constructor
  · intro he x hlt hu'
    have := hl x ((h.freed _ _).mpr hu')
    omega
  · intro hlt
    refine (hl _ ((h.freed _ _).mpr hx)).antisymm (not_lt.mp fun hlt' => ?_)
    exact hlt _ hlt' ((h.freed _ _).mp hu)

theorem WellFormed.exists_below_iff (h : a.WellFormed) (hb : a.pointers.find? p.id = some b)
    (hn : 0 < n) (hx : (a.without p.id).Unallocated b.begin n) :
    (∃ x < b.begin, (a.without p.id).Unallocated x n) ↔
      ∃ y m, a.Gap y m ∧ y < b.begin ∧ (n ≤ m ∨ y + m = b.begin) := by
  constructor
  · rintro ⟨x, hlt, hu⟩
    have hm : 0 < min n (b.begin - x) := by omega
    have hu' : a.Unallocated x (min n (b.begin - x)) := by
      refine (hu.mono (Ico_subset_Ico_right (by omega))).of_without fun c hc => ?_
      obtain rfl := Option.some.inj (hb.symm.trans hc)
      exact Set.disjoint_left.mpr fun z hz hz' => by
        simp only [Block.span, Block.stop, mem_Ico] at hz hz'
        omega
    obtain ⟨c, hc, hs⟩ := h.exists_mem_of_unallocated hm hu'
    have hs := (Ico_subset_Ico_iff (Nat.lt_add_of_pos_right hm)).mp hs
    have ho := h.ordered (SortedMap.mem_values.mpr ⟨_, hb⟩) hc
    have hpos := h.find?_pos hb
    simp only [Block.stop] at hs ho
    exact ⟨c.begin, c.size, h.gap_iff_mem.mpr ⟨by omega, hc⟩, by omega, by omega⟩
  · rintro ⟨y, m, hg, hlt, hm⟩
    refine ⟨y, hlt, ?_⟩
    have hu := hg.unallocated.without p.id
    rcases hm with hm | hm
    · exact hu.mono (Ico_subset_Ico_right (Nat.add_le_add_left hm _))
    · exact (hu.append (hm ▸ hx)).mono (Ico_subset_Ico_right (by omega))

-- A block that can be resized where it is stays there exactly when there is no gap below it that
-- `alloc` takes first.
theorem run_inPlace_iff (he : Even arena.size) (hi : Initial arena this w₀)
    (r : Run (Step this) w₀ w) (hp : w.Live this p) (hn : 1 ≤ n)
    (hx : ((w.allocators this).without p.id).Unallocated (p.get w.allocators) n) :
    InPlace w this p n ↔ ∀ y m, (w.allocators this).Gap y m → y < p.get w.allocators →
      m < n ∧ y + m ≠ p.get w.allocators := by
  have h := Invariant.run he hi r
  have hd := hp.denotes h
  obtain ⟨a, hr⟩ := h.reallocs hd n
  have hb := h.wellFormed.exists_below_iff hd.find hn (hd.get ▸ hx)
  rw [hr.inPlace_iff hn hx, ← not_iff_not, hd.get]
  push Not
  rw [hb]
  simp only [not_lt, imp_iff_not_or]

theorem run_inPlace_iff_of_one :
    let arena : Arena := ⟨16, 8, by decide, by decide⟩
    let w := ((World.fresh arena).alloc 0 3).2
    InPlace w 0 ⟨some 0, 1⟩ 4 ↔ ∀ y m, (w.allocators 0).Gap y m →
      y < Pointer.get ⟨some 0, 1⟩ w.allocators → m < 4 ∧ y + m ≠ Pointer.get ⟨some 0, 1⟩
        w.allocators := by
  intro arena w
  refine run_inPlace_iff (show Even 8 by decide)
    (show Initial arena 0 (World.fresh arena) from rfl)
    (.snoc .refl (.alloc 3) ⟨trivial, rfl⟩) ⟨rfl, by decide⟩ (by decide) ⟨?_, ?_⟩
  · exact Ico_subset_Ico (by decide) (by decide)
  · have hv : ((w.allocators 0).without 1).pointers.values = [] := by decide
    intro b hb
    simp [hv] at hb

-- Of two blocks of two bytes the first one is freed. The second one is moved to its place, although
-- its size is not to change.
theorem not_inPlace_of_hole :
    let arena : Arena := ⟨16, 16, by decide, by decide⟩
    let w₁ := (((World.fresh arena).alloc 0 2).2.alloc 0 2).2
    let w := (w₁.free 0 ⟨some 0, 1⟩).2.1
    Nonempty (Run (Step 0) (World.fresh arena) w) ∧ w.Live 0 ⟨some 0, 2⟩ ∧
      2 ≤ Pointer.getSize ⟨some 0, 2⟩ w.allocators ∧ ¬InPlace w 0 ⟨some 0, 2⟩ 2 := by
  intro arena w₁ w
  have r₁ : Run (Step 0) (World.fresh arena) w₁ :=
    .snoc (.snoc .refl (.alloc 2) ⟨trivial, rfl⟩) (.alloc 2) ⟨trivial, rfl⟩
  have hv : (w₁.allocators 0).Issued 0 ⟨some 0, 1⟩ := .inr ⟨rfl, by decide⟩
  refine ⟨⟨r₁.snoc (.free ⟨some 0, 1⟩) ⟨hv, rfl⟩⟩, ⟨rfl, by decide⟩, by decide, fun h => ?_⟩
  exact absurd h.2 (by decide)

end Allocator
