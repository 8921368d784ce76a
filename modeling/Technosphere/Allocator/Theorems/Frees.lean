import Technosphere.Lib.Intervals
import Technosphere.Allocator.Theorems.Safety
import Technosphere.Allocator.Theorems.Integrity

open Set Tiling

namespace Block

-- The ends of a block in a dense order. There a block is a closed interval, which for an empty
-- block is a point, and blocks have a common point if they touch.
def lo (b : Block) : ℚ :=
  b.begin

def hi (b : Block) : ℚ :=
  b.stop

abbrev extent (bs : List Block) : Set ℚ :=
  Intervals.union lo hi bs

variable {b c q : Block} {bs cs l₁ l₂ : List Block} {n : ℕ}

theorem lo_le_hi (b : Block) : b.lo ≤ b.hi :=
  Nat.cast_le.mpr b.begin_le_stop

theorem lo_hi_injective : Function.Injective fun b : Block => (b.lo, b.hi) := by
  rintro ⟨x, n⟩ ⟨y, m⟩ h
  simp only [lo, hi, stop, Prod.mk.injEq, Nat.cast_inj] at h
  obtain ⟨rfl, h⟩ := h
  simpa using h

theorem Separated.intervals (h : Separated bs) : Intervals.Separated lo hi bs where
  nonempty := fun b _ => b.lo_le_hi
  apart    := h.imp fun h => Nat.cast_lt.mpr h

theorem Separated.eq_of_extent_eq (h₁ : Separated bs) (h₂ : Separated cs)
    (h : extent bs = extent cs) : bs = cs :=
  h₁.intervals.eq_of_union_eq lo_hi_injective h₂.intervals h

theorem extent_touching (h : b.stop = c.begin) :
    Icc b.lo c.hi = Icc b.lo b.hi ∪ Icc c.lo c.hi := by
  have hc : c.lo = b.hi := by simp [lo, hi, h]
  rw [hc, Icc_union_Icc_eq_Icc b.lo_le_hi (hc ▸ c.lo_le_hi)]

theorem extent_mergeNext (hb : b.Fits) (h : ∀ c ∈ bs, c.Fits) :
    extent (b.mergeNext bs) = extent (b :: bs) := by
  cases bs with
  | nil => rfl
  | cons c bs =>
    simp only [mergeNext]
    split_ifs with ht
    · have hl : (b.join c).lo = b.lo := rfl
      have hh : (b.join c).hi = c.hi := by rw [hi, stop_join hb (h c (by simp)) ht, hi]
      simp only [extent, Intervals.union_cons, hl, hh, extent_touching (hb.getEnd ▸ ht),
        union_assoc]
    · rfl

-- Merging keeps the extent, so in it a block that is freed is simply added.
theorem extent_merged (h₁ : ∀ c ∈ l₁, c.Fits) (hb : b.Fits) (h₂ : ∀ c ∈ l₂, c.Fits) :
    extent (merged l₁ b l₂) = extent (b :: (l₁ ++ l₂)) := by
  rcases List.eq_nil_or_concat l₁ with rfl | ⟨l, q, rfl⟩
  · exact extent_mergeNext hb h₂
  · have hm := extent_mergeNext (h₁ q (by simp)) (hb.mergeNext h₂)
    have he := extent_mergeNext hb h₂
    rw [List.concat_eq_append, merged_concat]
    simp only [extent, Intervals.union_append, Intervals.union_cons, Intervals.union_nil,
      union_empty] at hm he ⊢
    rw [hm, he]
    ac_rfl

theorem extent_rest (hb : b.Fits) (h : n ≤ b.size) :
    Icc (⟨b.begin, n⟩ : Block).lo (⟨b.begin, n⟩ : Block).hi ∪ extent (b.rest n) =
      Icc b.lo b.hi := by
  rw [hb.rest]
  split_ifs with hr
  · obtain rfl : n = b.size := by omega
    simp
  · have ht := @extent_touching ⟨b.begin, n⟩ ⟨b.begin + n, b.size - n⟩ rfl
    have hh : (⟨b.begin + n, b.size - n⟩ : Block).hi = b.hi := by
      rw [hi, hi, stop, stop, Nat.add_assoc, Nat.add_sub_cancel' h]
    rw [extent, Intervals.union_cons, Intervals.union_nil, union_empty, ← ht, hh]
    rfl

end Block

namespace Allocator

open Block

variable {a : Allocator} {b : Block} {p : Pointer} {allocators : ℕ → Allocator} {this n : ℕ}

def Covers (a : Allocator) : Prop :=
  extent (a.freeBlocks ++ a.pointers.values) = Icc (⟨a.base₁, a.memorySize₁⟩ : Block).lo
    (⟨a.base₁, a.memorySize₁⟩ : Block).hi

theorem Covers.init (base size : ℕ) : (init base size).Covers := by
  simp [Covers, Allocator.init, SortedMap.values]

theorem Covers.alloc (hw : a.WellFormed) (h : a.Covers) : (a.alloc this n).2.Covers := by
  cases a.alloc_cases this n with
  | zero _ eq | noMemory _ _ eq => exact eq ▸ h
  | success _ l₁ b l₂ blocks enough _ eq =>
    have hv := SortedMap.values_set_perm (v := (⟨b.begin, n⟩ : Block)) hw.find?_pointerId
    have hf := hw.free_fits (b := b) (by simp [blocks])
    rw [eq, SortedMap.insert_of_find?_eq_none hw.find?_pointerId]
    refine Eq.trans ?_ h
    simp only [blocks, extent, Intervals.union_append, Intervals.union_perm hv,
      Intervals.union_cons, ← extent_rest hf enough]
    ac_rfl

theorem extent_layout {base : ℕ} {es : List (ℕ × Block)} {m : ℕ} (h : totalSize es ≤ m) :
    extent (⟨base + totalSize es, m - totalSize es⟩ :: (layout base es).map (·.2)) =
      Icc (⟨base, m⟩ : Block).lo (⟨base, m⟩ : Block).hi := by
  induction es generalizing base m with
  | nil => simp [layout]
  | cons e es ih =>
    simp only [totalSize_cons] at h
    have hi := @ih (base + e.2.size) (m - e.2.size) (by omega)
    have ht := @extent_touching ⟨base, e.2.size⟩ ⟨base + e.2.size, m - e.2.size⟩ rfl
    have hm : (⟨base + e.2.size, m - e.2.size⟩ : Block).hi = (⟨base, m⟩ : Block).hi := by
      rw [Block.hi, Block.hi, stop, stop, Nat.add_assoc, Nat.add_sub_cancel' (by omega)]
    have he : m - (e.2.size + totalSize es) = m - e.2.size - totalSize es := by omega
    have hl : (⟨base, m⟩ : Block).lo = (⟨base, e.2.size⟩ : Block).lo := rfl
    simp only [extent, Intervals.union_cons, layout, List.map_cons, totalSize_cons, he,
      ← Nat.add_assoc] at hi ⊢
    rw [hl, ← hm, ht, ← hi]
    ac_rfl

theorem covers_defrag (hl : a.liveSize ≤ a.memorySize₂)
    (hm : a.base₂ + a.memorySize₂ < sizeRange) : a.defrag.1.Covers := by
  rw [defrag_eq hl hm, Covers]
  have he := @extent_layout a.base₂ a.pointers.entries a.memorySize₂ (totalSize_entries ▸ hl)
  rw [totalSize_entries] at he
  exact he

-- What a call of `free` does to the containers when `p` is the pointer of the live block `b`.
structure Frees (a : Allocator) (p : Pointer) (b : Block) (a' : Allocator) : Prop where
  wellFormed : a'.WellFormed
  pointers   : a'.pointers = a.pointers.erase p.id
  extent     : extent a'.freeBlocks = extent (b :: a.freeBlocks)
  half       : a'.base₁ = a.base₁ ∧ a'.memorySize₁ = a.memorySize₁

theorem WellFormed.frees (h : a.WellFormed) (hb : a.pointers.find? p.id = some b)
    (hg : p.get allocators ≠ nullptr) (hs : p.getSize allocators = b.size) :
    a.Frees p b (a.free allocators p).2.1 := by
  have ⟨bs, he, hw⟩ := h.free hb hg hs
  have ⟨l₁, l₂, hl⟩ := exists_split hb
  have hf := hl.free hb hs (h.find?_pos hb) hg
  refine ⟨by rwa [he], by rw [he], ?_, by simp [he]⟩
  rw [hf, hl.blocks]
  refine extent_merged ?_ (h.find?_fits hb) ?_ <;>
    exact fun c hc => h.free_fits (by simp [hl.blocks, hc])

theorem Frees.covers {a' : Allocator} (hf : a.Frees p b a')
    (hb : a.pointers.find? p.id = some b) (h : a.Covers) : a'.Covers := by
  rw [Covers, hf.half.1, hf.half.2, ← h, hf.pointers]
  have he := hf.extent
  simp only [Block.extent, Intervals.union_append, Intervals.union_cons,
    Intervals.union_perm (SortedMap.values_erase_perm hb)] at he ⊢
  rw [he]
  ac_rfl

end Allocator

namespace World

open Block

variable {arena : Arena} {this n : ℕ} {w w₀ w' : World} {p q : Pointer} {b : Block}
  {ps qs : List Pointer}

theorem Denotes.frees (h : w.Denotes this p b) (hw : (w.allocators this).WellFormed) :
    (w.allocators this).Frees p b ((w.free this p).2.1.allocators this) := by
  simpa [World.free] using hw.frees h.find h.get_ne h.getSize

end World

namespace Allocator.Invariant

open Block

variable {arena : Arena} {this n : ℕ} {w w₀ w' : World} {p : Pointer} {b : Block}

theorem covers_alloc (h : Invariant arena this w) (hc : (w.allocators this).Covers) :
    ((w.alloc this n).2.allocators this).Covers := by
  simpa [World.alloc] using hc.alloc h.wellFormed

theorem covers_free (h : Invariant arena this w) (hc : (w.allocators this).Covers)
    (hp : (w.allocators this).Issued this p) : ((w.free this p).2.1.allocators this).Covers := by
  rcases World.null_or_denotes hp with hn | ⟨b, hd⟩
  · rwa [World.free_null hn]
  · exact (hd.frees h.wellFormed).covers hd.find hc

theorem covers_realloc (h : Invariant arena this w) (hc : (w.allocators this).Covers)
    (hp : (w.allocators this).Issued this p) :
    ((w.realloc this p n).2.1.allocators this).Covers := by
  rcases World.null_or_denotes hp with hn | ⟨b, hd⟩
  · have ha := h.covers_alloc (n := n) hc
    rw [World.realloc_null hn]
    rcases hw : w.alloc this n with ⟨_ | _, w'⟩ <;> simpa [hw] using ha
  · have h' : Invariant arena this (w.memcpy (w.saveCopy this p)) := h.of_allocator_eq rfl
    have hf := h'.free (p := p) hp
    have hcf := h'.covers_free (p := p) hc hp
    obtain ⟨a, he, _⟩ := World.free_denotes hd.memcpy h'.wellFormed
    rw [he] at hf hcf
    have ha := hf.covers_alloc (n := n) hcf
    rw [World.realloc_of_free hd he]
    rcases hw : ((w.memcpy (w.saveCopy this p)).update this a).alloc this n with ⟨_ | q, w'⟩ <;>
      simpa [hw] using ha

theorem covers_run (he : Even arena.size) (hi : Initial arena this w₀)
    (r : Run (Step this) w₀ w) : (w.allocators this).Covers := by
  apply And.right (a := Invariant arena this w)
  apply r.invariant (P := fun w => Invariant arena this w ∧ (w.allocators this).Covers)
  · exact ⟨initial hi, hi ▸ Covers.init ..⟩
  · rintro w c w' ⟨h, hc⟩ hs
    refine ⟨h.step he hs, ?_⟩
    obtain ⟨hv, rfl⟩ := hs
    cases c with
    | alloc n     => exact h.covers_alloc hc
    | free p      => exact h.covers_free hc hv
    | realloc p n => exact h.covers_realloc hc hv
    | defrag      =>
      simpa [Call.exec, World.defrag] using covers_defrag (h.liveSize_le he) h.spare_fits

end Allocator.Invariant

namespace World

open Allocator Block

variable {arena : Arena} {this n : ℕ} {w w₀ w' : World} {p q : Pointer} {b : Block}
  {ps qs : List Pointer}

def Live (w : World) (this : ℕ) (p : Pointer) : Prop :=
  p.allocator = some this ∧ ((w.allocators this).pointers.find? p.id).isSome

def freeAll (w : World) (this : ℕ) (ps : List Pointer) : World :=
  ps.foldl (fun w p => (w.free this p).2.1) w

structure FreesAll (w : World) (this : ℕ) (ps : List Pointer) (w' : World) : Prop where
  pointers : ∀ id, (w'.allocators this).pointers.find? id =
              if ∃ p ∈ ps, p.id = id then none else (w.allocators this).pointers.find? id
  extent   : extent (w'.allocators this).freeBlocks =
              extent (ps.map fun p => (w.allocators this).findBlock p.id) ∪
                extent (w.allocators this).freeBlocks
  half     : (w'.allocators this).base₁ = (w.allocators this).base₁ ∧
              (w'.allocators this).memorySize₁ = (w.allocators this).memorySize₁
  covers   : (w.allocators this).Covers → (w'.allocators this).Covers

theorem Live.issued (h : w.Live this p) (hw : (w.allocators this).WellFormed) :
    (w.allocators this).Issued this p :=
  .inr ⟨h.1, hw.id_lt _ (SortedMap.mem_keys.mpr h.2)⟩

theorem Live.eq_of_id (hp : w.Live this p) (hq : w.Live this q) (h : p.id = q.id) : p = q := by
  obtain ⟨o, id⟩ := p
  obtain ⟨o', id'⟩ := q
  simp_all [Live]

theorem Live.denotes (h : w.Live this p) (hi : Invariant arena this w) :
    w.Denotes this p ((w.allocators this).findBlock p.id) := by
  obtain ⟨b, hb⟩ := Option.isSome_iff_exists.mp h.2
  have hf : (w.allocators this).findBlock p.id = b := by simp [findBlock, hb]
  exact hf ▸ ⟨h.1, hb, hi.nonnull hb⟩

theorem freeAll_spec (hi : Invariant arena this w) (hn : ps.Nodup) (hl : ∀ p ∈ ps, w.Live this p) :
    Invariant arena this (w.freeAll this ps) ∧ FreesAll w this ps (w.freeAll this ps) := by
  induction ps generalizing w with
  | nil => exact ⟨hi, by simp [freeAll], by simp [freeAll], ⟨rfl, rfl⟩, id⟩
  | cons p ps ih =>
    have hp := hl p (by simp)
    have hd := hp.denotes hi
    have hf := hd.frees hi.wellFormed
    have ⟨hnp, hn⟩ := List.nodup_cons.mp hn
    -- Another pointer has another id, so that it stays live and keeps its block.
    have hf? : ∀ q ∈ ps, ((w.free this p).2.1.allocators this).pointers.find? q.id =
        (w.allocators this).pointers.find? q.id := by
      intro q hq
      have hne : q.id ≠ p.id := fun he => hnp (hp.eq_of_id (hl q (by simp [hq])) he.symm ▸ hq)
      simp [hf.pointers, hne]
    have hl' : ∀ q ∈ ps, (w.free this p).2.1.Live this q := by
      intro q hq
      exact ⟨(hl q (by simp [hq])).1, hf? q hq ▸ (hl q (by simp [hq])).2⟩
    obtain ⟨hi', hfs⟩ := ih (hi.free (hp.issued hi.wellFormed)) hn hl'
    have hb : ps.map (fun q => ((w.free this p).2.1.allocators this).findBlock q.id) =
        ps.map fun q => (w.allocators this).findBlock q.id :=
      List.map_congr_left fun q hq => by rw [findBlock, hf? q hq, findBlock]
    have hc : (w.allocators this).Covers → _ := fun h => hfs.covers (hf.covers hd.find h)
    refine ⟨hi', fun id => ?_, ?_, ?_, hc⟩
    · rw [freeAll, List.foldl_cons, ← freeAll, hfs.pointers, hf.pointers, SortedMap.find?_erase]
      by_cases hid : p.id = id
      · simp [hid]
      · simp [hid, Ne.symm hid]
    · rw [freeAll, List.foldl_cons, ← freeAll, hfs.extent, hb, hf.extent, List.map_cons]
      simp only [extent, Intervals.union_cons]
      ac_rfl
    · exact ⟨hfs.half.1.trans hf.half.1, hfs.half.2.trans hf.half.2⟩

theorem freeAll_perm (hi : Invariant arena this w) (hn : ps.Nodup)
    (hl : ∀ p ∈ ps, w.Live this p) (hp : ps.Perm qs) :
    ((w.freeAll this ps).allocators this).freeBlocks =
        ((w.freeAll this qs).allocators this).freeBlocks ∧
      ((w.freeAll this ps).allocators this).pointers =
        ((w.freeAll this qs).allocators this).pointers := by
  obtain ⟨h₁, hf₁⟩ := freeAll_spec hi hn hl
  obtain ⟨h₂, hf₂⟩ := freeAll_spec hi (hp.nodup hn) fun q hq => hl q (hp.mem_iff.mpr hq)
  constructor
  · apply h₁.wellFormed.separated.eq_of_extent_eq h₂.wellFormed.separated
    rw [hf₁.extent, hf₂.extent, extent, Intervals.union_perm (hp.map _)]
  · apply SortedMap.ext_find?
    intro id
    simp only [hf₁.pointers, hf₂.pointers, hp.mem_iff]

theorem freeAll_live (hi : Invariant arena this w) (hc : (w.allocators this).Covers)
    (hn : ps.Nodup) (hl : ∀ p, p ∈ ps ↔ w.Live this p) :
    ((w.freeAll this ps).allocators this).freeBlocks =
      [⟨(w.allocators this).base₁, (w.allocators this).memorySize₁⟩] := by
  obtain ⟨h, hf⟩ := freeAll_spec hi hn fun p hp => (hl p).mp hp
  have hp : ((w.freeAll this ps).allocators this).pointers = ∅ := by
    apply SortedMap.ext_find?
    intro id
    rw [hf.pointers]
    split_ifs with hid
    · rfl
    · by_contra hs
      have hs : w.Live this ⟨some this, id⟩ := ⟨rfl, Option.isSome_iff_ne_none.mpr hs⟩
      exact hid ⟨_, (hl _).mpr hs, rfl⟩
  apply h.wellFormed.separated.eq_of_extent_eq (List.pairwise_singleton ..)
  have hc := hf.covers hc
  rw [Covers, hp, hf.half.1, hf.half.2] at hc
  simpa [SortedMap.values] using hc

theorem free_alloc (hi : Invariant arena this w) (ha : w.alloc this n = (.ok p, w')) :
    ((w'.free this p).2.1.allocators this).freeBlocks = (w.allocators this).freeBlocks := by
  have hi' : Invariant arena this w' := by simpa [ha] using hi.alloc (n := n)
  cases (w.allocators this).alloc_cases this n with
  | zero _ eq =>
    simp only [World.alloc, eq, Prod.mk.injEq, Except.ok.injEq] at ha
    obtain ⟨rfl, rfl⟩ := ha
    rw [free_null rfl, update_allocators]
  | noMemory _ _ eq => simp [World.alloc, eq] at ha
  | success _ l₁ b l₂ blocks enough _ eq =>
    simp only [World.alloc, eq, Prod.mk.injEq, Except.ok.injEq] at ha
    obtain ⟨rfl, rfl⟩ := ha
    rw [SortedMap.insert_of_find?_eq_none hi.wellFormed.find?_pointerId] at hi' ⊢
    have hd := Live.denotes (p := ⟨some this, (w.allocators this).pointerId⟩) ⟨rfl, by simp⟩ hi'
    have hf := hd.frees hi'.wellFormed
    have hb := hi.wellFormed.free_fits (b := b) (by simp [blocks])
    apply hf.wellFormed.separated.eq_of_extent_eq hi.wellFormed.separated
    rw [hf.extent, blocks]
    simp only [update_allocators, findBlock, SortedMap.find?_set, if_true, Option.getD_some,
      extent, Intervals.union_cons, Intervals.union_append, ← extent_rest hb enough]
    ac_rfl

structure FreesCommute (w : World) (this : ℕ) : Prop where
  order : ∀ ps qs, ps.Nodup → (∀ p ∈ ps, w.Live this p) → ps.Perm qs →
            ((w.freeAll this ps).allocators this).freeBlocks =
                ((w.freeAll this qs).allocators this).freeBlocks ∧
              ((w.freeAll this ps).allocators this).pointers =
                ((w.freeAll this qs).allocators this).pointers
  all   : ∀ ps, ps.Nodup → (∀ p, p ∈ ps ↔ w.Live this p) →
            ((w.freeAll this ps).allocators this).freeBlocks =
              [⟨(w.allocators this).base₁, (w.allocators this).memorySize₁⟩]
  undo  : ∀ n p w', w.alloc this n = (.ok p, w') →
            ((w'.free this p).2.1.allocators this).freeBlocks = (w.allocators this).freeBlocks

theorem run_freesCommute (he : Even arena.size) (hi : Initial arena this w₀)
    (r : Run (Step this) w₀ w) : FreesCommute w this where
  order := fun _ _ => freeAll_perm (Invariant.run he hi r)
  all   := fun _ => freeAll_live (Invariant.run he hi r) (Invariant.covers_run he hi r)
  undo  := fun _ _ _ => free_alloc (Invariant.run he hi r)

theorem run_freesCommute_of_full :
    let arena : Arena := ⟨16, 8, by decide, by decide⟩
    FreesCommute ((((World.fresh arena).alloc 0 3).2.alloc 0 1).2.defrag 0) 0 := by
  intro arena
  exact run_freesCommute (show Even 8 by decide) (show Initial arena 0 (World.fresh arena) from rfl)
    (.snoc (.snoc (.snoc .refl (.alloc 3) ⟨trivial, rfl⟩) (.alloc 1) ⟨trivial, rfl⟩) .defrag
      ⟨trivial, rfl⟩)

end World
