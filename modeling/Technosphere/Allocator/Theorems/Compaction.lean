import Technosphere.Allocator.Theorems.FirstFit

namespace Allocator

variable {arena : Arena} {this base n : ℕ} {w₀ w : World} {a : Allocator} {b : Block}
  {es : List (ℕ × Block)}

def Packed (base : ℕ) (es : List (ℕ × Block)) : Prop :=
  ∀ l₁ e l₂, es = l₁ ++ e :: l₂ → e.2.begin = base + totalSize l₁

theorem packed_layout : Packed base (layout base es) := by
  induction es generalizing base with
  | nil => exact fun l₁ e l₂ h => absurd h (by simp [layout])
  | cons e es ih =>
    intro l₁ e' l₂ h
    cases l₁ with
    | nil =>
      obtain ⟨rfl, _⟩ := List.cons.inj h
      simp
    | cons e₁ l₁ =>
      simp only [layout, List.cons_append, List.cons.injEq] at h
      rw [ih l₁ e' l₂ h.2, ← h.1, totalSize_cons, Nat.add_assoc]

theorem find?_layout {m m' : SortedMap ℕ Block} (h : m'.entries = layout base m.entries) (id : ℕ) :
    (m'.find? id).map (·.size) = (m.find? id).map (·.size) := by
  cases hf : m.find? id with
  | none =>
    have hk : m'.keys = m.keys := by simp [SortedMap.keys, h, layout_keys]
    have hn : id ∉ m'.keys := by simp [hk, SortedMap.mem_keys, hf]
    simpa [SortedMap.mem_keys] using hn
  | some b =>
    obtain ⟨x, hx, _⟩ := mem_layout_of_mem base (SortedMap.mem_entries.mpr hf)
    simp [SortedMap.mem_entries.mp (h ▸ hx)]

theorem alloc_single_iff (hb : a.freeBlocks = [b]) (hn : 0 < n) :
    (∃ p, (a.alloc this n).1 = .ok p) ↔ n ≤ b.size := by
  cases a.alloc_cases this n with
  | zero hz             => omega
  | noMemory _ full eq  =>
    have := full b (by simp [hb])
    simp only [eq, reduceCtorEq, exists_false, false_iff]
    omega
  | success _ l₁ c l₂ blocks enough _ eq =>
    have hc : c = b := by
      have hm : c ∈ a.freeBlocks := by simp [blocks]
      simpa [hb] using hm
    simp only [eq, Except.ok.injEq, exists_eq', true_iff]
    exact hc ▸ enough

structure Compacts (w : World) (this half : ℕ) : Prop where
  halves : ((w.defrag this).allocators this).base₁ = (w.allocators this).base₂ ∧
            ((w.defrag this).allocators this).memorySize₁ = half
  ids    : ((w.defrag this).allocators this).pointers.keys = (w.allocators this).pointers.keys
  sizes  : ∀ id, ((w.defrag this).allocators this).findSize id = (w.allocators this).findSize id
  packed : Packed ((w.defrag this).allocators this).base₁
            ((w.defrag this).allocators this).pointers.entries
  free   : ∃ b, ((w.defrag this).allocators this).freeBlocks = [b] ∧
            b.begin = ((w.defrag this).allocators this).base₁ + (w.allocators this).liveSize ∧
            b.getEnd = ((w.defrag this).allocators this).base₁ + half
  room   : ∀ n, 1 ≤ n → ((∃ p, ((w.defrag this).alloc this n).1 = .ok p) ↔
            n ≤ half - (w.allocators this).liveSize)

theorem Invariant.compacts (h : Invariant arena this w) (he : Even arena.size) :
    Compacts w this (arena.size / 2) := by
  have hl := h.liveSize_le he
  have hd := defrag_eq hl h.spare_fits
  have hs := (h.halves.size_eq he).2
  have hf : ((w.defrag this).allocators this).freeBlocks =
      [⟨(w.allocators this).base₂ + (w.allocators this).liveSize,
        arena.size / 2 - (w.allocators this).liveSize⟩] := by
    simp [World.defrag, hd, hs]
  constructor
  case halves => simp [World.defrag, hd, hs]
  case ids    => simp [World.defrag, hd, SortedMap.keys, layout_keys]
  case sizes  =>
    intro id
    have hg {o : Option Block} : (o.getD {}).size = (o.map (·.size)).getD 0 := by
      cases o <;> rfl
    have hp : ((w.defrag this).allocators this).pointers.entries =
        layout (w.allocators this).base₂ (w.allocators this).pointers.entries := by
      simp [World.defrag, hd]
    have hl := find?_layout hp id
    rw [findSize, findBlock, hg, hl, findSize, findBlock, hg]
  case packed => simpa [World.defrag, hd] using packed_layout
  case free   =>
    have hb := (h.defrag hl).wellFormed.free_fits (hf ▸ List.mem_singleton_self _)
    refine ⟨_, hf, by simp [World.defrag, hd], hb.getEnd.trans ?_⟩
    simp only [Block.stop, World.defrag, World.update_allocators, hd]
    omega
  case room   =>
    exact fun n hn => alloc_single_iff hf hn

theorem run_compacts (he : Even arena.size) (hi : Initial arena this w₀)
    (r : Run (Step this) w₀ w) : Compacts w this (arena.size / 2) :=
  (Invariant.run he hi r).compacts he

theorem run_compacts_of_two :
    let arena : Arena := ⟨16, 8, by decide, by decide⟩
    Compacts ((World.fresh arena).alloc 0 3).2 0 (arena.size / 2) := by
  intro arena
  exact run_compacts (show Even 8 by decide) (show Initial arena 0 (World.fresh arena) from rfl)
    (.snoc .refl (.alloc 3) ⟨trivial, rfl⟩)

end Allocator
