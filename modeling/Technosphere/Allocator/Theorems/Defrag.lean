import Technosphere.Allocator.Theorems.Invariant

open Set Tiling

namespace Allocator

def layout (base : ℕ) : List (ℕ × Block) → List (ℕ × Block)
  | []            => []
  | (id, b) :: es => (id, ⟨base, b.size⟩) :: layout (base + b.size) es

def layoutCopies (base : ℕ) : List (ℕ × Block) → List Memory.Copy
  | []           => []
  | (_, b) :: es => ⟨base, b.begin, b.size⟩ :: layoutCopies (base + b.size) es

def totalSize (es : List (ℕ × Block)) : ℕ :=
  (es.map (·.2.size)).sum

variable {a : Allocator} {es : List (ℕ × Block)} {base id : ℕ} {b : Block}

@[simp]
theorem totalSize_nil : totalSize [] = 0 :=
  rfl

@[simp]
theorem totalSize_cons : totalSize (e :: es) = e.2.size + totalSize es := by
  simp [totalSize]

theorem totalSize_entries : totalSize a.pointers.entries = a.liveSize := by
  simp [totalSize, liveSize, SortedMap.values, Function.comp_def]

theorem layout_keys (base : ℕ) : (layout base es).map (·.1) = es.map (·.1) := by
  induction es generalizing base <;> simp_all [layout]

theorem layout_sorted (base : ℕ) (h : es.Pairwise (·.1 < ·.1)) :
    (layout base es).Pairwise (·.1 < ·.1) := by
  have hm := List.pairwise_map.mpr h
  rw [← layout_keys base] at hm
  exact List.pairwise_map.mp hm

theorem mem_layout (h : (id, b) ∈ layout base es) : ∃ c, (id, c) ∈ es ∧ c.size = b.size := by
  induction es generalizing base with
  | nil => simp [layout] at h
  | cons e es hi =>
    simp only [layout, List.mem_cons, Prod.mk.injEq] at h
    rcases h with ⟨rfl, rfl⟩ | h
    · exact ⟨e.2, by simp⟩
    · have ⟨c, hc, hs⟩ := hi h
      exact ⟨c, by simp [hc], hs⟩

theorem mem_layout_of_mem (base : ℕ) (h : (id, b) ∈ es) :
    ∃ x, (id, ⟨x, b.size⟩) ∈ layout base es ∧ ⟨x, b.begin, b.size⟩ ∈ layoutCopies base es := by
  induction es generalizing base with
  | nil => simp at h
  | cons e es hi =>
    rcases List.mem_cons.mp h with rfl | h
    · exact ⟨base, by simp [layout, layoutCopies]⟩
    · have ⟨x, h₁, h₂⟩ := hi (base + e.2.size) h
      exact ⟨x, List.mem_cons_of_mem _ h₁, List.mem_cons_of_mem _ h₂⟩

theorem inside_of_mem_layoutCopies (h : c ∈ layoutCopies base es) :
    c.Inside base (base + totalSize es) := by
  induction es generalizing base with
  | nil => simp [layoutCopies] at h
  | cons e es hi =>
    rcases List.mem_cons.mp h with rfl | h
    · simp [Memory.Copy.Inside]
    · have := hi h
      simp only [Memory.Copy.Inside, totalSize_cons] at *
      omega

theorem layoutCopies_ordered :
    (layoutCopies base es).Pairwise fun c₁ c₂ => c₁.dst + c₁.len ≤ c₂.dst := by
  induction es generalizing base with
  | nil => exact .nil
  | cons e es hi =>
    exact List.pairwise_cons.mpr ⟨fun _ hc => (inside_of_mem_layoutCopies hc).1, hi⟩

theorem exists_of_mem_layoutCopies (h : c ∈ layoutCopies base es) :
    ∃ e ∈ es, c.src = e.2.begin ∧ c.len = e.2.size := by
  induction es generalizing base with
  | nil => simp [layoutCopies] at h
  | cons e es hi =>
    rcases List.mem_cons.mp h with rfl | h
    · exact ⟨e, by simp⟩
    · have ⟨e', he, hc⟩ := hi h
      exact ⟨e', by simp [he], hc⟩

theorem tiles_layout (base : ℕ) :
    Tiles Block.span ((layout base es).map (·.2)) (Ico base (base + totalSize es)) := by
  induction es generalizing base with
  | nil => simpa [layout] using Tiles.nil
  | cons e es hi =>
    have hd : Disjoint (Block.span ⟨base, e.2.size⟩)
        (Ico (base + e.2.size) (base + e.2.size + totalSize es)) := Ico_disjoint_Ico_same
    have := (hi (base + e.2.size)).cons hd
    rwa [Block.span, Block.stop, Ico_union_Ico_eq_Ico (by simp) (by simp),
      add_assoc, ← totalSize_cons] at this

theorem defragLoop_foldl {l : DefragLocals} (hs : es.Pairwise (·.1 < ·.1))
    (hl : ∀ e ∈ l.tempPointers.entries, ∀ e' ∈ es, e.1 < e'.1)
    (hc : l.curBegin = a.base₂ + l.allSize) (ht : a.base₂ + l.allSize + totalSize es < sizeRange) :
    (es.foldl a.defragBody l).curBegin = l.curBegin + totalSize es ∧
      (es.foldl a.defragBody l).allSize = l.allSize + totalSize es ∧
      (es.foldl a.defragBody l).tempPointers.entries =
        l.tempPointers.entries ++ layout l.curBegin es ∧
      (es.foldl a.defragBody l).copies = l.copies ++ layoutCopies l.curBegin es := by
  induction es generalizing l with
  | nil => simp [layout, layoutCopies]
  | cons e es hi =>
    have ⟨he, hs⟩ := List.pairwise_cons.mp hs
    simp only [totalSize_cons] at ht
    have hm : (l.allSize + e.2.size) % sizeRange = l.allSize + e.2.size :=
      Nat.mod_eq_of_lt (by omega)
    have hf : l.tempPointers.find? e.1 = none :=
      SortedMap.find?_eq_none.mpr fun e' he' => (hl e' he' e (by simp)).ne
    have hp : (l.tempPointers.insert e.1 ⟨l.curBegin, e.2.size⟩).entries =
        l.tempPointers.entries ++ [(e.1, ⟨l.curBegin, e.2.size⟩)] := by
      rw [SortedMap.insert_of_find?_eq_none hf]
      exact SortedMap.entries_set_last fun e' he' => hl e' he' e (by simp)
    have hb : (a.defragBody l e).curBegin = l.curBegin + e.2.size := by
      simp only [defragBody, hm]
      rw [Nat.mod_eq_of_lt (by omega), hc, add_assoc]
    have hi := hi (l := a.defragBody l e) hs
      (by
        simp only [defragBody, hp, List.mem_append, List.mem_singleton]
        rintro e' (he' | rfl) e'' he''
        · exact hl e' he' e'' (by simp [he''])
        · exact he e'' he'')
      (by rw [hb, hc]; simp only [defragBody, hm, add_assoc])
      (by simp only [defragBody, hm]; omega)
    simp only [List.foldl_cons, hi.1, hi.2.1, hi.2.2.1, hi.2.2.2, hb]
    simp [defragBody, hm, hp, layout, layoutCopies, add_assoc]

theorem defragLoop_eq (h : a.base₂ + a.liveSize < sizeRange) :
    a.defragLoop.curBegin = a.base₂ + a.liveSize ∧ a.defragLoop.allSize = a.liveSize ∧
      a.defragLoop.tempPointers.entries = layout a.base₂ a.pointers.entries ∧
      a.defragLoop.copies = layoutCopies a.base₂ a.pointers.entries := by
  have := defragLoop_foldl (a := a) (l := { curBegin := a.base₂ }) a.pointers.sorted (by simp) rfl
    (by simpa [totalSize_entries] using h)
  simpa [defragLoop, totalSize_entries] using this

theorem defrag_eq (hl : a.liveSize ≤ a.memorySize₂) (hm : a.base₂ + a.memorySize₂ < sizeRange) :
    a.defrag =
      ({ a with
          freeBlocks  := [⟨a.base₂ + a.liveSize, a.memorySize₂ - a.liveSize⟩]
          base₁       := a.base₂
          base₂       := a.base₁
          memorySize₁ := a.memorySize₂
          memorySize₂ := a.memorySize₁
          pointers    := ⟨layout a.base₂ a.pointers.entries, layout_sorted _ a.pointers.sorted⟩ },
        layoutCopies a.base₂ a.pointers.entries) := by
  have ⟨hc, ha, ht, hcs⟩ := defragLoop_eq (a := a) (by omega)
  have hsub :
      (a.memorySize₂ + sizeRange - a.liveSize) % sizeRange = a.memorySize₂ - a.liveSize := by
    have hadd := Nat.sub_add_comm (k := a.liveSize) (m := sizeRange) hl
    rw [hadd, Nat.add_mod_right, Nat.mod_eq_of_lt (by omega)]
  have hp : a.defragLoop.tempPointers = ⟨_, layout_sorted a.base₂ a.pointers.sorted⟩ :=
    SortedMap.ext ht
  simp only [defrag, hc, ha, hp, hcs, hsub]

theorem WellFormed.defrag (h : a.WellFormed) (hl : a.liveSize ≤ a.memorySize₂)
    (hm : a.base₂ + a.memorySize₂ < sizeRange) : a.defrag.1.WellFormed := by
  rw [defrag_eq hl hm]
  refine ⟨?_, List.pairwise_singleton .., ?_, ?_, ?_, hm⟩
  · have hd : Disjoint (Block.span ⟨a.base₂ + a.liveSize, a.memorySize₂ - a.liveSize⟩)
        (Ico a.base₂ (a.base₂ + totalSize a.pointers.entries)) := by
      rw [totalSize_entries]
      exact Ico_disjoint_Ico_same.symm
    have ht := (tiles_layout _).cons hd
    rw [totalSize_entries, union_comm, Block.span, Block.stop,
      Ico_union_Ico_eq_Ico (by simp) (by simp)] at ht
    rwa [show a.base₂ + a.liveSize + (a.memorySize₂ - a.liveSize) = a.base₂ + a.memorySize₂
      by omega] at ht
  · intro b hb
    obtain ⟨⟨id, _⟩, hb', rfl⟩ := List.mem_map.mp hb
    obtain ⟨c, hc, hs⟩ := mem_layout hb'
    exact hs ▸ h.find?_pos (SortedMap.mem_entries.mp hc)
  · intro b hb he
    simp only [List.mem_singleton] at hb
    subst hb
    simp only at he ⊢
    omega
  · intro id hid
    simp only [SortedMap.keys, layout_keys] at hid
    exact h.id_lt id hid

end Allocator
