import Technosphere.Allocator.Theorems.Runs

open Set Tiling

namespace Allocator

variable {arena : Arena} {this id n : ℕ} {w w' : World} {a : Allocator} {b c : Block}
  {p q : Pointer}

theorem WellFormed.disjoint (h : a.WellFormed) (hb : a.pointers.find? id = some b)
    (hc : a.pointers.find? id' = some c) (hi : id ≠ id') :
    b.stop ≤ c.begin ∨ c.stop ≤ b.begin := by
  have ⟨_, hp, _⟩ := List.pairwise_append.mp h.tiles.pairwise_disjoint
  have hc' : (a.pointers.erase id).find? id' = some c := by simp [hi.symm, hc]
  have hp := (SortedMap.values_erase_perm hb).pairwise hp fun h => Disjoint.symm h
  have hd := List.rel_of_pairwise_cons hp (SortedMap.mem_values.mpr ⟨_, hc'⟩)
  exact Ico_ordered_of_disjoint hd (Block.begin_lt_stop (h.find?_pos hb))
    (Block.begin_lt_stop (h.find?_pos hc))

theorem Halves.disjoint (h : a.Halves arena) :
    a.base₁ + a.memorySize₁ ≤ a.base₂ ∨ a.base₂ + a.memorySize₂ ≤ a.base₁ := by
  have := h.bounds
  omega

theorem Invariant.nonnull (h : Invariant arena this w)
    (hb : (w.allocators this).pointers.find? id = some b) : b.begin ≠ nullptr := by
  have hh := h.halves.bounds
  have hl := (h.wellFormed.find?_bounds hb).1
  have hn := arena.nonnull
  simp only [nullptr] at *
  omega

theorem alloc_find? (hid : id ≠ a.pointerId) :
    (a.alloc this n).2.pointers.find? id = a.pointers.find? id := by
  cases a.alloc_cases this n with
  | zero _ eq | noMemory _ _ eq => rw [eq]
  | success _ _ _ _ _ _ _ eq    => simp [eq, SortedMap.find?_insert, hid]

inductive AllocResult (a : Allocator) (this n : ℕ) : Prop
  | kept (r : Except AllocErrorType Pointer) (hr : ∀ q, r = .ok q → n = 0 ∧ q = {})
      (eq : a.alloc this n = (r, a))
  | added (x : ℕ) (a' : Allocator) (hn : 0 < n)
      (pointers : a'.pointers = a.pointers.set a.pointerId ⟨x, n⟩)
      (pointerId : a'.pointerId = a.pointerId + 1) (base₂ : a'.base₂ = a.base₂)
      (eq : a.alloc this n = (.ok ⟨some this, a.pointerId⟩, a'))

theorem WellFormed.alloc_result (h : a.WellFormed) (this n : ℕ) : a.AllocResult this n := by
  cases a.alloc_cases this n with
  | zero hn eq      => exact .kept _ (fun q hq => ⟨hn, (Except.ok.inj hq).symm⟩) eq
  | noMemory _ _ eq => exact .kept _ (by simp) eq
  | success hn _ c _ _ _ _ eq =>
    rw [SortedMap.insert_of_find?_eq_none h.find?_pointerId] at eq
    refine .added c.begin _ hn ?_ ?_ ?_ eq <;> rfl

-- Everything a `realloc` of the live block `b` of `p` can do. The block is given back in each case.
inductive ReallocResult (w : World) (this : ℕ) (p : Pointer) (b : Block) (n : ℕ) : Prop
  | released (r : Except AllocErrorType Unit) (a : Allocator) (hn : r = .ok () → n = 0)
      (pointers : a.pointers = (w.allocators this).pointers.erase p.id)
      (pointerId : a.pointerId = (w.allocators this).pointerId)
      (eq : w.realloc this p n = (r, (w.memcpy ⟨(w.allocators this).base₂, b.begin, b.size⟩).update
        this a, {}))
  | moved (x : ℕ) (a : Allocator) (hn : 0 < n)
      (pointers : a.pointers = ((w.allocators this).pointers.erase p.id).set
        (w.allocators this).pointerId ⟨x, n⟩)
      (pointerId : a.pointerId = (w.allocators this).pointerId + 1)
      (eq : w.realloc this p n = (.ok (), ((w.memcpy ⟨(w.allocators this).base₂, b.begin,
        b.size⟩).update this a).memcpy ⟨x, (w.allocators this).base₂, min b.size n⟩,
        ⟨some this, (w.allocators this).pointerId⟩))

theorem Invariant.realloc_result (h : Invariant arena this w) (hd : w.Denotes this p b) (n : ℕ) :
    ReallocResult w this p b n := by
  have ⟨a, ha, ⟨bs, hbs⟩, hr⟩ := World.realloc_denotes (n := n) hd h.wellFormed
  have hs : w.saveCopy this p = ⟨(w.allocators this).base₂, b.begin, b.size⟩ := by
    simp [World.saveCopy, hd.get, hd.getSize]
  have hp : a.pointers = (w.allocators this).pointers.erase p.id := by rw [hbs]
  have hid : a.pointerId = (w.allocators this).pointerId := by rw [hbs]
  have hh : a.Halves arena := by rw [hbs]; exact ⟨h.halves.bounds⟩
  simp only [World.alloc, World.update_allocators, hs] at hr
  cases ha.alloc_result this n with
  | kept r hr' eq =>
    simp only [eq] at hr
    cases r with
    | error e => exact .released (.error e) a (by simp) hp hid (by simp [hr, World.update])
    | ok q =>
      obtain ⟨hn, rfl⟩ := hr' q rfl
      refine .released (.ok ()) a (fun _ => hn) hp hid ?_
      simp [hr, World.update, World.restore, Pointer.get]
  | added x a' hn pointers pointerId base₂ eq =>
    have hi : Invariant arena this (w.update this a') := by
      have hw := eq ▸ @WellFormed.alloc a this n ha
      have hh := eq ▸ @Halves.alloc arena this n a hh
      exact ⟨by simpa using hw, by simpa using hh⟩
    have hx : x ≠ nullptr :=
      hi.nonnull (show (_ : SortedMap ℕ Block).find? a.pointerId = some ⟨x, n⟩ by simp [pointers])
    refine .moved x a' hn (by rw [pointers, hp, hid]) (by rw [pointerId, hid]) ?_
    have hb₂ : a'.base₂ = (w.allocators this).base₂ := by rw [base₂, hbs]
    have hg : ({ allocator := some this, id := (w.allocators this).pointerId } : Pointer).get
        (Function.update w.allocators this a') = x := by
      simp [Pointer.get, findBegin, findBlock, pointers, ← hid]
    simp [hr, eq, World.restore, World.restoreCopy, World.update, World.memcpy, hg, hx, hb₂, hid]

def Call.Releases (this id : ℕ) : Call → Prop
  | alloc _ | defrag     => False
  | free p | realloc p _ => p.allocator = some this ∧ p.id = id

def Keeps (w w' : World) (this id : ℕ) (b b' : Block) : Prop :=
  (w'.allocators this).pointers.find? id = some b' ∧ b'.size = b.size ∧
    ∀ i < b.size, w'.memory (b'.begin + i) = w.memory (b.begin + i)

theorem Invariant.defrag_keeps (he : Even arena.size) (h : Invariant arena this w)
    (hb : (w.allocators this).pointers.find? id = some b) :
    ∃ b', Keeps w (w.defrag this) this id b b' := by
  have hl := h.liveSize_le he
  have hd := defrag_eq hl h.spare_fits
  obtain ⟨x, hx, hc⟩ := mem_layout_of_mem (w.allocators this).base₂ (SortedMap.mem_entries.mpr hb)
  refine ⟨⟨x, b.size⟩, ?_, rfl, fun i hi => ?_⟩
  · simp only [World.defrag, World.update_allocators, hd]
    exact SortedMap.mem_entries.mp hx
  · have hh := h.halves.disjoint
    simp only [World.defrag, hd]
    refine Memory.copyAll_dst layoutCopies_ordered (fun _ => inside_of_mem_layoutCopies) ?_ hc hi
    intro c hc
    obtain ⟨e, he, hs, hn⟩ := exists_of_mem_layoutCopies hc
    have hb := h.wellFormed.find?_bounds (SortedMap.mem_entries.mp he)
    simp only [Block.stop, totalSize_entries] at *
    omega

theorem issued_of_denotes (hw : (w.allocators this).WellFormed) (hd : w.Denotes this p b) :
    (w.allocators this).Issued this p :=
  .inr ⟨hd.owner, hw.find?_lt hd.find⟩

-- The scratch copy of `realloc` goes to the spare half, and the last one to the new block.
theorem Invariant.realloc_keeps (he : Even arena.size) (h : Invariant arena this w)
    (hd : w.Denotes this p c) (hb : (w.allocators this).pointers.find? id = some b)
    (hr : p.id ≠ id) : Keeps w (w.realloc this p n).2.1 this id b b := by
  have hh := h.halves.disjoint
  have hbb := h.wellFormed.find?_bounds hb
  have hcb := h.wellFormed.find?_bounds hd.find
  have hs := h.halves.size_eq he
  have hlt := h.wellFormed.find?_lt hb
  have hi := h.realloc (n := n) (issued_of_denotes h.wellFormed hd)
  cases h.realloc_result hd n with
  | released r a hn pointers pointerId eq =>
    refine ⟨by simp [eq, pointers, hr.symm, hb], rfl, fun i hi => ?_⟩
    simp only [eq, World.update, World.memcpy]
    apply Memory.Copy.apply_outside
    simp only [Block.stop] at *
    omega
  | moved x a hn pointers pointerId eq =>
    rw [eq] at hi ⊢
    have hb' : a.pointers.find? id = some b := by simp [pointers, hr.symm, hb, hlt.ne]
    have hx : a.pointers.find? (w.allocators this).pointerId = some ⟨x, n⟩ := by simp [pointers]
    have hxb := WellFormed.disjoint (a := a) (by simpa using hi.wellFormed) hb' hx hlt.ne
    refine ⟨by simpa using hb', rfl, fun i hi => ?_⟩
    simp only [World.update, World.memcpy]
    rw [Memory.Copy.apply_outside, Memory.Copy.apply_outside]
    all_goals
      simp only [Block.stop] at *
      omega

theorem Invariant.realloc_bytes (h : Invariant arena this w) (hd : w.Denotes this p b)
    (hn : 0 < n) (hr : w.realloc this p n = (.ok (), w', q)) :
    ∃ b', w'.Denotes this q b' ∧ b'.size = n ∧ q.id = (w.allocators this).pointerId ∧
      ∀ i < min b.size n, w'.memory (b'.begin + i) = w.memory (b.begin + i) := by
  have hi := h.realloc (n := n) (issued_of_denotes h.wellFormed hd)
  cases h.realloc_result hd n with
  | released r a hn' _ _ eq =>
    simp only [eq, Prod.mk.injEq] at hr
    exact absurd (hn' hr.1) hn.ne'
  | moved x a _ pointers _ eq =>
    simp only [eq, Prod.mk.injEq, true_and] at hr hi
    obtain ⟨rfl, rfl⟩ := hr
    have hf : a.pointers.find? (w.allocators this).pointerId = some ⟨x, n⟩ := by simp [pointers]
    refine ⟨⟨x, n⟩, ⟨rfl, by simpa using hf, hi.nonnull (by simpa using hf)⟩, rfl, rfl, ?_⟩
    intro i hi
    simp only [World.update, World.memcpy]
    rw [Memory.Copy.apply_dst (c := ⟨x, _, _⟩) hi]
    exact Memory.Copy.apply_dst (c := ⟨_, b.begin, _⟩) (hi.trans_le (min_le_left ..))

theorem Invariant.call_keeps (he : Even arena.size) (h : Invariant arena this w)
    (hs : Step this w call w') (hb : (w.allocators this).pointers.find? id = some b)
    (hr : ¬call.Releases this id) :
    ∃ b', Keeps w w' this id b b' ∧ (call = .defrag ∨ b' = b) := by
  obtain ⟨hv, rfl⟩ := hs
  have halloc (n : ℕ) : Keeps w (w.alloc this n).2 this id b b := by
    refine ⟨?_, rfl, fun _ _ => rfl⟩
    simp only [World.alloc, World.update_allocators]
    rw [alloc_find? (h.wellFormed.find?_lt hb).ne, hb]
  cases call with
  | alloc n => exact ⟨b, halloc n, .inr rfl⟩
  | defrag =>
    obtain ⟨b', hk⟩ := h.defrag_keeps he hb
    exact ⟨b', hk, .inl rfl⟩
  | free p =>
    refine ⟨b, ?_, .inr rfl⟩
    rcases World.null_or_denotes hv with hn | ⟨c, hd⟩
    · simp only [Call.exec, World.free_null hn]
      exact ⟨hb, rfl, fun _ _ => rfl⟩
    · obtain ⟨a, hf, _, bs, hbs⟩ := World.free_denotes hd h.wellFormed
      have hid : id ≠ p.id := fun hid => hr ⟨hd.owner, hid.symm⟩
      simp only [Call.exec, hf]
      exact ⟨by simp [hbs, hid, hb], rfl, fun _ _ => rfl⟩
  | realloc p n =>
    refine ⟨b, ?_, .inr rfl⟩
    rcases World.null_or_denotes hv with hn | ⟨c, hd⟩
    · have ha := halloc n
      simp only [Call.exec, World.realloc_null hn]
      rcases hw : w.alloc this n with ⟨_ | _, w'⟩ <;> simpa [hw] using ha
    · exact h.realloc_keeps he hd hb fun hid => hr ⟨hd.owner, hid⟩

end Allocator
