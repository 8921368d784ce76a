import Technosphere.Allocator.Theorems.Integrity
import Technosphere.Allocator.Theorems.Safety

namespace Allocator

-- The allocator together with its user, who writes through pointers to live blocks. For every id,
-- `written` holds the values that the user has last written to the bytes of that block. A block
-- that `realloc` has made starts out with what was written to the bytes it takes over.
structure Session where
  world   : World
  written : ℕ → ℕ → Option UInt8

namespace Session

inductive Event
  | call (c : Call)
  | write (p : Pointer) (i : ℕ) (v : UInt8)

def track (w : World) (this : ℕ) (written : ℕ → ℕ → Option UInt8) :
    Call → ℕ → ℕ → Option UInt8
  | .alloc _ | .free _ | .defrag => written
  | .realloc p n =>
    match w.realloc this p n with
    | (.error _, _, _) => written
    | (.ok (), _, q)   =>
      if p.get w.allocators = nullptr then written
      else Function.update written q.id fun i =>
        if i < min (p.getSize w.allocators) n then written p.id i else none

inductive Step (this : ℕ) (s : Session) : Event → Session → Prop
  | call (h : Allocator.Step this s.world c w) :
    Step this s (.call c) ⟨w, track s.world this s.written c⟩
  | write (hp : (s.world.allocators this).Issued this p)
      (hg : p.get s.world.allocators ≠ nullptr) (hi : i < p.getSize s.world.allocators) :
    Step this s (.write p i v)
      ⟨{ s.world with memory := s.world.memory.write (p.get s.world.allocators + i) v },
        Function.update s.written p.id (Function.update (s.written p.id) i (some v))⟩

structure Initial (arena : Arena) (this : ℕ) (s : Session) : Prop where
  world   : Allocator.Initial arena this s.world
  written : ∀ id i, s.written id i = none

def ReadsBack (s : Session) (this : ℕ) : Prop :=
  ∀ p, (s.world.allocators this).Issued this p → p.get s.world.allocators ≠ nullptr →
    ∀ i v, i < p.getSize s.world.allocators → s.written p.id i = some v →
      s.world.memory (p.get s.world.allocators + i) = v

variable {arena : Arena} {this id n : ℕ} {w w' : World} {s s₀ s' : Session} {b b' : Block}
  {p q : Pointer} {c : Call} {e : Event}

theorem denotes_of_find? (h : Invariant arena this w) (ho : p.allocator = some this)
    (hb : (w.allocators this).pointers.find? p.id = some b) : w.Denotes this p b :=
  ⟨ho, hb, h.nonnull hb⟩

theorem live_before (he : Even arena.size) (h : Invariant arena this w)
    (hs : Allocator.Step this w c w') (hid : id ≠ (w.allocators this).pointerId)
    (hb : (w'.allocators this).pointers.find? id = some b') :
    ∃ b, (w.allocators this).pointers.find? id = some b ∧ ¬c.Releases this id := by
  obtain ⟨hv, rfl⟩ := hs
  have halloc {n : ℕ} (hb : ((w.alloc this n).2.allocators this).pointers.find? id = some b') :
      (w.allocators this).pointers.find? id = some b' := by
    simpa [World.alloc, alloc_find? hid] using hb
  have hnull {p : Pointer} (hn : p.get w.allocators = nullptr)
      (hb : (w.allocators this).pointers.find? id = some b') :
      ¬(p.allocator = some this ∧ p.id = id) := by
    rintro ⟨ho, hi⟩
    exact (denotes_of_find? h ho (hi ▸ hb)).get_ne hn
  have herase {p : Pointer} (hb : ((w.allocators this).pointers.erase p.id).find? id = some b') :
      (w.allocators this).pointers.find? id = some b' ∧ ¬(p.allocator = some this ∧ p.id = id) := by
    simp only [SortedMap.find?_erase] at hb
    split_ifs at hb with hi
    exact ⟨hb, fun h => hi h.2.symm⟩
  cases c with
  | alloc n => exact ⟨b', halloc hb, not_false⟩
  | defrag =>
    simp only [Call.exec, World.defrag, World.update_allocators,
      defrag_eq (h.liveSize_le he) h.spare_fits] at hb
    obtain ⟨b, hb, _⟩ := mem_layout (SortedMap.mem_entries.mpr hb)
    exact ⟨b, SortedMap.mem_entries.mp hb, not_false⟩
  | free p =>
    rcases World.null_or_denotes hv with hn | ⟨c, hd⟩
    · simp only [Call.exec, World.free_null hn] at hb
      exact ⟨b', hb, hnull hn hb⟩
    · obtain ⟨a, hf, _, bs, hbs⟩ := World.free_denotes hd h.wellFormed
      simp only [Call.exec, hf, World.update_allocators, hbs] at hb
      exact ⟨b', herase hb⟩
  | realloc p n =>
    rcases World.null_or_denotes hv with hn | ⟨c, hd⟩
    · have hb : (w.allocators this).pointers.find? id = some b' := by
        apply halloc
        simp only [Call.exec, World.realloc_null hn] at hb
        rcases hw : w.alloc this n with ⟨_ | _, w'⟩ <;> simpa [hw] using hb
      exact ⟨b', hb, hnull hn hb⟩
    · cases h.realloc_result hd n with
      | released r a _ pointers _ eq =>
        simp only [Call.exec, eq, World.update_allocators, pointers] at hb
        exact ⟨b', herase hb⟩
      | moved x a _ pointers _ eq =>
        simp only [Call.exec, eq, World.memcpy_allocators, World.update_allocators, pointers,
          SortedMap.find?_set, hid, ↓reduceIte] at hb
        exact ⟨b', herase hb⟩

theorem pointerId_le (he : Even arena.size) (h : Invariant arena this w)
    (hs : Allocator.Step this w c w') :
    (w.allocators this).pointerId ≤ (w'.allocators this).pointerId := by
  obtain ⟨hv, rfl⟩ := hs
  have halloc (n : ℕ) : (w.allocators this).pointerId ≤
      ((w.alloc this n).2.allocators this).pointerId := by
    simp only [World.alloc, World.update_allocators]
    cases h.wellFormed.alloc_result this n with
    | kept _ _ eq                  => rw [eq]
    | added _ _ _ _ pointerId _ eq => rw [eq, pointerId]; exact Nat.le_succ _
  cases c with
  | alloc n => exact halloc n
  | defrag  => simp [Call.exec, World.defrag, defrag_eq (h.liveSize_le he) h.spare_fits]
  | free p =>
    rcases World.null_or_denotes hv with hn | ⟨c, hd⟩
    · simp [Call.exec, World.free_null hn]
    · obtain ⟨a, hf, _, bs, hbs⟩ := World.free_denotes hd h.wellFormed
      simp [Call.exec, hf, hbs]
  | realloc p n =>
    rcases World.null_or_denotes hv with hn | ⟨c, hd⟩
    · have ha := halloc n
      simp only [Call.exec, World.realloc_null hn]
      rcases hw : w.alloc this n with ⟨_ | _, w'⟩ <;> simpa [hw] using ha
    · cases h.realloc_result hd n with
      | released _ _ _ _ pointerId eq => simp [Call.exec, eq, pointerId]
      | moved _ _ _ _ pointerId eq    => simp [Call.exec, eq, pointerId]

-- What is recorded about a block after a call was recorded before, or it is about the block that a
-- `realloc` has just made and was recorded about the block it took the bytes from.
theorem of_track {written : ℕ → ℕ → Option UInt8} (h : Invariant arena this w)
    (hv : c.Valid w this) (ht : track w this written c id i = some v) :
    written id i = some v ∨ ∃ p n b b', w.Denotes this p b ∧ written p.id i = some v ∧
      id = (w.allocators this).pointerId ∧ id < ((c.exec w this).allocators this).pointerId ∧
      ((c.exec w this).allocators this).pointers.find? id = some b' ∧ i < min b.size n ∧
      (c.exec w this).memory (b'.begin + i) = w.memory (b.begin + i) := by
  cases c with
  | alloc _ | free _ | defrag => exact .inl ht
  | realloc p n =>
    rcases World.null_or_denotes hv with hn | ⟨b, hd⟩
    · simp only [track, hn, ↓reduceIte] at ht
      rcases hw : w.realloc this p n with ⟨_ | _, w', q⟩ <;> simp_all
    · cases h.realloc_result hd n with
      | released r a hn pointers _ eq =>
        left
        simp only [track, eq] at ht
        cases r with
        | error e => exact ht
        | ok u =>
          simp only [hd.get_ne, hn rfl, Nat.min_zero, Nat.not_lt_zero, ↓reduceIte,
            Function.update_apply] at ht
          split_ifs at ht
          exact ht
      | moved x a hn pointers pointerId eq =>
        have ⟨b', hd', hs, hq, hm⟩ := h.realloc_bytes hd hn eq
        simp only [track, eq, hd.get_ne, hd.getSize, ↓reduceIte, Function.update_apply] at ht
        split_ifs at ht with hid
        · simp only [Option.ite_none_right_eq_some] at ht
          obtain ⟨hi, ht⟩ := ht
          refine .inr ⟨p, n, b, b', hd, ht, hid, ?_, ?_, hi, ?_⟩
          · simp [Call.exec, eq, pointerId, hid]
          · rw [hid, ← hq]
            simpa only [Call.exec, eq] using hd'.find
          · simpa only [Call.exec, eq] using hm i hi
        · exact .inl ht

structure Tracked (arena : Arena) (this : ℕ) (s : Session) : Prop where
  invariant : Invariant arena this s.world
  fresh     : ∀ id, (s.world.allocators this).pointerId ≤ id → ∀ i, s.written id i = none
  bytes     : ∀ {id b i v}, (s.world.allocators this).pointers.find? id = some b → i < b.size →
                s.written id i = some v → s.world.memory (b.begin + i) = v

namespace Tracked

theorem initial (hi : Initial arena this s) : Tracked arena this s where
  invariant    := .initial hi.world
  fresh _ _    := hi.written _
  bytes _ _ ht := by simp [hi.written] at ht

theorem call (he : Even arena.size) (h : Tracked arena this s)
    (hs : Allocator.Step this s.world c w) :
    Tracked arena this ⟨w, track s.world this s.written c⟩ where
  invariant := h.invariant.step he hs
  fresh     := by
    intro id hid i
    have hle := pointerId_le he h.invariant hs
    by_contra hn
    have ⟨v, ht⟩ := Option.ne_none_iff_exists'.mp hn
    rcases of_track h.invariant hs.1 ht with hw | ⟨_, _, _, _, _, _, _, hlt, _⟩
    · simp [h.fresh id (hle.trans hid) i] at hw
    · rw [← hs.2] at hlt
      exact absurd hid hlt.not_ge
  bytes     := by
    intro id b' i v hb hi ht
    rcases of_track h.invariant hs.1 ht with hw | ⟨p, n, b, b'', hd, hw, _, _, hb'', hlt, hm⟩
    · have hne : id ≠ (s.world.allocators this).pointerId := by
        intro hid
        simp [h.fresh id hid.ge i] at hw
      have ⟨b, hf, hr⟩ := live_before he h.invariant hs hne hb
      have ⟨b'', ⟨hb'', hsz, hk⟩, _⟩ := h.invariant.call_keeps he hs hf hr
      obtain rfl := Option.some.inj (hb.symm.trans hb'')
      rw [hk i (hsz ▸ hi)]
      exact h.bytes hf (hsz ▸ hi) hw
    · rw [← hs.2] at hb'' hm
      obtain rfl := Option.some.inj (hb.symm.trans hb'')
      rw [hm]
      exact h.bytes hd.find (hlt.trans_le (min_le_left ..)) hw

theorem write (h : Tracked arena this s) (hd : s.world.Denotes this p b) (hi : i < b.size) :
    Tracked arena this
      ⟨{ s.world with memory := s.world.memory.write (b.begin + i) v },
        Function.update s.written p.id (Function.update (s.written p.id) i (some v))⟩ where
  invariant := h.invariant.of_allocator_eq rfl
  fresh     := by
    intro id hid j
    have hlt := h.invariant.wellFormed.find?_lt hd.find
    simpa only [Function.update_of_ne (hlt.trans_le hid).ne'] using h.fresh id hid j
  bytes     := by
    intro id c j u hc hj ht
    simp only [Memory.write] at *
    by_cases hid : id = p.id
    case pos =>
      subst hid
      obtain rfl := Option.some.inj (hc.symm.trans hd.find)
      by_cases hij : j = i
      case pos => simpa [hij] using ht
      case neg =>
        rw [Function.update_of_ne (by omega)]
        exact h.bytes hc hj (by simpa [hij] using ht)
    case neg =>
      have := h.invariant.wellFormed.disjoint hc hd.find hid
      simp only [Block.stop] at this
      rw [Function.update_of_ne (by omega)]
      exact h.bytes hc hj (by simpa [hid] using ht)

theorem step (he : Even arena.size) (h : Tracked arena this s) (hs : Step this s e s') :
    Tracked arena this s' := by
  cases hs with
  | call hs => exact h.call he hs
  | write hp hg hi =>
    have ⟨b, hd⟩ := (World.null_or_denotes hp).resolve_left hg
    simp only [hd.get, hd.getSize] at hi ⊢
    exact h.write hd hi

theorem run (he : Even arena.size) (hi : Initial arena this s₀) (r : Run (Step this) s₀ s) :
    Tracked arena this s :=
  r.invariant (initial hi) (step he)

theorem readsBack (h : Tracked arena this s) : s.ReadsBack this := by
  intro p hp hg i v hi ht
  have ⟨b, hd⟩ := (World.null_or_denotes hp).resolve_left hg
  simp only [hd.get, hd.getSize] at hi ⊢
  exact h.bytes hd.find hi ht

end Tracked

structure Holds (w w' : World) (p q : Pointer) (n : ℕ) : Prop where
  live  : q.get w'.allocators ≠ nullptr
  fits  : n ≤ q.getSize w'.allocators
  bytes : ∀ i < n, w'.memory (q.get w'.allocators + i) = w.memory (p.get w.allocators + i)

structure DataIntegrity (s : Session) (this : ℕ) : Prop where
  readsBack : s.ReadsBack this
  defrag    : ∀ p, (s.world.allocators this).Issued this p → p.get s.world.allocators ≠ nullptr →
                Holds s.world (s.world.defrag this) p p (p.getSize s.world.allocators)
  realloc   : ∀ p n w q, (s.world.allocators this).Issued this p →
                p.get s.world.allocators ≠ nullptr → 0 < n →
                s.world.realloc this p n = (.ok (), w, q) →
                q.getSize w.allocators = n ∧
                  Holds s.world w p q (min (p.getSize s.world.allocators) n)
  others    : ∀ c w p, Allocator.Step this s.world c w → (s.world.allocators this).Issued this p →
                p.get s.world.allocators ≠ nullptr → ¬c.Releases this p.id →
                Holds s.world w p p (p.getSize s.world.allocators) ∧
                  (c = .defrag ∨ p.get w.allocators = p.get s.world.allocators)

theorem holds_of_keeps (hi : Invariant arena this w') (hd : w.Denotes this p b)
    (hk : Keeps w w' this p.id b b') : Holds w w' p p b.size ∧ p.get w'.allocators = b'.begin := by
  have ⟨hf, hs, hm⟩ := hk
  have hd' := denotes_of_find? hi hd.owner hf
  refine ⟨⟨hd'.get_ne, by rw [hd'.getSize, hs], fun i h => ?_⟩, hd'.get⟩
  rw [hd'.get, hd.get, hm i h]

theorem Tracked.others (he : Even arena.size) (h : Tracked arena this s)
    (hs : Allocator.Step this s.world c w) (hd : s.world.Denotes this p b)
    (hr : ¬c.Releases this p.id) : Holds s.world w p p (p.getSize s.world.allocators) ∧
      (c = .defrag ∨ p.get w.allocators = p.get s.world.allocators) := by
  have ⟨b', hk, hb⟩ := h.invariant.call_keeps he hs hd.find hr
  have ⟨hh, hg⟩ := holds_of_keeps (h.invariant.step he hs) hd hk
  rw [hd.getSize, hd.get, hg]
  exact ⟨hh, hb.imp_right (congrArg _)⟩

theorem run_dataIntegrity (he : Even arena.size) (hi : Initial arena this s₀)
    (r : Run (Step this) s₀ s) : s.DataIntegrity this := by
  have h := Tracked.run he hi r
  constructor
  case readsBack => exact h.readsBack
  case defrag =>
    intro p hp hg
    have ⟨b, hd⟩ := (World.null_or_denotes hp).resolve_left hg
    exact (h.others he (c := .defrag) ⟨trivial, rfl⟩ hd not_false).1
  case realloc =>
    intro p n w q hp hg hn hr
    have ⟨b, hd⟩ := (World.null_or_denotes hp).resolve_left hg
    have ⟨b', hd', hs, _, hm⟩ := h.invariant.realloc_bytes hd hn hr
    rw [hd.getSize, hd'.getSize]
    refine ⟨hs, hd'.get_ne, by rw [hd'.getSize]; omega, ?_⟩
    rwa [hd'.get, hd.get]
  case others =>
    intro c w p hs hp hg hr
    have ⟨b, hd⟩ := (World.null_or_denotes hp).resolve_left hg
    exact h.others he hs hd hr

theorem run_dataIntegrity_of_write :
    let arena : Arena := ⟨16, 8, by decide, by decide⟩
    let s : Session   := ⟨World.fresh arena, fun _ _ => none⟩
    let p : Pointer   := ⟨some 0, 1⟩
    let w₁            := (s.world.alloc 0 2).2
    let w₂            := { w₁ with memory := w₁.memory.write (p.get w₁.allocators) 7 }
    let written       := Function.update s.written 1 (Function.update (s.written 1) 0 (some 7))
    let c             := Call.realloc p 3
    DataIntegrity ⟨c.exec w₂ 0, track w₂ 0 written c⟩ 0 := by
  intro arena s p w₁ w₂ written c
  have hi : Initial arena 0 s := ⟨rfl, fun _ _ => rfl⟩
  have h₁ : Step 0 s (.call (.alloc 2)) ⟨w₁, s.written⟩ := .call ⟨trivial, rfl⟩
  have hp : (w₁.allocators 0).Issued 0 p := .inr (by decide)
  have h₂ : Step 0 ⟨w₁, s.written⟩ (.write p 0 7) ⟨w₂, written⟩ :=
    .write (s := ⟨w₁, s.written⟩) (i := 0) (v := 7) hp (by decide) (by decide)
  have h₃ : Step 0 ⟨w₂, written⟩ (.call c) ⟨c.exec w₂ 0, track w₂ 0 written c⟩ :=
    .call ⟨.inr (by decide), rfl⟩
  exact run_dataIntegrity (by decide) hi (.snoc (.snoc (.snoc .refl _ h₁) _ h₂) _ h₃)

end Session

end Allocator
