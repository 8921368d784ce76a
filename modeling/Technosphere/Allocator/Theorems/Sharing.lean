import Technosphere.Lib.Projection
import Technosphere.Lib.Regions
import Technosphere.Allocator.Shared
import Technosphere.Allocator.Theorems.Safety
import Technosphere.Allocator.Theorems.Integrity

open Set

namespace Allocator

variable {arena : Arena} {this n : ℕ} {w w' : World} {a a' : Allocator} {b : Block} {c : Call}
  {p : Pointer} {allocators allocators' : ℕ → Allocator}

theorem Issued.get_congr (hp : a.Issued this p) (h : allocators' this = allocators this) :
    p.get allocators' = p.get allocators ∧ p.getSize allocators' = p.getSize allocators := by
  rcases hp with rfl | ⟨ho, _⟩
  · exact ⟨rfl, rfl⟩
  · simp [Pointer.get, Pointer.getSize, ho, h]

theorem free_congr (hg : p.get allocators' = p.get allocators)
    (hs : p.getSize allocators' = p.getSize allocators) :
    a.free allocators' p = a.free allocators p := by
  simp only [Allocator.free, addFreeBlock, hg, hs]

theorem Halves.active_subset (h : a.Halves arena) :
    Ico a.base₁ (a.base₁ + a.memorySize₁) ⊆ arena.span := by
  have := h.bounds
  apply Ico_subset_Ico <;> omega

theorem Halves.spare_subset (h : a.Halves arena) :
    Ico a.base₂ (a.base₂ + a.memorySize₂) ⊆ arena.span := by
  have := h.bounds
  apply Ico_subset_Ico <;> omega

theorem Invariant.live_subset (h : Invariant arena this w)
    (hb : b ∈ (w.allocators this).pointers.values) : b.span ⊆ arena.span := by
  have ⟨hl, hr⟩ := h.wellFormed.live_bounds hb
  exact (Ico_subset_Ico hl hr).trans h.halves.active_subset

-- What a call does is determined by the state of its allocator, and the bytes it copies are those
-- of the arena.
structure Local (arena : Arena) (this : ℕ) (w : World) (c : Call) (a : Allocator)
    (cs : List Memory.Copy) : Prop where
  within : ∀ c ∈ cs, c.Within arena.span
  exec   : ∀ w', w'.allocators this = w.allocators this → c.exec w' this =
            ⟨Function.update w'.allocators this a, w'.memory.copyAll cs⟩
  result : ∀ w', w'.allocators this = w.allocators this → c.result w' this = c.result w this

namespace Local

theorem alloc : Local arena this w (.alloc n) ((w.allocators this).alloc this n).2 [] where
  within := by simp
  exec   := fun w' h => by simp [Call.exec, World.alloc, World.update, h]
  result := fun w' h => by simp [Call.result, World.alloc, h]

theorem free (hp : (w.allocators this).Issued this p) :
    Local arena this w (.free p) ((w.allocators this).free w.allocators p).2.1 [] where
  within := by simp
  exec   := by
    intro w' h
    have ⟨hg, hs⟩ := hp.get_congr h
    simp [Call.exec, World.free, World.update, h, free_congr hg hs]
  result := by
    intro w' h
    have ⟨hg, hs⟩ := hp.get_congr h
    simp [Call.result, World.free, h, free_congr hg hs]

theorem realloc_null (hp : (w.allocators this).Issued this p) (hn : p.get w.allocators = nullptr) :
    Local arena this w (.realloc p n) ((w.allocators this).alloc this n).2 [] := by
  have hr : ∀ w' : World, w'.allocators this = w.allocators this → w'.realloc this p n =
      match (w.allocators this).alloc this n with
      | (.ok q, a)    => (.ok (), w'.update this a, q)
      | (.error e, a) => (.error e, w'.update this a, p) := by
    intro w' h
    rw [World.realloc_null ((hp.get_congr h).1.trans hn), World.alloc, h]
    rcases (w.allocators this).alloc this n with ⟨_ | _, _⟩ <;> rfl
  refine ⟨by simp, fun w' h => ?_, fun w' h => ?_⟩
  · rw [Call.exec, hr w' h]
    rcases (w.allocators this).alloc this n with ⟨_ | _, _⟩ <;> rfl
  · rw [Call.result, Call.result, hr w' h, hr w rfl]
    rcases (w.allocators this).alloc this n with ⟨_ | _, _⟩ <;> rfl

theorem defrag (h : Invariant arena this w) (he : Even arena.size) :
    Local arena this w .defrag (w.allocators this).defrag.1 (w.allocators this).defrag.2 where
  within := by
    have hl := h.liveSize_le he
    intro c hc
    rw [defrag_eq hl h.spare_fits] at hc
    constructor
    case dst =>
      have ⟨hlo, hhi⟩ := inside_of_mem_layoutCopies hc
      refine (Ico_subset_Ico hlo ?_).trans h.halves.spare_subset
      rw [totalSize_entries] at hhi
      omega
    case src =>
      have ⟨e, hm, hs, hn⟩ := exists_of_mem_layoutCopies hc
      rw [hs, hn]
      exact h.live_subset (List.mem_map_of_mem hm)
  exec   := fun w' h => by simp [Call.exec, World.defrag, World.update, h]
  result := fun _ _ => rfl

end Local

-- A `realloc` of a live block saves its bytes in the spare half, from which it takes them again.
theorem realloc_of_free_eq (hd : w.Denotes this p b)
    (hf : (w.allocators this).free w.allocators p = (.ok (), a, {}))
    (hw : w'.allocators this = w.allocators this) :
    w'.realloc this p n = match a.alloc this n with
      | (.ok q, a')    => (.ok (), ((w'.memcpy ⟨(w.allocators this).base₂, b.begin,
          b.size⟩).update this a').restore this q (min b.size n), q)
      | (.error e, a') => (.error e, (w'.memcpy ⟨(w.allocators this).base₂, b.begin,
          b.size⟩).update this a', {}) := by
  have hd' : w'.Denotes this p b := ⟨hd.owner, hw ▸ hd.find, hd.nonnull⟩
  have hs : w'.saveCopy this p = ⟨(w.allocators this).base₂, b.begin, b.size⟩ := by
    simp [World.saveCopy, hd'.get, hd'.getSize, hw]
  have hf' : (w'.memcpy (w'.saveCopy this p)).free this p =
      (.ok (), (w'.memcpy (w'.saveCopy this p)).update this a, {}) := by
    have hc : (w.allocators this).free w'.allocators p = (w.allocators this).free w.allocators p :=
      free_congr (hd'.get.trans hd.get.symm) (hd'.getSize.trans hd.getSize.symm)
    simp [World.free, hw, hc, hf]
  rw [World.realloc_of_free hd' hf', hs]
  simp only [World.alloc, World.update_allocators]
  rcases a.alloc this n with ⟨_ | q, a'⟩ <;> simp [World.update]

theorem restore_eq {x : ℕ} (hx : x ≠ nullptr) (hf : a.pointers.find? p.id = some ⟨x, n⟩)
    (ho : p.allocator = some this) {m : ℕ} :
    (w.update this a).restore this p m = (w.update this a).memcpy ⟨x, a.base₂, m⟩ := by
  have hg : p.get (w.update this a).allocators = x := by
    simp [Pointer.get, ho, findBegin, findBlock, hf]
  rw [World.restore, if_pos (hg ▸ hx), World.restoreCopy, hg, World.update_allocators]

theorem Local.realloc_denotes (h : Invariant arena this w) (he : Even arena.size)
    (hd : w.Denotes this p b) : ∃ a cs, Local arena this w (.realloc p n) a cs := by
  let save : Memory.Copy := ⟨(w.allocators this).base₂, b.begin, b.size⟩
  have hl := (size_le_liveSize hd.find).trans (h.liveSize_le he)
  have hspare : Ico (w.allocators this).base₂ ((w.allocators this).base₂ + b.size) ⊆ arena.span :=
    (Ico_subset_Ico_right (Nat.add_le_add_left hl _)).trans h.halves.spare_subset
  have hsave : save.Within arena.span :=
    ⟨hspare, h.live_subset (SortedMap.mem_values.mpr ⟨_, hd.find⟩)⟩
  obtain ⟨a, hf, ha, hh, hb₂⟩ : ∃ a : Allocator,
      (w.allocators this).free w.allocators p = (.ok (), a, {}) ∧ a.WellFormed ∧ a.Halves arena ∧
        a.base₂ = (w.allocators this).base₂ := by
    obtain ⟨bs, hf, ha⟩ := h.wellFormed.free hd.find hd.get_ne hd.getSize
    exact ⟨_, hf, ha, ⟨h.halves.bounds⟩, rfl⟩
  have hr := fun (w' : World) hw => @realloc_of_free_eq this n w w' a b p hd hf hw
  cases ha.alloc_result this n with
  | kept r hk eq =>
    have hw : ∀ w' : World, w'.allocators this = w.allocators this → w'.realloc this p n =
        (r.map fun _ => (), (w'.memcpy save).update this a, {}) := by
      intro w' hw
      rw [hr w' hw, eq]
      cases r with
      | error e => rfl
      | ok q    =>
        obtain ⟨_, rfl⟩ := hk q rfl
        rfl
    refine ⟨a, [save], List.forall_mem_singleton.mpr hsave, fun w' hw' => ?_, fun w' hw' => ?_⟩
    · rw [Call.exec, hw w' hw']
      rfl
    · rw [Call.result, Call.result, hw w' hw', hw w rfl]
  | added x a' hn pointers pointerId base₂ eq =>
    let q : Pointer := ⟨some this, a.pointerId⟩
    let back : Memory.Copy := ⟨x, (w.allocators this).base₂, min b.size n⟩
    have hi : Invariant arena this (w.update this a') := by
      have hw := eq ▸ @WellFormed.alloc a this n ha
      have hh := eq ▸ @Halves.alloc arena this n a hh
      exact ⟨by simpa using hw, by simpa using hh⟩
    have hx : a'.pointers.find? q.id = some ⟨x, n⟩ := by simp [q, pointers]
    have hf' : ((w.update this a').allocators this).pointers.find? q.id = some ⟨x, n⟩ := by
      rwa [World.update_allocators]
    have hxn : x ≠ nullptr := hi.nonnull hf'
    have hxs : Ico x (x + n) ⊆ arena.span := hi.live_subset (SortedMap.mem_values.mpr ⟨_, hf'⟩)
    have hw : ∀ w' : World, w'.allocators this = w.allocators this → w'.realloc this p n =
        (.ok (), ((w'.memcpy save).update this a').memcpy back, q) := by
      intro w' hw
      have hs : ((w'.memcpy save).update this a').restore this q (min b.size n) =
          ((w'.memcpy save).update this a').memcpy back := by
        rw [restore_eq hxn hx rfl, base₂, hb₂]
      rw [hr w' hw, eq, ← hs]
    refine ⟨a', [save, back], ?_, fun w' hw' => ?_, fun w' hw' => ?_⟩
    · rw [List.forall_mem_cons, List.forall_mem_singleton]
      refine ⟨hsave, ?_, ?_⟩
      · exact (Ico_subset_Ico_right (Nat.add_le_add_left (min_le_right ..) _)).trans hxs
      · exact (Ico_subset_Ico_right (Nat.add_le_add_left (min_le_left ..) _)).trans hspare
    · rw [Call.exec, hw w' hw']
      rfl
    · rw [Call.result, Call.result, hw w' hw', hw w rfl]

theorem Invariant.exists_local (h : Invariant arena this w) (he : Even arena.size)
    (hv : c.Valid w this) : ∃ a cs, Local arena this w c a cs := by
  cases c with
  | alloc n     => exact ⟨_, _, .alloc⟩
  | free p      => exact ⟨_, _, .free hv⟩
  | defrag      => exact ⟨_, _, .defrag h he⟩
  | realloc p n =>
    rcases World.null_or_denotes hv with hn | ⟨b, hd⟩
    · exact ⟨_, _, .realloc_null hv hn⟩
    · exact Local.realloc_denotes h he hd

-- The two worlds do not differ in an allocator and the bytes of its arena.
structure Agree (arena : Arena) (this : ℕ) (w w' : World) : Prop where
  allocator : w'.allocators this = w.allocators this
  memory    : EqOn w.memory w'.memory arena.span

theorem Agree.trans {w'' : World} (h₁ : Agree arena this w w') (h₂ : Agree arena this w' w'') :
    Agree arena this w w'' :=
  ⟨h₂.allocator.trans h₁.allocator, h₁.memory.trans h₂.memory⟩

namespace Local

variable {cs : List Memory.Copy} {arena' : Arena} {other : ℕ}

theorem agree (h : Local arena this w c a cs) (hg : Agree arena this w w') :
    Agree arena this (c.exec w this) (c.exec w' this) := by
  rw [h.exec w rfl, h.exec w' hg.allocator]
  exact ⟨by simp, Memory.copyAll_eqOn h.within hg.memory⟩

theorem agree_other (h : Local arena this w c a cs) (hne : other ≠ this)
    (hd : Disjoint arena.span arena'.span) : Agree arena' other (c.exec w this) w := by
  rw [h.exec w rfl]
  exact ⟨by simp [hne], Memory.copyAll_eqOn_of_disjoint h.within hd⟩

end Local

namespace Shared

variable {S : Set ℕ} {arena : ℕ → Arena} {i : ℕ} {w₀ t : World} {e : Event}

structure Separate (S : Set ℕ) (arena : ℕ → Arena) : Prop where
  disjoint : S.PairwiseDisjoint fun this => (arena this).span
  even     : ∀ this ∈ S, Even (arena this).size

theorem get_add_mem (h : Invariant (arena this) this w) (hp : (w.allocators this).Issued this p)
    (hn : p.get w.allocators ≠ nullptr) (hi : i < p.getSize w.allocators) :
    p.get w.allocators + i ∈ (arena this).span := by
  obtain ⟨b, hd⟩ := (World.null_or_denotes hp).resolve_left hn
  rw [hd.getSize] at hi
  rw [hd.get]
  exact h.live_subset (SortedMap.mem_values.mpr ⟨_, hd.find⟩) ⟨by omega, by simp [Block.stop, hi]⟩

theorem Step.own (hs : Step S arena w e w') (h : Invariant (arena this) this w)
    (he : Even (arena this).size) (ho : e.owner = some this) (hg : Agree (arena this) this w t) :
    ∃ t', Step {this} arena t e t' ∧ Agree (arena this) this w' t' := by
  cases hs with
  | @call this' c _ mem step =>
    obtain rfl : this = this' := (Option.some.inj ho).symm
    obtain ⟨hv, rfl⟩ := step
    obtain ⟨a, cs, hl⟩ := h.exists_local he hv
    have hv' : c.Valid t this := by
      cases c with
      | alloc | defrag   => trivial
      | free | realloc   => simpa only [Call.Valid, hg.allocator] using hv
    rw [← hl.result t hg.allocator]
    exact ⟨_, .call rfl ⟨hv', rfl⟩, hl.agree hg⟩
  | @write this' p i v mem issued nonnull inside =>
    obtain rfl : this = this' := (Option.some.inj ho).symm
    obtain ⟨hp, hsz⟩ := issued.get_congr hg.allocator
    refine ⟨_, .write rfl ?_ ?_ ?_, hg.allocator, ?_⟩
    · rwa [hg.allocator]
    · rwa [hp]
    · rwa [hsz]
    · rw [hp]
      exact Memory.write_eqOn hg.memory
  | store => simp [Event.owner] at ho

theorem Step.agree_other (hs : Step S arena w e w') (hd : Separate S arena)
    (h : ∀ this ∈ S, Invariant (arena this) this w) (hm : this ∈ S) (ho : e.owner ≠ some this) :
    Agree (arena this) this w' w := by
  have hdj : ∀ other ∈ S, other ≠ this → Disjoint (arena other).span (arena this).span :=
    fun other ho hne => hd.disjoint ho hm hne
  cases hs with
  | @call other c _ mem step =>
    have hne : other ≠ this := fun hn => ho (congrArg some hn)
    obtain ⟨hv, rfl⟩ := step
    obtain ⟨a, cs, hl⟩ := (h other mem).exists_local (hd.even other mem) hv
    exact hl.agree_other hne.symm (hdj other mem hne)
  | @write other p i v mem issued nonnull inside =>
    have hne : other ≠ this := fun hn => ho (congrArg some hn)
    have hx := get_add_mem (h other mem) issued nonnull inside
    refine ⟨rfl, Memory.write_eqOn_of_not_mem fun hx' => ?_⟩
    exact Set.disjoint_left.mp (hdj other mem hne) hx hx'
  | store outside => exact ⟨rfl, Memory.write_eqOn_of_not_mem (outside this hm)⟩

theorem Step.invariant (hs : Step S arena w e w') (hd : Separate S arena)
    (h : ∀ this ∈ S, Invariant (arena this) this w) (hm : this ∈ S) :
    Invariant (arena this) this w' := by
  by_cases ho : e.owner = some this
  case neg => exact (h this hm).of_allocator_eq (hs.agree_other hd h hm ho).allocator.symm
  case pos =>
    cases hs with
    | @call this' _ _ mem step =>
      obtain rfl : this = this' := (Option.some.inj ho).symm
      exact (h this hm).step (hd.even this hm) step
    | write mem => exact (h this hm).of_allocator_eq rfl
    | store     => exact (h this hm).of_allocator_eq rfl

-- What an allocator and its user see of a run in which several allocators are used is a run in
-- which it is the only one: the same calls with the same results, and the same bytes in its arena.
theorem run_alone (hd : Separate S arena) (hi : ∀ this ∈ S, Initial (arena this) this w₀)
    (r : Run (Step S arena) w₀ w) (hm : this ∈ S) :
    ∃ w', Agree (arena this) this w w' ∧ ∃ r' : Run (Step {this} arena) w₀ w',
      r'.events = r.events.filter (·.owner = some this) := by
  have h := @Run.project _ _ _ _ (Step S arena) (Step {this} arena)
    (Option.guard (·.owner = some this))
    (fun w t => (∀ this ∈ S, Invariant (arena this) this w) ∧ Agree (arena this) this w t) w₀ w w₀
    ⟨fun i hm => .initial (hi i hm), rfl, fun _ _ => rfl⟩ ?own ?other r
  case own   =>
    rintro w t e w' e' ⟨h, hg⟩ hs ho
    obtain ⟨rfl, ho⟩ := Option.guard_eq_some_iff.mp ho
    obtain ⟨t', ht, hg'⟩ := hs.own (h this hm) (hd.even this hm) (by simpa using ho) hg
    exact ⟨t', ht, fun _ hm => hs.invariant hd h hm, hg'⟩
  case other =>
    rintro w t e w' ⟨h, hg⟩ hs ho
    have ho : e.owner ≠ some this := by simpa [Option.guard] using ho
    exact ⟨fun _ hm => hs.invariant hd h hm, (hs.agree_other hd h hm ho).trans hg⟩
  obtain ⟨w', ⟨_, hg⟩, r', he⟩ := h
  exact ⟨w', hg, r', by rw [he, List.filterMap_eq_filter]⟩

namespace Two

def arenas : ℕ → Arena
  | 0 => ⟨32, 8, by decide, by decide⟩
  | _ => ⟨40, 8, by decide, by decide⟩

def world₀ : World := ⟨fun i => init (arenas i).base (arenas i).size, fun _ => 0⟩
def world₁ : World := (world₀.alloc 0 3).2
def world₂ : World := (world₁.alloc 1 2).2
def world₃ : World := { world₂ with memory := world₂.memory.write 40 7 }
def world₄ : World := (world₃.realloc 0 ⟨some 0, 1⟩ 4).2.1

def run : Run (Step {0, 1} arenas) world₀ world₄ :=
  .snoc (.snoc (.snoc (.snoc .refl
    (.call 0 (.alloc 3) (.ok (), ⟨some 0, 1⟩)) (.call (by simp) ⟨trivial, rfl⟩))
    (.call 1 (.alloc 2) (.ok (), ⟨some 1, 1⟩)) (.call (by simp) ⟨trivial, rfl⟩))
    (.write 1 ⟨some 1, 1⟩ 0 7) (.write (by simp) (.inr ⟨rfl, by decide⟩) (by decide) (by decide)))
    (.call 0 (.realloc ⟨some 0, 1⟩ 4) (.ok (), ⟨some 0, 2⟩))
    (.call (by simp) ⟨.inr ⟨rfl, by decide⟩, rfl⟩)

theorem separate : Separate {0, 1} arenas where
  disjoint := by
    simp only [Set.PairwiseDisjoint, Set.pairwise_pair, Function.onFun, Arena.span, arenas]
    simp
  even     := by
    rintro this (rfl | rfl) <;> decide

theorem initial : ∀ this ∈ ({0, 1} : Set ℕ), Initial (arenas this) this world₀ :=
  fun _ _ => rfl

end Two

theorem run_alone_of_two : ∃ w', Agree (Two.arenas 1) 1 Two.world₄ w' ∧
    ∃ r' : Run (Step {1} Two.arenas) Two.world₀ w', r'.events =
      Two.run.events.filter (·.owner = some 1) :=
  run_alone Two.separate Two.initial Two.run (by simp)

end Shared

end Allocator
