import Mathlib

open Classical Set

-- Families of sets, given as lists of their names `β` with the set `span b` that each one stands
-- for, and what it means for such a family to tile a region. Counting how often a point is covered
-- makes tilings stable under permuting, splitting and joining their parts.
namespace Tiling

variable {α : Type u} {β : Type v} {span : β → Set α} {b : β} {L L₁ L₂ : List β} {R R₁ R₂ : Set α}

noncomputable def cover (span : β → Set α) (L : List β) (x : α) : ℕ :=
  L.countP (x ∈ span ·)

@[simp]
theorem cover_nil : cover span [] x = 0 :=
  rfl

@[simp]
theorem cover_cons : cover span (b :: L) x = (span b).indicator 1 x + cover span L x := by
  by_cases h : x ∈ span b <;> simp [cover, h, add_comm]

@[simp]
theorem cover_append : cover span (L₁ ++ L₂) x = cover span L₁ x + cover span L₂ x :=
  List.countP_append

theorem cover_perm (h : L₁.Perm L₂) : cover span L₁ x = cover span L₂ x :=
  h.countP_eq _

theorem cover_pos : 0 < cover span L x ↔ ∃ b ∈ L, x ∈ span b := by
  simp [cover]

def Tiles (span : β → Set α) (L : List β) (R : Set α) : Prop :=
  ∀ x, cover span L x = R.indicator 1 x

namespace Tiles

theorem congr (h : ∀ x, cover span L₁ x = cover span L₂ x) : Tiles span L₁ R ↔ Tiles span L₂ R := by
  simp [Tiles, h]

theorem nil : Tiles span [] ∅ :=
  fun _ => by simp

theorem mem_iff (h : Tiles span L R) : x ∈ R ↔ ∃ b ∈ L, x ∈ span b := by
  rw [← cover_pos, h]
  by_cases hx : x ∈ R <;> simp [hx]

theorem subset (h : Tiles span L R) (hb : b ∈ L) : span b ⊆ R :=
  fun _ hx => h.mem_iff.mpr ⟨b, hb, hx⟩

theorem cons (h : Tiles span L R) (hd : Disjoint (span b) R) :
    Tiles span (b :: L) (span b ∪ R) := by
  intro x
  rw [cover_cons, h x, indicator_union_of_disjoint hd]

theorem disjoint_head (h : Tiles span (b :: L) R) (hc : c ∈ L) : Disjoint (span b) (span c) := by
  rw [Set.disjoint_left]
  intro x hb hc'
  have hx := h x
  have hp := cover_pos.mpr ⟨c, hc, hc'⟩
  have hr : x ∈ R := h.subset (List.mem_cons_self ..) hb
  simp only [cover_cons, hb, hr, indicator_of_mem, Pi.one_apply] at hx
  omega

theorem tail (h : Tiles span (b :: L) R) : Tiles span L (R \ span b) := by
  intro x
  have hx := h x
  have hs := h.subset (List.mem_cons_self ..)
  by_cases hb : x ∈ span b <;> by_cases hr : x ∈ R <;> simp_all

theorem pairwise_disjoint (h : Tiles span L R) :
    L.Pairwise fun b c => Disjoint (span b) (span c) := by
  induction L generalizing R with
  | nil => exact .nil
  | cons b L hi => exact List.pairwise_cons.mpr ⟨fun _ => h.disjoint_head, hi h.tail⟩

theorem sum_ncard (h : Tiles span L R) (hf : R.Finite) :
    (L.map (span · |>.ncard)).sum = R.ncard := by
  induction L generalizing R with
  | nil =>
    have : R = ∅ := Set.eq_empty_iff_forall_notMem.mpr fun x hx => by simpa using h.mem_iff.mp hx
    simp [this]
  | cons b L hi =>
    have hs := h.subset (List.mem_cons_self ..)
    have := hi h.tail hf.sdiff
    have := Set.ncard_sdiff_add_ncard_of_subset hs hf
    simp only [List.map_cons, List.sum_cons]
    omega

end Tiles

section Ico

variable [LinearOrder α] {a b c : α}

theorem indicator_Ico_add_indicator_Ico (hab : a ≤ b) (hbc : b ≤ c) (x : α) :
    (Ico a b).indicator 1 x + (Ico b c).indicator 1 x = (Ico a c).indicator (1 : α → ℕ) x := by
  rw [← Ico_union_Ico_eq_Ico hab hbc, indicator_union_of_disjoint (Ico_disjoint_Ico_same)]

theorem Ico_ordered_of_disjoint (h : Disjoint (Ico a b) (Ico c d)) (hab : a < b) (hcd : c < d) :
    b ≤ c ∨ d ≤ a := by
  by_contra! hn
  have hx : max a c ∈ Ico a b := by simp [hab, hn]
  exact Set.disjoint_left.mp h hx (by simp [hcd, hn])

section Separated

variable {M : List β} {lo hi : β → α} (hs : L.Pairwise fun b c => hi b < lo c)
include hs

theorem eq_or_separated {b d : β} (hb : b ∈ L) (hd : d ∈ L) :
    b = d ∨ hi b < lo d ∨ hi d < lo b := by
  have hr : L.Pairwise fun b c => b = c ∨ hi b < lo c ∨ hi c < lo b :=
    hs.imp fun h => .inr (.inl h)
  have hf : L.Pairwise (flip fun b c => b = c ∨ hi b < lo c ∨ hi c < lo b) :=
    hs.imp fun h => .inr (.inr h)
  exact hr.forall_of_forall_of_flip (fun _ _ => .inl rfl) hf hb hd

theorem exists_Ico_subset (hac : a < c) (hc : ∀ x ∈ Ico a c, ∃ b ∈ L, x ∈ Ico (lo b) (hi b)) :
    ∃ b ∈ L, Ico a c ⊆ Ico (lo b) (hi b) := by
  have ⟨b, hb, hab⟩ := hc a ⟨le_rfl, hac⟩
  refine ⟨b, hb, Ico_subset_Ico hab.1 ?_⟩
  by_contra! hbc
  -- The point at which the part with `a` ends would be in another part.
  have ⟨d, hd, hbd⟩ := hc (hi b) ⟨hab.2.le, hbc⟩
  rcases eq_or_separated hs hb hd with rfl | h | h
  · exact lt_irrefl _ hbd.2
  · exact hbd.1.not_gt h
  · exact (hbd.2.trans h).not_ge (hab.1.trans hab.2.le)

-- Where such an interval ends there is one of the others that they tile an interval with.
theorem exists_behind (h : Tiles (fun b => Ico (lo b) (hi b)) (L ++ M) (Ico a c))
    (hle : ∀ m ∈ L, lo m ≤ hi m) {b : β} (hb : b ∈ L) (ha : a ≤ hi b) (hc : hi b < c) :
    ∃ m ∈ M, hi b ∈ Ico (lo m) (hi m) := by
  have ⟨m, hm, hx⟩ := h.mem_iff.mp ⟨ha, hc⟩
  refine ⟨m, (List.mem_append.mp hm).resolve_left fun hm => ?_, hx⟩
  rcases eq_or_separated hs hb hm with rfl | hlt | hlt
  · exact lt_irrefl _ hx.2
  · exact hlt.not_ge hx.1
  · exact (hlt.trans_le (hle b hb)).not_gt hx.2

-- So there is at most one more of them than of the others. One that is empty stands at the end.
theorem length_le_of_separated (h : Tiles (fun b => Ico (lo b) (hi b)) (L ++ M) (Ico a c))
    (hle : ∀ b ∈ L, lo b ≤ hi b) (ha : ∀ b ∈ L, a ≤ lo b) (hc : ∀ b ∈ L, lo b ≤ c)
    (he : ∀ b ∈ L, lo b = hi b → lo b = c) : L.length ≤ M.length + 1 := by
  rcases L.eq_nil_or_concat' with rfl | ⟨L, d, rfl⟩
  · simp
  have ⟨hL, _, hd⟩ := List.pairwise_append.mp hs
  have hend : ∀ b ∈ L, hi b < c :=
    fun b hb => (hd b hb d (List.mem_singleton_self d)).trans_le (hc d (by simp))
  have hm : ∀ b ∈ L, ∃ m ∈ M, hi b ∈ Ico (lo m) (hi m) := by
    intro b hb
    have hb' : b ∈ L ++ [d] := List.mem_append_left _ hb
    exact exists_behind hs h hle hb' ((ha b hb').trans (hle b hb')) (hend b hb)
  choose! f hf hx using hm
  have hn : (L.map f).Nodup := by
    rw [List.Nodup, List.pairwise_map]
    refine hL.imp_of_mem fun {b b'} hb hb' hlt heq => ?_
    have hbL : b' ∈ L ++ [d] := List.mem_append_left _ hb'
    have hpos : lo b' < hi b' := by
      refine (hle b' hbL).lt_of_ne fun hz => ?_
      exact (hend b' hb').ne (hz ▸ he b' hbL hz)
    -- The interval behind both of them would also have the point at which `b'` begins.
    have hdis := (List.pairwise_append.mp h.pairwise_disjoint).2.2 b' hbL (f b) (hf b hb)
    have hlast : lo b' < hi (f b) := hpos.trans (heq ▸ (hx b' hb').2)
    exact Set.disjoint_left.mp hdis ⟨le_rfl, hpos⟩ ⟨(hx b hb).1.trans hlt.le, hlast⟩
  have hlen := (hn.subperm (List.forall_mem_map.mpr hf)).length_le
  rw [List.length_map] at hlen
  simpa using hlen

end Separated

end Ico

end Tiling
