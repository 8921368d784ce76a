import Technosphere.Lib.SortedMap

-- A merge of sorted runs. The heap has the head of each run, with the rest of that run. Equal heads
-- cannot both be in it, so a run whose head is there already is lost.
structure Merge (κ : Type u) [LinearOrder κ] where
  heap : SortedMap κ (List κ)
  out  : List κ
  lost : List κ

namespace Merge

variable {κ : Type u} [LinearOrder κ]

def empty : Merge κ where
  heap := ∅
  out  := []
  lost := []

def push (m : Merge κ) : List κ → Merge κ
  | []       => m
  | x :: run =>
    if (m.heap.find? x).isSome then { m with lost := m.lost ++ x :: run }
    else { m with heap := m.heap.set x run }

def pop (m : Merge κ) : Merge κ :=
  match m.heap.entries with
  | []            => m
  | (x, run) :: _ => push { m with heap := m.heap.eraseMin, out := m.out ++ [x] } run

def start (runs : List (List κ)) : Merge κ :=
  runs.foldl push empty

def runs (m : Merge κ) : List (List κ) :=
  m.heap.entries.map fun e => e.1 :: e.2

variable {m : Merge κ} {x : κ} {run xs : List κ} {rs : List (List κ)}

@[simp]
theorem push_nil : m.push [] = m :=
  rfl

theorem push_of_isSome (h : (m.heap.find? x).isSome) :
    m.push (x :: run) = { m with lost := m.lost ++ x :: run } := by
  simp [push, h]

theorem push_of_eq_none (h : m.heap.find? x = none) :
    m.push (x :: run) = { m with heap := m.heap.set x run } := by
  simp [push, h]

@[simp]
theorem push_out : (m.push run).out = m.out := by
  cases run with
  | nil => rfl
  | cons x run => simp only [push]; split_ifs <;> rfl

theorem push_all_out : (rs.foldl push m).out = m.out := by
  induction rs generalizing m with
  | nil => rfl
  | cons r rs ih => rw [List.foldl_cons, ih, push_out]

theorem start_out : (start rs).out = [] :=
  push_all_out

theorem pop_of_nil (h : m.heap.entries = []) : m.pop = m := by
  simp [pop, h]

theorem pop_of_cons {es : List (κ × List κ)} (h : m.heap.entries = (x, run) :: es) :
    m.pop = push { m with heap := m.heap.eraseMin, out := m.out ++ [x] } run := by
  simp [pop, h]

theorem runs_set_perm (run : List κ) (h : m.heap.find? x = none) :
    (runs { m with heap := m.heap.set x run }).Perm ((x :: run) :: m.runs) :=
  (SortedMap.entries_set_perm h).map _

theorem exists_mem_runs (h : (m.heap.find? x).isSome) : ∃ run, x :: run ∈ m.runs := by
  have ⟨run, hf⟩ := Option.isSome_iff_exists.mp h
  exact ⟨run, List.mem_map.mpr ⟨(x, run), SortedMap.mem_entries.mpr hf, rfl⟩⟩

structure Invariant (xs : List κ) (m : Merge κ) : Prop where
  perm      : (m.out ++ m.lost ++ m.runs.flatten).Perm xs
  sorted    : ∀ r ∈ m.runs, r.Pairwise (· ≤ ·)
  ascending : m.out.Pairwise (· ≤ ·)
  below     : ∀ y ∈ m.out, ∀ r ∈ m.runs, ∀ x ∈ r, y ≤ x

namespace Invariant

theorem empty : Invariant [] (Merge.empty : Merge κ) where
  perm      := .refl _
  sorted    := by simp [runs, Merge.empty]
  ascending := .nil
  below     := by simp [Merge.empty]

theorem push (h : Invariant xs m) (hs : run.Pairwise (· ≤ ·)) (hb : ∀ y ∈ m.out, ∀ x ∈ run, y ≤ x) :
    Invariant (xs ++ run) (m.push run) := by
  cases run with
  | nil => simpa using h
  | cons x run =>
    cases hf : m.heap.find? x with
    | some r =>
      rw [push_of_isSome (by simp [hf])]
      refine { h with perm := ?_ }
      have := h.perm.append_right (x :: run)
      refine .trans ?_ this
      simp only [List.append_assoc]
      exact (List.perm_append_comm.append_left m.lost).append_left m.out
    | none =>
      rw [push_of_eq_none hf]
      have hr := runs_set_perm run hf
      constructor
      case perm      =>
        have := h.perm.append_right (x :: run)
        refine .trans ?_ this
        rw [List.append_assoc (m.out ++ m.lost)]
        exact (hr.flatten.trans List.perm_append_comm).append_left _
      case sorted    => exact fun r hm => by grind [hr.mem_iff, h.sorted]
      case ascending => exact h.ascending
      case below     => exact fun y hy r hm => by grind [hr.mem_iff, h.below]

theorem push_all (h : Invariant xs m) (ho : m.out = []) (hs : ∀ r ∈ rs, r.Pairwise (· ≤ ·)) :
    Invariant (xs ++ rs.flatten) (rs.foldl Merge.push m) := by
  induction rs generalizing xs m with
  | nil => simpa using h
  | cons r rs ih =>
    have hp := h.push (hs r (by simp)) (by simp [ho])
    have := ih hp (by simp [ho]) fun r hm => hs r (by simp [hm])
    simpa using this

theorem start (hs : ∀ r ∈ rs, r.Pairwise (· ≤ ·)) : Invariant rs.flatten (start rs) :=
  empty.push_all rfl hs

theorem head_le {es : List (κ × List κ)} (h : Invariant xs m)
    (he : m.heap.entries = (x, run) :: es) : ∀ r ∈ m.runs, ∀ y ∈ r, x ≤ y := by
  intro r hr y hy
  obtain ⟨e, hm, rfl⟩ := List.mem_map.mp hr
  have hx : x ≤ e.1 := by
    have hl := (List.pairwise_cons.mp (he ▸ m.heap.sorted)).1
    rw [he] at hm
    rcases List.mem_cons.mp hm with rfl | hm
    · exact le_rfl
    · exact (hl e hm).le
  rcases List.mem_cons.mp hy with rfl | hy
  · exact hx
  · exact hx.trans (List.rel_of_pairwise_cons (h.sorted _ hr) hy)

theorem eraseMin {es : List (κ × List κ)} (h : Invariant xs m)
    (he : m.heap.entries = (x, run) :: es) :
    ∃ ys, Invariant ys { m with heap := m.heap.eraseMin, out := m.out ++ [x] } ∧
      (ys ++ run).Perm xs := by
  have hr : m.runs =
      (x :: run) :: runs { m with heap := m.heap.eraseMin, out := m.out ++ [x] } := by
    simp [runs, SortedMap.eraseMin, he]
  have hle := h.head_le he
  have hm : ∀ r ∈ runs { m with heap := m.heap.eraseMin, out := m.out ++ [x] }, r ∈ m.runs := by
    simp +contextual [hr]
  refine ⟨_, ⟨.refl _, ?_, ?_, ?_⟩, ?_⟩
  · exact fun r h' => h.sorted r (hm r h')
  · have hb : ∀ y ∈ m.out, y ≤ x := fun y hy => h.below y hy (x :: run) (by simp [hr]) x (by simp)
    exact List.pairwise_append.mpr ⟨h.ascending, List.pairwise_singleton .., by simpa using hb⟩
  · intro y hy r h'
    rcases List.mem_append.mp hy with hy | hy
    · exact h.below y hy r (hm r h')
    · exact List.mem_singleton.mp hy ▸ hle r (hm r h')
  · refine .trans ?_ h.perm
    rw [hr]
    simp only [List.flatten_cons, List.append_assoc, List.cons_append, List.nil_append]
    apply List.Perm.append_left
    apply List.perm_middle.symm.trans
    apply List.Perm.append_left m.lost
    exact List.perm_append_comm.cons x

theorem pop (h : Invariant xs m) : Invariant xs m.pop := by
  cases he : m.heap.entries with
  | nil => rwa [pop_of_nil he]
  | cons e es =>
    obtain ⟨x, run⟩ := e
    have ⟨ys, hi, hp⟩ := h.eraseMin he
    have hm : x :: run ∈ m.runs := by simp [runs, he]
    have hs := List.pairwise_cons.mp (h.sorted _ hm)
    rw [pop_of_cons he]
    have hi := hi.push hs.2 fun y hy z hz => ?_
    · exact { hi with perm := hi.perm.trans hp }
    · rcases List.mem_append.mp hy with hy | hy
      · exact h.below y hy _ hm z (by simp [hz])
      · exact List.mem_singleton.mp hy ▸ hs.1 z hz

theorem pops (h : Invariant xs m) (n : ℕ) : Invariant xs (Merge.pop^[n] m) := by
  induction n with
  | zero => exact h
  | succ n ih => exact Function.iterate_succ_apply' .. ▸ ih.pop

end Invariant

structure Clean (m : Merge κ) : Prop where
  lost     : m.lost = []
  disjoint : m.runs.Pairwise List.Disjoint

theorem clean_empty : Clean (empty : Merge κ) where
  lost     := rfl
  disjoint := .nil

theorem clean_push_iff : (m.push run).Clean ↔ m.Clean ∧ ∀ r ∈ m.runs, run.Disjoint r := by
  cases run with
  | nil => simp
  | cons x run =>
    cases hf : m.heap.find? x with
    | some r =>
      rw [push_of_isSome (by simp [hf])]
      have ⟨r, hm⟩ := exists_mem_runs (m := m) (x := x) (by simp [hf])
      constructor
      case mp  => exact fun h => absurd h.lost (by simp)
      case mpr => exact fun h => absurd (h.2 _ hm) (by simp)
    | none =>
      rw [push_of_eq_none hf]
      have hp := (runs_set_perm run hf).pairwise_iff (R := List.Disjoint) (·.symm)
      rw [List.pairwise_cons] at hp
      constructor
      case mp  => exact fun h => ⟨⟨h.lost, (hp.mp h.disjoint).2⟩, (hp.mp h.disjoint).1⟩
      case mpr => exact fun h => ⟨h.1.lost, hp.mpr ⟨h.2, h.1.disjoint⟩⟩

theorem clean_push_all_iff : (rs.foldl push m).Clean ↔
    m.Clean ∧ rs.Pairwise List.Disjoint ∧ ∀ r ∈ rs, ∀ r' ∈ m.runs, r.Disjoint r' := by
  induction rs generalizing m with
  | nil => simp
  | cons r rs ih =>
    rw [List.foldl_cons, ih, clean_push_iff, List.pairwise_cons]
    have hr : (∀ r' ∈ m.runs, r.Disjoint r') → (m.push r).Clean →
        ((∀ r₁ ∈ rs, ∀ r₂ ∈ (m.push r).runs, r₁.Disjoint r₂) ↔
          (∀ r' ∈ rs, r.Disjoint r') ∧ ∀ r₁ ∈ rs, ∀ r₂ ∈ m.runs, r₁.Disjoint r₂) := by
      intro _ hc
      cases r with
      | nil => simp
      | cons x run =>
        cases hf : m.heap.find? x with
        | some r => exact absurd hc.lost (by simp [push_of_isSome, hf])
        | none =>
          have hm := fun r => (runs_set_perm (m := m) run hf).mem_iff (a := r)
          rw [push_of_eq_none hf]
          simp only [hm, List.mem_cons, forall_eq_or_imp, forall_and]
          exact and_congr_left' (forall₂_congr fun _ _ => List.disjoint_comm)
    constructor
    case mp  =>
      intro ⟨⟨hc, hd⟩, hp, h⟩
      have ⟨h₁, h₂⟩ := (hr hd (clean_push_iff.mpr ⟨hc, hd⟩)).mp h
      exact ⟨hc, ⟨h₁, hp⟩, by simpa using ⟨hd, h₂⟩⟩
    case mpr =>
      intro ⟨hc, ⟨h₁, hp⟩, h⟩
      simp only [List.mem_cons, forall_eq_or_imp] at h
      exact ⟨⟨hc, h.1⟩, hp, (hr h.1 (clean_push_iff.mpr ⟨hc, h.1⟩)).mpr ⟨h₁, h.2⟩⟩

theorem clean_start_iff : (start rs).Clean ↔ rs.Pairwise List.Disjoint := by
  rw [start, clean_push_all_iff]
  exact ⟨fun h => h.2.1, fun h => ⟨clean_empty, h, by simp [runs, empty]⟩⟩

-- The least head is below all other heads, so it is in no other run.
theorem clean_pop_iff (h : Invariant xs m) : m.pop.Clean ↔ m.Clean := by
  cases he : m.heap.entries with
  | nil => rw [pop_of_nil he]
  | cons e es =>
    obtain ⟨x, run⟩ := e
    have hr : m.runs = (x :: run) :: es.map fun e => e.1 :: e.2 := by simp [runs, he]
    have hx : ∀ r ∈ es.map (fun e => e.1 :: e.2), x ∉ r := by
      intro r hm hx
      obtain ⟨e, he', rfl⟩ := List.mem_map.mp hm
      have hl : x < e.1 := (List.pairwise_cons.mp (he ▸ m.heap.sorted)).1 e he'
      have hs := h.sorted (e.1 :: e.2) (hr ▸ List.mem_cons_of_mem _ hm)
      rcases List.mem_cons.mp hx with hx | hx
      · exact hl.ne hx
      · exact hl.not_ge (List.rel_of_pairwise_cons hs hx)
    have hd : ∀ r ∈ es.map (fun e => e.1 :: e.2), (x :: run).Disjoint r ↔ run.Disjoint r := by
      intro r hm
      simp [List.disjoint_cons_left, hx r hm]
    rw [pop_of_cons he, clean_push_iff]
    constructor
    case mp  =>
      rintro ⟨⟨hl, hp⟩, hdis⟩
      have hp : (es.map fun e => e.1 :: e.2).Pairwise List.Disjoint := by
        simpa [runs, SortedMap.eraseMin, he] using hp
      have hdis : ∀ r ∈ es.map (fun e => e.1 :: e.2), run.Disjoint r := by
        simpa [runs, SortedMap.eraseMin, he] using hdis
      exact ⟨hl, hr ▸ List.pairwise_cons.mpr ⟨fun r hm => (hd r hm).mpr (hdis r hm), hp⟩⟩
    case mpr =>
      rintro ⟨hl, hp⟩
      obtain ⟨h₁, h₂⟩ := List.pairwise_cons.mp (hr ▸ hp)
      have he' : runs { m with heap := m.heap.eraseMin, out := m.out ++ [x] } =
          es.map fun e => e.1 :: e.2 := by
        simp [runs, SortedMap.eraseMin, he]
      exact ⟨⟨hl, he' ▸ h₂⟩, he' ▸ fun r hm => (hd r hm).mp (h₁ r hm)⟩

theorem clean_pops_iff (h : Invariant xs m) (n : ℕ) : (pop^[n] m).Clean ↔ m.Clean := by
  induction n with
  | zero => exact .rfl
  | succ n ih => rw [Function.iterate_succ_apply', clean_pop_iff (h.pops n), ih]

theorem length_out_pops (m : Merge κ) (n : ℕ) :
    (pop^[n] m).heap.entries = [] ∨ n ≤ (pop^[n] m).out.length := by
  induction n with
  | zero => exact .inr (Nat.zero_le _)
  | succ n ih =>
    rw [Function.iterate_succ_apply']
    cases he : (pop^[n] m).heap.entries with
    | nil => exact .inl (by rwa [pop_of_nil he])
    | cons e es =>
      have := ih.resolve_left (by simp [he])
      exact .inr (by simp [pop_of_cons he, this])

theorem entries_pops_eq_nil (h : Invariant xs m) {n : ℕ} (hn : xs.length ≤ n) :
    (pop^[n] m).heap.entries = [] := by
  by_contra he
  have ho := (length_out_pops m n).resolve_left he
  have hl := (h.pops n).perm.length_eq
  have hr : (pop^[n] m).runs.flatten ≠ [] := by
    have ⟨e, es, he⟩ := List.exists_cons_of_ne_nil he
    simp [runs, he]
  have := List.length_pos_of_ne_nil hr
  simp only [List.length_append] at hl
  omega

theorem out_lost_perm (hs : ∀ r ∈ rs, r.Pairwise (· ≤ ·)) {n : ℕ} (hn : rs.flatten.length ≤ n) :
    ((pop^[n] (start rs)).out ++ (pop^[n] (start rs)).lost).Perm rs.flatten := by
  have hi := Invariant.start hs
  have he := entries_pops_eq_nil hi hn
  simpa [runs, he] using (hi.pops n).perm

theorem lost_eq_nil_iff (hs : ∀ r ∈ rs, r.Pairwise (· ≤ ·)) {n : ℕ} (hn : rs.flatten.length ≤ n) :
    (pop^[n] (start rs)).lost = [] ↔ rs.Pairwise List.Disjoint := by
  have hi := Invariant.start hs
  have he := entries_pops_eq_nil hi hn
  rw [← clean_start_iff, ← clean_pops_iff hi n]
  exact ⟨fun h => ⟨h, by simp [runs, he]⟩, Clean.lost⟩

end Merge
