import Technosphere.Lib.Tiling
import Technosphere.Allocator.Basic

open Set Tiling

-- The list operations at the position that follows the first part of a list.
namespace List

variable {l₁ l₂ : List α} {x : α}

theorem eraseIdx_length_append : (l₁ ++ x :: l₂).eraseIdx l₁.length = l₁ ++ l₂ := by
  simp [eraseIdx_append]

theorem insertIdx_length_append : (l₁ ++ l₂).insertIdx l₁.length x = l₁ ++ x :: l₂ := by
  induction l₁ <;> simp_all

theorem modify_length_append : (l₁ ++ x :: l₂).modify l₁.length f = l₁ ++ f x :: l₂ := by
  induction l₁ <;> simp_all

theorem findIdx_split (p : α → Bool) (l : List α) :
    ∃ l₁ l₂, l = l₁ ++ l₂ ∧ l.findIdx p = l₁.length ∧ (∀ x ∈ l₁, ¬p x) ∧ ∀ x ∈ l₂.head?, p x := by
  induction l with
  | nil => exact ⟨[], [], by simp⟩
  | cons x l hi =>
    by_cases h : p x
    case pos => exact ⟨[], x :: l, by simp [h, findIdx_cons]⟩
    case neg =>
      have ⟨l₁, l₂, hl, hf, h₁, h₂⟩ := hi
      exact ⟨x :: l₁, l₂, by simp_all [findIdx_cons]⟩

theorem findIdx?_split {p : α → Bool} {l : List α} (h : l.findIdx? p = some i) :
    ∃ l₁ x l₂, l = l₁ ++ x :: l₂ ∧ i = l₁.length ∧ p x ∧ ∀ y ∈ l₁, ¬p y := by
  have ⟨hi, hf⟩ := findIdx?_eq_some_iff_findIdx_eq.mp h
  have ⟨l₁, l₂, hl, hl₁, h₁, h₂⟩ := l.findIdx_split p
  cases l₂ with
  | nil => simp_all
  | cons x l₂ => exact ⟨l₁, x, l₂, hl, by omega, by simpa using h₂, h₁⟩

end List

namespace Block

def stop (b : Block) : ℕ :=
  b.begin + b.size

def Fits (b : Block) : Prop :=
  b.stop < sizeRange

def span (b : Block) : Set ℕ :=
  Ico b.begin b.stop

def rest (b : Block) (n : ℕ) : List Block :=
  if b.size - n = 0 then [] else [⟨(b.begin + n) % sizeRange, b.size - n⟩]

def join (b c : Block) : Block :=
  { b with size := (b.size + c.size) % sizeRange }

def mergeNext (b : Block) : List Block → List Block
  | []      => [b]
  | c :: bs => if b.getEnd = c.begin then b.join c :: bs else b :: c :: bs

def merged (l₁ : List Block) (b : Block) (l₂ : List Block) : List Block :=
  match l₁.getLast? with
  | none   => b.mergeNext l₂
  | some q => l₁.dropLast ++ q.mergeNext (b.mergeNext l₂)

variable {b c d q : Block} {bs l₁ l₂ : List Block} {n x : ℕ}

@[simp]
theorem merged_nil : merged [] b l₂ = b.mergeNext l₂ :=
  rfl

@[simp]
theorem merged_concat : merged (l₁ ++ [q]) b l₂ = l₁ ++ q.mergeNext (b.mergeNext l₂) := by
  simp [merged]

theorem begin_le_stop (b : Block) : b.begin ≤ b.stop :=
  Nat.le_add_right ..

theorem begin_lt_stop (h : 0 < b.size) : b.begin < b.stop :=
  Nat.lt_add_of_pos_right h

theorem Fits.getEnd (h : b.Fits) : b.getEnd = b.stop :=
  Nat.mod_eq_of_lt h

theorem ncard_span (b : Block) : b.span.ncard = b.size := by
  simp [span, stop, Set.ncard_eq_toFinset_card']

theorem Fits.rest (h : b.Fits) (n : ℕ) :
    b.rest n = if b.size - n = 0 then [] else [⟨b.begin + n, b.size - n⟩] := by
  rw [Block.rest]
  split_ifs with hn
  · rfl
  · rw [Nat.mod_eq_of_lt]
    simp only [Fits, stop] at h
    omega

theorem cover_split (hb : b.Fits) (h : n ≤ b.size) :
    cover span (b.rest n) x + cover span [⟨b.begin, n⟩] x = cover span [b] x := by
  have hs := indicator_Ico_add_indicator_Ico (Nat.le_add_right b.begin n)
    (by omega : b.begin + n ≤ b.begin + b.size) x
  rw [hb.rest]
  split_ifs with hr
  · obtain rfl : n = b.size := by omega
    simp
  · simp only [cover_cons, cover_nil, span, stop, add_zero, ← hs]
    rw [show b.begin + n + (b.size - n) = b.begin + b.size by omega, add_comm]

theorem mem_rest (hb : b.Fits) (h : d ∈ b.rest n) :
    n < b.size ∧ d.begin = b.begin + n ∧ d.stop = b.stop := by
  rw [hb.rest] at h
  split_ifs at h
  · simp at h
  · simp only [List.mem_singleton] at h
    subst h
    simp only [stop, true_and]
    omega

theorem Fits.join (hb : b.Fits) (hc : c.Fits) (h : b.getEnd = c.begin) :
    b.join c = ⟨b.begin, b.size + c.size⟩ := by
  rw [hb.getEnd] at h
  rw [Block.join, Nat.mod_eq_of_lt]
  simp only [Fits, stop] at *
  omega

theorem stop_join (hb : b.Fits) (hc : c.Fits) (h : b.getEnd = c.begin) :
    (b.join c).stop = c.stop := by
  rw [hb.join hc h]
  rw [hb.getEnd] at h
  simp only [stop] at *
  omega

theorem Fits.mergeNext (hb : b.Fits) (h : ∀ c ∈ bs, c.Fits) : ∀ c ∈ b.mergeNext bs, c.Fits := by
  cases bs with
  | nil => simpa [Block.mergeNext] using hb
  | cons c bs =>
    obtain ⟨hc, hbs⟩ := List.forall_mem_cons.mp h
    rw [Block.mergeNext]
    split_ifs with ht
    · refine List.forall_mem_cons.mpr ⟨?_, hbs⟩
      rwa [Fits, stop_join hb hc ht]
    · exact List.forall_mem_cons.mpr ⟨hb, h⟩

theorem cover_mergeNext (hb : b.Fits) (h : ∀ c ∈ bs, c.Fits) :
    cover span (b.mergeNext bs) x = cover span (b :: bs) x := by
  cases bs with
  | nil => rfl
  | cons c bs =>
    simp only [mergeNext]
    split_ifs with ht
    · have hj := stop_join hb (h c (by simp)) ht
      have hs := indicator_Ico_add_indicator_Ico b.begin_le_stop
        (hb.getEnd ▸ ht ▸ c.begin_le_stop) x
      simp only [cover_cons, span, hj, ← add_assoc]
      rw [show (b.join c).begin = b.begin from rfl, ← hs, ← hb.getEnd, ht]
    · rfl

def Separated (bs : List Block) : Prop :=
  bs.Pairwise fun b c => b.stop < c.begin

theorem Separated.sorted (h : Separated bs) : bs.Pairwise (·.begin < ·.begin) :=
  h.imp fun h => lt_of_le_of_lt (begin_le_stop _) h

theorem Separated.not_touching (h : Separated bs) (hf : ∀ b ∈ bs, b.Fits) :
    bs.IsChain (·.getEnd ≠ ·.begin) :=
  (h.imp_of_mem fun hb _ h => ((hf _ hb).getEnd.trans_lt h).ne).isChain

theorem Separated.mergeNext (h : Separated bs) (hb : b.Fits) (hf : ∀ c ∈ bs, c.Fits)
    (hle : ∀ c ∈ bs, b.stop ≤ c.begin) : Separated (b.mergeNext bs) := by
  cases bs with
  | nil => exact List.pairwise_singleton ..
  | cons c bs =>
    have ⟨hc, hs⟩ := List.pairwise_cons.mp h
    simp only [Block.mergeNext]
    split_ifs with ht
    · exact List.pairwise_cons.mpr ⟨by simpa [stop_join hb (hf c (by simp)) ht] using hc, hs⟩
    · have hlt := lt_of_le_of_ne (hle c (by simp)) (hb.getEnd ▸ ht)
      refine List.pairwise_cons.mpr ⟨?_, h⟩
      simp only [List.mem_cons, forall_eq_or_imp]
      exact ⟨hlt, fun d hd => hlt.trans_le <| c.begin_le_stop.trans (hc d hd).le⟩

theorem begin_le_of_mem_mergeNext (hb : ∀ c ∈ bs, b.stop ≤ c.begin) (hd : d ∈ b.mergeNext bs) :
    b.begin ≤ d.begin := by
  have hle : ∀ c ∈ bs, b.begin ≤ c.begin := fun c hc => b.begin_le_stop.trans (hb c hc)
  cases bs with
  | nil => simp_all [mergeNext]
  | cons c bs =>
    simp only [mergeNext] at hd
    split_ifs at hd <;> simp only [List.mem_cons] at hd <;> rcases hd with rfl | hd
    · exact le_rfl
    · exact hle d (List.mem_cons_of_mem _ hd)
    · exact le_rfl
    · exact hle d (List.mem_cons.mpr hd)

theorem Separated.rest (h : Separated (l₁ ++ b :: l₂)) (hb : b.Fits) :
    Separated (l₁ ++ b.rest n ++ l₂) := by
  have ⟨h₁, hs, h₁b⟩ := List.pairwise_append.mp h
  have ⟨hb₂, h₂⟩ := List.pairwise_cons.mp hs
  rw [List.append_assoc]
  refine List.pairwise_append.mpr ⟨h₁, List.pairwise_append.mpr ⟨?_, h₂, ?_⟩, ?_⟩
  · simp only [Block.rest]
    split_ifs <;> simp
  · intro d hd c hc
    exact (mem_rest hb hd).2.2 ▸ hb₂ c hc
  · intro c hc d hd
    cases List.mem_append.mp hd with
    | inl hd => exact (h₁b c hc b (by simp)).trans_le ((mem_rest hb hd).2.1 ▸ Nat.le_add_right ..)
    | inr hd => exact h₁b c hc d (by simp [hd])

theorem mem_of_mem_mergeNext (hb : b.Fits) (hf : ∀ c ∈ bs, c.Fits) (hd : d ∈ b.mergeNext bs)
    (he : d.size = 0) : d = b ∨ d ∈ bs := by
  cases bs with
  | nil => simp_all [mergeNext]
  | cons c bs =>
    simp only [mergeNext] at hd
    split_ifs at hd with ht <;> simp only [List.mem_cons] at hd ⊢
    case neg => exact hd
    case pos =>
      rcases hd with rfl | hd
      · rw [hb.join (hf c (by simp)) ht] at he ⊢
        have hz : c.size = 0 := (Nat.add_eq_zero_iff.mp he).2
        simp [hz]
      · simp [hd]

section Merged

variable (h₁ : ∀ c ∈ l₁, c.Fits) (hb : b.Fits) (h₂ : ∀ c ∈ l₂, c.Fits)
include h₁ hb h₂

theorem cover_merged :
    cover span (merged l₁ b l₂) x = cover span (b :: (l₁ ++ l₂)) x := by
  rcases List.eq_nil_or_concat l₁ with rfl | ⟨l, q, rfl⟩
  · exact cover_mergeNext hb h₂
  · have hq : q.Fits := h₁ q (by simp)
    simp only [List.concat_eq_append, merged_concat, cover_append, cover_cons,
      cover_mergeNext hq (hb.mergeNext h₂), cover_mergeNext hb h₂, cover_nil]
    omega

theorem Separated.merged (h : Separated (l₁ ++ l₂)) (hle₁ : ∀ c ∈ l₁, c.stop ≤ b.begin)
    (hle₂ : ∀ c ∈ l₂, b.stop ≤ c.begin) : Separated (merged l₁ b l₂) := by
  have ⟨hs₁, hs₂, _⟩ := List.pairwise_append.mp h
  have hm := Separated.mergeNext hs₂ hb h₂ hle₂
  rcases List.eq_nil_or_concat l₁ with rfl | ⟨l, q, rfl⟩
  · exact hm
  · rw [List.concat_eq_append] at hs₁ hle₁ h₁
    rw [List.concat_eq_append, merged_concat]
    have ⟨hl, _, hlq⟩ := List.pairwise_append.mp hs₁
    have hq : ∀ c ∈ b.mergeNext l₂, q.stop ≤ c.begin := fun c hc =>
      (hle₁ q (by simp)).trans (begin_le_of_mem_mergeNext hle₂ hc)
    have hs := hm.mergeNext (h₁ q (by simp)) (hb.mergeNext h₂) hq
    refine List.pairwise_append.mpr ⟨hl, hs, fun c hc d hd => ?_⟩
    exact (hlq c hc q (by simp)).trans_le (begin_le_of_mem_mergeNext hq hd)

theorem mem_of_mem_merged (hpos : 0 < b.size) (hc : c ∈ merged l₁ b l₂) (he : c.size = 0) :
    c ∈ l₁ ++ l₂ := by
  have hz : ∀ c ∈ b.mergeNext l₂, c.size = 0 → c ∈ l₂ := by
    intro c hc he
    refine (mem_of_mem_mergeNext hb h₂ hc he).resolve_left ?_
    rintro rfl
    exact hpos.ne' he
  rcases List.eq_nil_or_concat l₁ with rfl | ⟨l, q, rfl⟩
  · exact hz c hc he
  · rw [List.concat_eq_append] at h₁
    rw [List.concat_eq_append, merged_concat, List.mem_append] at hc
    rcases hc with hc | hc
    · simp [hc]
    · rcases mem_of_mem_mergeNext (h₁ q (by simp)) (hb.mergeNext h₂) hc he with rfl | hc
      · simp
      · simp [hz c hc he]

end Merged

end Block

namespace Allocator

variable {a : Allocator} {l₁ l₂ : List Block} {b c p : Block}

theorem block_append (h : a.freeBlocks = l₁ ++ b :: l₂) : a.block l₁.length = b := by
  simp [block, h]

theorem splitBlock_append (h : a.freeBlocks = l₁ ++ b :: l₂) :
    a.splitBlock l₁.length n = { a with freeBlocks := l₁ ++ b.rest n ++ l₂ } := by
  simp only [splitBlock, block_append h, h, List.eraseIdx_length_append,
    List.insertIdx_length_append, Block.empty, Block.rest, beq_iff_eq]
  split_ifs <;> simp

theorem merge2Blocks_append (h : a.freeBlocks = l₁ ++ b :: c :: l₂) :
    a.merge2Blocks l₁.length (l₁.length + 1) =
      ({ a with freeBlocks := l₁ ++ b.join c :: l₂ }, l₁.length) := by
  have hc : a.freeBlocks = (l₁ ++ [b]) ++ c :: l₂ := by simp [h]
  have hl : l₁.length + 1 = (l₁ ++ [b]).length := by simp
  simp only [merge2Blocks, hl, block_append hc, splitBlock_append hc, extendBlock, Block.rest]
  simp [List.modify_length_append, Block.join]

theorem touch_append (h : a.freeBlocks = l₁ ++ b :: c :: l₂) :
    a.touch l₁.length (l₁.length + 1) = decide (b.getEnd = c.begin) := by
  simp only [touch, h, List.getElem?_append_right, le_refl, Nat.le_add_right, Nat.sub_self,
    Nat.add_sub_cancel_left, List.getElem?_cons_zero, List.getElem?_cons_succ]
  rfl

theorem touch_last (h : a.freeBlocks = l₁ ++ [b]) : a.touch l₁.length (l₁.length + 1) = false := by
  simp [touch, h]

theorem merge_next (h : a.freeBlocks = l₁ ++ b :: l₂) :
    (if a.touch l₁.length (l₁.length + 1) then a.merge2Blocks l₁.length (l₁.length + 1)
    else (a, l₁.length)) = ({ a with freeBlocks := l₁ ++ b.mergeNext l₂ }, l₁.length) := by
  cases l₂ with
  | nil => rw [touch_last h, Block.mergeNext, ← h]; rfl
  | cons c l₂ =>
    rw [touch_append h, merge2Blocks_append h, Block.mergeNext]
    by_cases hb : b.getEnd = c.begin <;> simp [hb, ← h]

theorem mergeBlocks_first (h : a.freeBlocks = b :: l₂) :
    a.mergeBlocks 0 = { a with freeBlocks := b.mergeNext l₂ } := by
  have hm := congrArg Prod.fst <| merge_next (show a.freeBlocks = [] ++ b :: l₂ from h)
  simp only [apply_ite Prod.fst, List.length_nil, zero_add, List.nil_append] at hm
  cases l₂ with
  | nil => simp [mergeBlocks, Block.mergeNext, h]; rw [← h]
  | cons c l₂ => simpa [mergeBlocks, h] using hm

-- A block that is not the first one is merged with its successor, and then its predecessor is
-- merged with what that gives.
theorem mergeBlocks_append (h : a.freeBlocks = l₁ ++ p :: b :: l₂) :
    a.mergeBlocks (l₁.length + 1) =
      { a with freeBlocks := l₁ ++ p.mergeNext (b.mergeNext l₂) } := by
  have hl : a.freeBlocks.length = l₁.length + 2 + l₂.length := by simp [h]; omega
  have hb : a.freeBlocks = (l₁ ++ [p]) ++ b :: l₂ := by simp [h]
  have hn := merge_next hb
  have hp : ({ a with freeBlocks := (l₁ ++ [p]) ++ b.mergeNext l₂ } : Allocator).freeBlocks =
    l₁ ++ p :: b.mergeNext l₂ := by simp
  have hm := congrArg Prod.fst <| merge_next hp
  simp only [List.length_append, List.length_singleton] at hn
  simp only [apply_ite Prod.fst] at hm
  simp only [mergeBlocks, hl, hn, Nat.add_sub_cancel, hm]
  rw [if_neg (by omega), if_neg (by omega), if_neg (by omega)]

theorem mergeBlocks_eq (h : a.freeBlocks = l₁ ++ b :: l₂) :
    a.mergeBlocks l₁.length = { a with freeBlocks := Block.merged l₁ b l₂ } := by
  rcases List.eq_nil_or_concat l₁ with rfl | ⟨l, q, rfl⟩
  · exact mergeBlocks_first h
  · rw [List.concat_eq_append, Block.merged_concat, List.length_append, List.length_singleton]
    exact mergeBlocks_append (by simpa using h)

end Allocator
