import Mathlib

-- A finite map whose entries are kept in strictly ascending key order. Iterating over `entries`
-- visits the keys in order, so this is the ordered map of the C++ standard library; with `Unit`
-- as the type of values it is the ordered set.
@[ext]
structure SortedMap (κ : Type u) (ν : Type v) [LinearOrder κ] where
  entries : List (κ × ν)
  sorted  : entries.Pairwise (·.1 < ·.1)

abbrev SortedSet (κ : Type u) [LinearOrder κ] := SortedMap κ Unit

namespace SortedMap

variable {κ : Type u} {ν : Type v} [LinearOrder κ]

section Entries

def lookup (k : κ) : List (κ × ν) → Option ν
  | []            => none
  | (k', v) :: es => if k = k' then some v else lookup k es

def place (k : κ) (v : ν) : List (κ × ν) → List (κ × ν)
  | [] => [(k, v)]
  | (k', v') :: es =>
    if k < k' then (k, v) :: (k', v') :: es
    else if k = k' then (k, v) :: es
    else (k', v') :: place k v es

theorem lookup_eq_none {es : List (κ × ν)} : lookup k es = none ↔ ∀ e ∈ es, e.1 ≠ k := by
  induction es with
  | nil => simp [lookup]
  | cons e es hi =>
    by_cases h : k = e.1
    case pos => simp [lookup, h]
    case neg => simpa [lookup, h, hi] using fun _ => Ne.symm h

theorem lookup_mem {es : List (κ × ν)} (h : lookup k es = some v) : (k, v) ∈ es := by
  induction es with
  | nil => simp [lookup] at h
  | cons e es hi =>
    by_cases he : k = e.1 <;> simp [lookup, he] at h
    case pos => simp [← h, he]
    case neg => exact List.mem_cons_of_mem _ (hi h)

theorem mem_lookup {es : List (κ × ν)} (hs : es.Pairwise (·.1 < ·.1)) (h : (k, v) ∈ es) :
    lookup k es = some v := by
  induction es with
  | nil => simp at h
  | cons e es hi =>
    have ⟨hlt, hs⟩ := List.pairwise_cons.mp hs
    cases List.mem_cons.mp h
    case inl h => simp [lookup, ← h]
    case inr h => simp [lookup, (hlt _ h).ne', hi hs h]

theorem lookup_place {es : List (κ × ν)} :
    lookup k' (place k v es) = if k' = k then some v else lookup k' es := by
  induction es with
  | nil => simp [place, lookup]
  | cons e es hi =>
    simp only [place]
    split_ifs with h₁ h₂ h₃ h₃ <;> simp_all [lookup]

theorem mem_place {es : List (κ × ν)} (h : e ∈ place k v es) : e = (k, v) ∨ e ∈ es := by
  induction es with
  | nil => simpa [place] using h
  | cons e' es hi =>
    simp only [place] at h
    split_ifs at h <;> grind

theorem place_sorted {es : List (κ × ν)} (hs : es.Pairwise (·.1 < ·.1)) :
    (place k v es).Pairwise (·.1 < ·.1) := by
  induction es with
  | nil => simp [place]
  | cons e es hi =>
    have ⟨hlt, hs'⟩ := List.pairwise_cons.mp hs
    simp only [place]
    split_ifs with h₁ h₂
    · exact List.pairwise_cons.mpr ⟨by simpa [h₁] using fun a b h => h₁.trans (hlt _ h), hs⟩
    · subst h₂; exact List.pairwise_cons.mpr ⟨hlt, hs'⟩
    · refine List.pairwise_cons.mpr ⟨fun a ha => ?_, hi hs'⟩
      cases mem_place ha
      case inl ha => exact ha ▸ lt_of_le_of_ne (not_lt.mp h₁) (Ne.symm h₂)
      case inr ha => exact hlt _ ha

theorem place_perm {es : List (κ × ν)} (h : lookup k es = none) :
    (place k v es).Perm ((k, v) :: es) := by
  induction es with
  | nil => simp [place]
  | cons e es hi =>
    by_cases he : k = e.1 <;> simp [lookup, he] at h
    simp only [place]
    split_ifs
    · rfl
    · exact (List.Perm.cons _ (hi h)).trans (List.Perm.swap ..)

theorem place_last {es : List (κ × ν)} (h : ∀ e ∈ es, e.1 < k) : place k v es = es ++ [(k, v)] := by
  induction es with
  | nil => simp [place]
  | cons e es hi =>
    have hk := h e (by simp)
    simp [place, hk.not_gt, hk.ne', hi fun _ hm => h _ (List.mem_cons_of_mem _ hm)]

end Entries

instance [DecidableEq ν] : DecidableEq (SortedMap κ ν) := fun _ _ =>
  decidable_of_iff _ SortedMap.ext_iff.symm

def empty : SortedMap κ ν where
  entries := []
  sorted  := .nil

instance : EmptyCollection (SortedMap κ ν) := ⟨empty⟩

instance : Inhabited (SortedMap κ ν) := ⟨∅⟩

def find? (m : SortedMap κ ν) (k : κ) : Option ν :=
  lookup k m.entries

def set (m : SortedMap κ ν) (k : κ) (v : ν) : SortedMap κ ν where
  entries := place k v m.entries
  sorted  := place_sorted m.sorted

-- `m.insert({k, v})`: a key that is present keeps its value.
def insert (m : SortedMap κ ν) (k : κ) (v : ν) : SortedMap κ ν :=
  if (m.find? k).isSome then m else m.set k v

def erase (m : SortedMap κ ν) (k : κ) : SortedMap κ ν where
  entries := m.entries.filter (·.1 ≠ k)
  sorted  := m.sorted.filter _

def eraseMin (m : SortedMap κ ν) : SortedMap κ ν where
  entries := m.entries.tail
  sorted  := m.sorted.sublist (List.tail_sublist _)

def keys (m : SortedMap κ ν) : List κ :=
  m.entries.map (·.1)

def values (m : SortedMap κ ν) : List ν :=
  m.entries.map (·.2)

variable {m m₁ m₂ : SortedMap κ ν} {k k' : κ} {v : ν}

@[simp]
theorem entries_empty : (∅ : SortedMap κ ν).entries = [] :=
  rfl

@[simp]
theorem find?_empty : (∅ : SortedMap κ ν).find? k = none :=
  rfl

theorem mem_entries : (k, v) ∈ m.entries ↔ m.find? k = some v where
  mp  := mem_lookup m.sorted
  mpr := lookup_mem

theorem find?_eq_none : m.find? k = none ↔ ∀ e ∈ m.entries, e.1 ≠ k :=
  lookup_eq_none

theorem mem_keys : k ∈ m.keys ↔ (m.find? k).isSome := by
  simp [keys, Option.isSome_iff_exists, mem_entries]

theorem mem_values : v ∈ m.values ↔ ∃ k, m.find? k = some v := by
  simp [values, mem_entries]

theorem keys_sorted (m : SortedMap κ ν) : m.keys.Pairwise (· < ·) :=
  List.pairwise_map.mpr m.sorted

theorem entries_nodup (m : SortedMap κ ν) : m.entries.Nodup :=
  m.sorted.imp fun h he => (he ▸ h).false

theorem ext_find? (h : ∀ k, m₁.find? k = m₂.find? k) : m₁ = m₂ := by
  apply SortedMap.ext
  apply List.Perm.eq_of_pairwise (fun _ _ _ _ h₁ h₂ => absurd h₁ h₂.not_gt) m₁.sorted m₂.sorted
  apply (List.perm_ext_iff_of_nodup m₁.entries_nodup m₂.entries_nodup).mpr
  intro ⟨k, v⟩
  simp [mem_entries, h]

@[simp]
theorem find?_set : (m.set k v).find? k' = if k' = k then some v else m.find? k' :=
  lookup_place

theorem find?_insert :
    (m.insert k v).find? k' = if k' = k ∧ m.find? k = none then some v else m.find? k' := by
  cases h : m.find? k <;> simp [insert, h]

@[simp]
theorem find?_erase : (m.erase k).find? k' = if k' = k then none else m.find? k' := by
  split_ifs with h
  · simp [find?_eq_none, erase, h]
  · cases hf : m.find? k' with
    | none   => exact find?_eq_none.mpr fun e he => find?_eq_none.mp hf e (List.mem_filter.mp he).1
    | some v => exact mem_entries.mp <| List.mem_filter.mpr ⟨mem_entries.mpr hf, by simpa using h⟩

theorem mem_keys_set : k' ∈ (m.set k v).keys ↔ k' = k ∨ k' ∈ m.keys := by
  rw [mem_keys, mem_keys, find?_set]
  by_cases h : k' = k <;> simp [h]

theorem mem_keys_insert : k' ∈ (m.insert k v).keys ↔ k' = k ∨ k' ∈ m.keys := by
  rw [mem_keys, mem_keys, find?_insert]
  by_cases h : k' = k <;> cases hf : m.find? k <;> simp [h, hf]

theorem mem_keys_erase : k' ∈ (m.erase k).keys ↔ k' ≠ k ∧ k' ∈ m.keys := by
  rw [mem_keys, mem_keys, find?_erase]
  by_cases h : k' = k <;> simp [h]

theorem mem_keys_foldl_erase {ks : List κ} :
    k ∈ (ks.foldl (·.erase) m).keys ↔ k ∉ ks ∧ k ∈ m.keys := by
  induction ks generalizing m with
  | nil          => simp
  | cons k' ks ih =>
    rw [List.foldl_cons, ih, mem_keys_erase, List.mem_cons, not_or]
    tauto

theorem keys_foldl_erase_sublist {ks : List κ} :
    (ks.foldl (·.erase) m).keys.Sublist m.keys := by
  induction ks generalizing m with
  | nil          => exact .refl _
  | cons k ks ih => exact ih.trans (List.filter_sublist.map _)

theorem keys_nodup (m : SortedMap κ ν) : m.keys.Nodup :=
  m.keys_sorted.imp fun h => h.ne

theorem entries_set_perm (h : m.find? k = none) : (m.set k v).entries.Perm ((k, v) :: m.entries) :=
  place_perm h

theorem entries_set_last (h : ∀ e ∈ m.entries, e.1 < k) :
    (m.set k v).entries = m.entries ++ [(k, v)] :=
  place_last h

theorem insert_of_find?_eq_none (h : m.find? k = none) : m.insert k v = m.set k v := by
  simp [insert, h]

theorem set_erase_self (h : m.find? k = some v) : (m.erase k).set k v = m := by
  apply ext_find?
  intro k'
  by_cases hk : k' = k <;> simp [hk, h]

theorem entries_erase_perm (h : m.find? k = some v) :
    m.entries.Perm ((k, v) :: (m.erase k).entries) := by
  have := entries_set_perm (m := m.erase k) (k := k) (v := v) (by simp)
  rwa [set_erase_self h] at this

theorem values_set_perm (h : m.find? k = none) : (m.set k v).values.Perm (v :: m.values) :=
  (entries_set_perm h).map _

theorem values_erase_perm (h : m.find? k = some v) : m.values.Perm (v :: (m.erase k).values) :=
  (entries_erase_perm h).map _

section Rel

variable {ν' : Type w} {R : κ → ν → ν' → Prop}

def RelEntries (R : κ → ν → ν' → Prop) : List (κ × ν) → List (κ × ν') → Prop :=
  List.Forall₂ fun e e' => e.1 = e'.1 ∧ R e.1 e.2 e'.2

theorem RelEntries.lookup {es : List (κ × ν)} {es' : List (κ × ν')} (h : RelEntries R es es')
    (k : κ) : (lookup k es).isSome = (SortedMap.lookup k es').isSome := by
  induction h with
  | nil => rfl
  | cons he _ ih =>
    simp only [SortedMap.lookup, he.1]
    split_ifs
    · rfl
    · exact ih

theorem RelEntries.place {es : List (κ × ν)} {es' : List (κ × ν')} {v : ν} {v' : ν'}
    (h : RelEntries R es es') (hv : R k v v') : RelEntries R (place k v es) (place k v' es') := by
  induction h with
  | nil => exact .cons ⟨rfl, hv⟩ .nil
  | @cons e e' _ _ he ht ih =>
    obtain ⟨k₁, v₁⟩ := e
    obtain ⟨rfl, hr⟩ : k₁ = e'.1 ∧ R k₁ v₁ e'.2 := he
    simp only [SortedMap.place]
    split_ifs
    · exact .cons ⟨rfl, hv⟩ (.cons ⟨rfl, hr⟩ ht)
    · exact .cons ⟨rfl, hv⟩ ht
    · exact .cons ⟨rfl, hr⟩ ih

omit [LinearOrder κ] in
theorem RelEntries.tail {es : List (κ × ν)} {es' : List (κ × ν')} (h : RelEntries R es es') :
    RelEntries R es.tail es'.tail := by
  cases h with
  | nil       => exact .nil
  | cons _ ht => exact ht

variable {m' : SortedMap κ ν'} {v' : ν'}

def Rel (R : κ → ν → ν' → Prop) (m : SortedMap κ ν) (m' : SortedMap κ ν') : Prop :=
  RelEntries R m.entries m'.entries

theorem Rel.empty : Rel R (∅ : SortedMap κ ν) (∅ : SortedMap κ ν') :=
  .nil

theorem Rel.isSome_find? (h : Rel R m m') (k : κ) : (m.find? k).isSome = (m'.find? k).isSome :=
  h.lookup k

theorem Rel.set (h : Rel R m m') (hv : R k v v') : Rel R (m.set k v) (m'.set k v') :=
  h.place hv

theorem Rel.eraseMin (h : Rel R m m') : Rel R m.eraseMin m'.eraseMin :=
  RelEntries.tail h

end Rel

end SortedMap
