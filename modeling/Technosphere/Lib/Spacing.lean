import Technosphere.Lib.Munch
import Technosphere.Lib.Words

namespace Munch

variable {α : Type u} [DecidableEq α]

-- The tokens of the text `cs`, in which the characters `sep` belong to none, and in front of which
-- the characters `w` of an argument have been read.
def lex (ops : List (List α)) (sep : α → Bool) (w : List α) : List α → List (Token α)
  | []      => argument w
  | c :: cs =>
    if sep c then argument w ++ lex ops sep [] cs
    else
      match longest ops (c :: cs) with
      | some o => argument w ++ .op o :: lex ops sep [] (cs.drop (o.length - 1))
      | none   => lex ops sep (w ++ [c]) cs
termination_by cs => cs.length

structure Operators (ops : List (List α)) (sep : α → Bool) : Prop where
  nonempty : [] ∉ ops
  solid    : ∀ o ∈ ops, ∀ c ∈ o, sep c = false

variable {ops : List (List α)} {sep : α → Bool} {cs ds u v w o : List α} {t : Token α}
  {ts ts₁ ts₂ : List (Token α)} {c : α}

theorem longest_self (h : o ∈ ops) : longest ops o = some o :=
  longest_eq_some.mpr ⟨h, List.prefix_rfl, fun _ _ hp => hp.length_le⟩

theorem longest_of_append (h : longest ops (cs ++ ds) = some o) (hp : o <+: cs) :
    longest ops cs = some o := by
  obtain ⟨hm, _, hle⟩ := longest_eq_some.mp h
  exact longest_eq_some.mpr ⟨hm, hp, fun o' ho hp' => hle o' ho (hp'.trans (List.prefix_append ..))⟩

theorem longest_none_of_append (h : longest ops (cs ++ ds) = none) : longest ops cs = none :=
  longest_eq_none.mpr fun o ho hp =>
    longest_eq_none.mp h o ho (hp.trans (List.prefix_append ..))

theorem tokens_self (h : o ∈ ops) (hn : o ≠ []) : tokens ops [] o = [.op o] := by
  obtain ⟨c, o, rfl⟩ := List.exists_cons_of_ne_nil hn
  rw [tokens, longest_self h]
  simp [argument, tokens]

theorem tokens_of_notMem (hn : [] ∉ ops) (h : ∀ c ∈ cs, ∀ o ∈ ops, c ∉ o) :
    tokens ops w cs = argument (w ++ cs) := by
  induction cs generalizing w with
  | nil          => rw [tokens, List.append_nil]
  | cons c cs ih =>
    have hl : longest ops (c :: cs) = none := by
      refine longest_eq_none.mpr fun o ho hp => ?_
      obtain ⟨x, o', rfl⟩ := List.exists_cons_of_ne_nil fun hnil => hn (hnil ▸ ho)
      obtain ⟨rfl, _⟩ := List.cons_prefix_cons.mp hp
      exact h x List.mem_cons_self _ ho List.mem_cons_self
    rw [tokens, hl]
    simp only
    rw [ih fun c hc => h c (List.mem_cons_of_mem _ hc), List.append_assoc, List.singleton_append]

theorem lex_cons_sep (h : sep c = true) :
    lex ops sep w (c :: cs) = argument w ++ lex ops sep [] cs := by
  rw [lex, if_pos h]

theorem lex_solid (h : ∀ c ∈ cs, sep c = false) : lex ops sep w cs = tokens ops w cs := by
  fun_induction tokens ops w cs with
  | case1 w              => rw [lex]
  | case2 w c cs o ho ih =>
    obtain ⟨hc, hcs⟩ := List.forall_mem_cons.mp h
    rw [lex, if_neg (by simp [hc]), ho]
    simp only
    rw [ih fun x hx => hcs x (List.mem_of_mem_drop hx)]
  | case3 w c cs ho ih =>
    obtain ⟨hc, hcs⟩ := List.forall_mem_cons.mp h
    rw [lex, if_neg (by simp [hc]), ho]
    exact ih hcs

theorem lex_dropWhile : lex ops sep [] (cs.dropWhile sep) = lex ops sep [] cs := by
  induction cs with
  | nil          => rfl
  | cons c cs ih =>
    by_cases h : sep c = true
    case pos => rw [List.dropWhile_cons_of_pos h, ih, lex_cons_sep h, argument, List.nil_append]
    case neg => rw [List.dropWhile_cons_of_neg h]

theorem lex_append_of_sep (h : ∀ c ∈ cs, sep c = true) :
    lex ops sep [] (cs ++ ds) = lex ops sep [] ds := by
  rw [← lex_dropWhile, List.dropWhile_append_of_pos h, lex_dropWhile]

theorem lex_argument (w cs : List α) : lex ops sep w cs = argument w ++ lex ops sep [] cs ∨
    ∃ c x ts, lex ops sep w cs = .arg (w ++ c :: x) :: ts := by
  induction cs generalizing w with
  | nil          => simp [lex, argument]
  | cons c cs ih =>
    by_cases hc : sep c = true
    case pos => simp [lex_cons_sep hc, argument]
    case neg =>
      cases ho : longest ops (c :: cs) with
      | some o =>
        left
        simp [lex, hc, ho, argument]
      | none   =>
        right
        have hl : lex ops sep w (c :: cs) = lex ops sep (w ++ [c]) cs := by
          rw [lex, if_neg hc, ho]
        rcases ih (w ++ [c]) with h | ⟨c', x, ts, h⟩
        · refine ⟨c, [], lex ops sep [] cs, ?_⟩
          rw [hl, h]
          cases w <;> simp [argument]
        · exact ⟨c, c' :: x, ts, by rw [hl, h, List.append_assoc, List.singleton_append]⟩

omit [DecidableEq α] in
theorem argument_append_split {x : List α} (h : argument w ++ ts = ts₁ ++ ts₂)
    (hw : ts₁.flatMap Token.word = w ++ x) :
    ∃ ts', ts₁ = argument w ++ ts' ∧ ts = ts' ++ ts₂ ∧ ts'.flatMap Token.word = x := by
  cases w with
  | nil      => exact ⟨ts₁, rfl, h, hw⟩
  | cons c w =>
    cases ts₁ with
    | nil         => simp at hw
    | cons t ts₁ =>
      obtain ⟨rfl, rfl⟩ := List.cons.inj h
      refine ⟨ts₁, rfl, rfl, ?_⟩
      rw [List.flatMap_cons, Token.word_arg] at hw
      exact List.append_cancel_left hw

namespace Operators

omit [DecidableEq α] in
theorem prefix_of_append_sep (hops : Operators ops sep) (h : sep c = true) (hm : o ∈ ops)
    (hp : o <+: cs ++ c :: ds) : o <+: cs := by
  rcases List.prefix_or_prefix_of_prefix hp (List.prefix_append cs _) with hp' | ⟨r, rfl⟩
  · exact hp'
  · cases r with
    | nil      => rw [List.append_nil]
    | cons x r =>
      obtain ⟨rfl, _⟩ := List.cons_prefix_cons.mp ((List.prefix_append_right_inj cs).mp hp)
      simp [hops.solid _ hm x (by simp)] at h

theorem longest_append_sep (hops : Operators ops sep) (h : sep c = true) :
    longest ops (cs ++ c :: ds) = longest ops cs := by
  cases hl : longest ops (cs ++ c :: ds) with
  | none   => exact (longest_none_of_append hl).symm
  | some o =>
    obtain ⟨hm, hp, _⟩ := longest_eq_some.mp hl
    exact (longest_of_append hl (hops.prefix_of_append_sep h hm hp)).symm

theorem cons_take (hops : Operators ops sep) (h : longest ops (c :: cs) = some o) :
    o = c :: cs.take (o.length - 1) ∧ o.length - 1 ≤ cs.length := by
  obtain ⟨hm, hp, _⟩ := longest_eq_some.mp h
  obtain ⟨x, o, rfl⟩ := List.exists_cons_of_ne_nil fun hnil => hops.nonempty (hnil ▸ hm)
  obtain ⟨rfl, hp'⟩ := List.cons_prefix_cons.mp hp
  exact ⟨congrArg _ (List.prefix_iff_eq_take.mp hp'), hp'.length_le⟩

theorem lex_append_sep (hops : Operators ops sep) (h : sep c = true) :
    lex ops sep w (cs ++ c :: ds) = lex ops sep w cs ++ lex ops sep [] ds := by
  fun_induction lex ops sep w cs with
  | case1 w                 => exact lex_cons_sep h
  | case2 w x cs hx ih      => rw [List.cons_append, lex_cons_sep hx, ih, List.append_assoc]
  | case3 w x cs hx o ho ih =>
    have hle := (hops.cons_take ho).2
    rw [List.cons_append, lex, if_neg hx, ← List.cons_append, hops.longest_append_sep h, ho]
    simp only
    rw [List.drop_append_of_le_length hle, ih, List.append_assoc, List.cons_append]
  | case4 w x cs hx ho ih   =>
    rw [List.cons_append, lex, if_neg hx, ← List.cons_append, hops.longest_append_sep h, ho]
    exact ih

theorem words_lex (hops : Operators ops sep) (cs : List α) :
    (Words.words sep cs).flatMap (tokens ops []) = lex ops sep [] cs := by
  induction hn : cs.length using Nat.strong_induction_on generalizing cs with
  | h n ih =>
    rw [← lex_dropWhile]
    by_cases he : cs.dropWhile sep = []
    case pos => simp [Words.words_of_nil he, he, lex, argument]
    case neg =>
      have hlt := Words.length_lt_of_ne_nil he
      rw [Words.words_of_ne_nil he]
      generalize cs.dropWhile sep = ds at hlt ⊢
      have hs : ∀ c ∈ ds.takeWhile (!sep ·), sep c = false := fun c hc => by
        simpa using List.mem_takeWhile_imp hc
      have hr : ∀ c ∈ (ds.dropWhile (!sep ·)).head?, (!sep c) = false := Words.head?_dropWhile
      have hds : ds.takeWhile (!sep ·) ++ ds.dropWhile (!sep ·) = ds :=
        List.takeWhile_append_dropWhile
      rw [List.flatMap_cons, ← lex_solid hs]
      cases hd : ds.dropWhile (!sep ·) with
      | nil       =>
        rw [hd, List.append_nil] at hds
        rw [hds, Words.words_of_nil rfl, List.flatMap_nil, List.append_nil]
      | cons c es =>
        rw [hd] at hr hds hlt
        have hc : sep c = true := by simpa using hr c rfl
        rw [Words.words_cons_of_sep hc, ih _ (by simp at hlt; omega) es rfl,
          ← hops.lex_append_sep hc, hds]

theorem lex_intercalate (hops : Operators ops sep) (h : sep c = true)
    (hts : ∀ t ∈ ts, lex ops sep [] t.word = [t]) :
    lex ops sep [] ([c].intercalate (ts.map Token.word)) = ts := by
  induction ts with
  | nil           => simp [lex, argument]
  | cons t ts ih =>
    obtain ⟨ht, hts⟩ := List.forall_mem_cons.mp hts
    cases ts with
    | nil        => simpa using ht
    | cons t' ts =>
      rw [List.map_cons, List.map_cons, List.intercalate_cons_cons, List.append_assoc,
        List.singleton_append, hops.lex_append_sep h, ht, ← List.map_cons, ih hts,
        List.singleton_append]

theorem lex_ne_nil (hops : Operators ops sep) (ht : t ∈ lex ops sep w cs) : t.word ≠ [] := by
  have harg {w : List α} (ht : t ∈ argument w) : t.word ≠ [] := by
    obtain ⟨hw, rfl⟩ := mem_argument.mp ht
    exact hw
  fun_induction lex ops sep w cs with
  | case1 w                 => exact harg ht
  | case2 w x cs hx ih      => exact (List.mem_append.mp ht).elim harg ih
  | case3 w x cs hx o ho ih =>
    rcases List.mem_append.mp ht with ht | ht
    · exact harg ht
    · rcases List.mem_cons.mp ht with rfl | ht
      · exact fun hn => hops.nonempty (hn ▸ (longest_eq_some.mp ho).1)
      · exact ih ht
  | case4 w x cs hx ho ih   => exact ih ht

theorem longest_append (hops : Operators ops sep)
    (h : lex ops sep w (c :: u ++ v) = ts₁ ++ ts₂) (hc : sep c ≠ true)
    (hw : ts₁.flatMap Token.word = w ++ c :: u.filter (!sep ·)) :
    longest ops (c :: u ++ v) = longest ops (c :: u) := by
  cases hl : longest ops (c :: u ++ v) with
  | none   => exact (longest_none_of_append hl).symm
  | some o =>
    refine (longest_of_append hl ?_).symm
    obtain ⟨hm, hp, _⟩ := longest_eq_some.mp hl
    rw [List.cons_append, lex, if_neg hc, ← List.cons_append, hl] at h
    obtain ⟨ts, rfl, ht, hw⟩ := argument_append_split h hw
    cases ts with
    | nil       => simp at hw
    | cons t ts =>
      obtain ⟨rfl, _⟩ := List.cons.inj ht
      have hf : o <+: c :: u.filter (!sep ·) := ⟨_, hw⟩
      rcases List.prefix_or_prefix_of_prefix hp (List.prefix_append (c :: u) v) with hp | hp
      · exact hp
      · have hs : u.filter (!sep ·) = u := List.filter_eq_self.mpr fun x hx => by
          simpa using hops.solid o hm x (hp.subset (List.mem_cons_of_mem _ hx))
        rwa [hs] at hf

-- The tokens `ts₁` are those of the word that has been read, or nothing has been read.
theorem lex_boundary_nil (h : lex ops sep w v = ts₁ ++ ts₂) (hw : ts₁.flatMap Token.word = w)
    (hne : ∀ t ∈ ts₁, t.word ≠ []) : argument w = ts₁ ∧ lex ops sep [] v = ts₂ := by
  have hl : lex ops sep w v = argument w ++ lex ops sep [] v ∨ _ := lex_argument w v
  rcases hl with hl | ⟨c, x, ts, hl⟩
  · rw [hl] at h
    obtain ⟨ts, rfl, ht, hw⟩ := argument_append_split h (hw.trans (List.append_nil w).symm)
    cases ts with
    | nil       => exact ⟨(List.append_nil _).symm, ht⟩
    | cons t ts =>
      have := hne t (by simp)
      simp_all
  · cases ts₁ with
    | nil       =>
      obtain rfl : w = [] := hw.symm
      exact ⟨rfl, h⟩
    | cons t ts =>
      obtain ⟨rfl, _⟩ := List.cons.inj (hl.symm.trans h)
      have := congrArg List.length hw
      simp at this

theorem filter_cons_longest (hops : Operators ops sep) (h : longest ops (c :: cs) = some o) :
    c :: cs.filter (!sep ·) = o ++ (cs.drop (o.length - 1)).filter (!sep ·) := by
  have ht := (hops.cons_take h).1
  have hs : (cs.take (o.length - 1)).filter (!sep ·) = cs.take (o.length - 1) :=
    List.filter_eq_self.mpr fun x hx => by
      simpa using hops.solid o (longest_eq_some.mp h).1 x (ht ▸ List.mem_cons_of_mem _ hx)
  calc c :: cs.filter (!sep ·)
    _ = c :: (cs.take (o.length - 1) ++ cs.drop (o.length - 1)).filter (!sep ·) := by
      rw [List.take_append_drop]
    _ = (c :: cs.take (o.length - 1)) ++ (cs.drop (o.length - 1)).filter (!sep ·) := by
      rw [List.filter_append, hs, List.cons_append]
    _ = o ++ (cs.drop (o.length - 1)).filter (!sep ·) := by
      rw [← ht]

-- When the text `u` has just the characters of the tokens `ts₁`, nothing of what follows belongs to
-- them.
theorem lex_boundary (hops : Operators ops sep) (h : lex ops sep w (u ++ v) = ts₁ ++ ts₂)
    (hw : ts₁.flatMap Token.word = w ++ u.filter (!sep ·)) :
    lex ops sep w u = ts₁ ∧ lex ops sep [] v = ts₂ := by
  have hne : ∀ t ∈ ts₁, t.word ≠ [] := fun t ht =>
    hops.lex_ne_nil (h ▸ List.mem_append_left _ ht)
  fun_induction lex ops sep w u generalizing ts₁ with
  | case1 w                 =>
    exact lex_boundary_nil h (by simpa using hw) hne
  | case2 w x cs hx ih      =>
    rw [List.cons_append, lex_cons_sep hx] at h
    rw [List.filter_cons_of_neg (by simp [hx])] at hw
    obtain ⟨ts, rfl, ht, hw⟩ := argument_append_split h hw
    obtain ⟨hu, hv⟩ := ih ht hw fun t ht => hne t (List.mem_append_right _ ht)
    exact ⟨by rw [hu], hv⟩
  | case3 w x cs hx o ho ih =>
    rw [List.filter_cons_of_pos (by simp [hx])] at hw
    have hl := (hops.longest_append h hx hw).trans ho
    have hle := (hops.cons_take ho).2
    rw [List.cons_append, lex, if_neg hx, ← List.cons_append, hl] at h
    obtain ⟨ts, rfl, ht, hw⟩ := argument_append_split h hw
    cases ts with
    | nil       => simp at hw
    | cons t ts =>
      obtain ⟨rfl, ht'⟩ := List.cons.inj ht
      rw [hops.filter_cons_longest ho] at hw
      rw [List.drop_append_of_le_length hle] at ht'
      obtain ⟨hu, hv⟩ := ih ht' (List.append_cancel_left hw) fun t ht => hne t (by simp [ht])
      exact ⟨by rw [hu], hv⟩
  | case4 w x cs hx ho ih   =>
    rw [List.filter_cons_of_pos (by simp [hx])] at hw
    have hl := (hops.longest_append h hx hw).trans ho
    rw [List.cons_append, lex, if_neg hx, ← List.cons_append, hl] at h
    exact ih h (by rw [hw, List.append_assoc, List.singleton_append]) hne

end Operators

end Munch
