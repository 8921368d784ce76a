import Technosphere.Lib.Spacing
import Technosphere.Shell.Theorems.Lexer

open Munch (Token tokens lex argument)

namespace LexemParser

variable {cs w : List Char} {input : String} {t : Token Char}

theorem operators_spacing : Munch.Operators operators isSpace where
  nonempty := nil_notMem_operators
  solid    := by simp [operators, isSpace]

theorem pieces_lex (cs : List Char) :
    (pieces cs).flatMap (tokens operators []) = lex operators isSpace [] cs :=
  operators_spacing.words_lex cs

theorem parse_eq_lex (input : String) :
    (parse { input }).get = (lex operators isSpace [] input.toList).map lexem := by
  rw [parse_eq, reference, ← pieces_lex, List.map_flatMap]

theorem lex_word (ht : t ∈ lex operators isSpace [] cs) :
    lex operators isSpace [] t.word = [t] := by
  rw [← pieces_lex] at ht
  obtain ⟨piece, hp, ht⟩ := List.mem_flatMap.mp ht
  have hs : ∀ c ∈ t.word, isSpace c = false := fun c hc => by
    have hm : c ∈ (tokens operators [] piece).flatMap Token.word :=
      List.mem_flatMap.mpr ⟨t, ht, hc⟩
    rw [Munch.tokens_word _ _ _ nil_notMem_operators] at hm
    exact isSpace_of_mem_pieces hp c hm
  rw [Munch.lex_solid hs]
  cases t with
  | op o  =>
    have ho := Munch.op_mem_tokens ht
    exact Munch.tokens_self ho fun hn => nil_notMem_operators (hn ▸ ho)
  | arg o =>
    have hn := Munch.tokens_ne_nil nil_notMem_operators ht
    have ha : ∀ c ∈ o, ∀ o' ∈ operators, c ∉ o' := fun c hc o' ho hco =>
      Munch.arg_mem_tokens ht (singleton_mem_operators o' ho c hco) (by simp) hc
    rw [Token.word_arg, Munch.tokens_of_notMem nil_notMem_operators ha, List.nil_append]
    obtain ⟨c, o, rfl⟩ := List.exists_cons_of_ne_nil hn
    rfl

-- In the line `u ++ v`, the lexems `ls₁` have been read at the end of `u`, and nothing of the
-- lexems `ls₂`.
structure Boundary (u v : String) (ls₁ ls₂ : List Lexem) : Prop where
  lexems : (parse { input := u ++ v }).get = ls₁ ++ ls₂
  before : ls₁.flatMap (·.lexem.toList) = u.toList.filter (!isSpace ·)

-- What it means that whitespace only separates lexems. There are boundaries on both sides of every
-- lexem, of the operators in particular.
structure BlindToSpacing (input : String) : Prop where
  joined   : (parse { input := " ".intercalate ((parse { input }).get.map (·.lexem)) }).get =
    (parse { input }).get
  boundary : ∀ ls₁ ls₂, (parse { input }).get = ls₁ ++ ls₂ →
    ∃ u v, input = u ++ v ∧ Boundary u v ls₁ ls₂
  inserted : ∀ u v ls₁ ls₂ ws, input = u ++ v → Boundary u v ls₁ ls₂ →
    (∀ c ∈ ws.toList, isSpace c) → (parse { input := u ++ ws ++ v }).get = (parse { input }).get
  widened  : ∀ u c v ws, input = u ++ String.singleton c ++ v → isSpace c → ws ≠ "" →
    (∀ c ∈ ws.toList, isSpace c) → (parse { input := u ++ ws ++ v }).get = (parse { input }).get

theorem flatMap_map_lexem (ts : List (Token Char)) :
    (ts.map lexem).flatMap (·.lexem.toList) = ts.flatMap Token.word := by
  simp only [List.flatMap_map, toList_lexem]

theorem parse_concat (input : String) :
    (parse { input }).get.flatMap (·.lexem.toList) = input.toList.filter (!isSpace ·) := by
  rw [parse_eq]
  exact (maximalMunch_reference input).concat

theorem exists_boundary {ls₁ ls₂ : List Lexem} (h : (parse { input }).get = ls₁ ++ ls₂) :
    ∃ u v, input = u ++ v ∧ Boundary u v ls₁ ls₂ := by
  have hc := parse_concat input
  rw [h, List.flatMap_append] at hc
  obtain ⟨u, v, he, hu, _⟩ := List.filter_eq_append_iff.mp hc.symm
  have hi : input = .ofList u ++ .ofList v := by
    rw [← String.toList_inj]
    simpa using he
  exact ⟨.ofList u, .ofList v, hi, hi ▸ h, by simpa using hu.symm⟩

theorem Boundary.parse_eq {u v : String} {ls₁ ls₂ : List Lexem} (h : Boundary u v ls₁ ls₂) :
    (parse { input := u }).get = ls₁ ∧ (parse { input := v }).get = ls₂ := by
  have hl := h.lexems
  rw [parse_eq_lex, String.toList_append] at hl
  obtain ⟨ts₁, ts₂, ht, rfl, rfl⟩ := List.map_eq_append_iff.mp hl
  have hb := h.before
  rw [flatMap_map_lexem] at hb
  obtain ⟨hu, hv⟩ := operators_spacing.lex_boundary ht hb
  exact ⟨by rw [parse_eq_lex, hu], by rw [parse_eq_lex, hv]⟩

theorem parse_append {u v ws : String} (hn : ws ≠ "") (hws : ∀ c ∈ ws.toList, isSpace c) :
    (parse { input := u ++ ws ++ v }).get =
      (parse { input := u }).get ++ (parse { input := v }).get := by
  obtain ⟨c, cs, hc⟩ := List.exists_cons_of_ne_nil (mt String.toList_eq_nil_iff.mp hn)
  rw [hc] at hws
  obtain ⟨h, hcs⟩ := List.forall_mem_cons.mp hws
  rw [parse_eq_lex, parse_eq_lex, parse_eq_lex, String.toList_append, String.toList_append, hc,
    List.append_assoc, List.cons_append, operators_spacing.lex_append_sep h,
    Munch.lex_append_of_sep hcs, List.map_append]

theorem parse_blindToSpacing (input : String) : BlindToSpacing input where
  joined   := by
    have hw : ((parse { input }).get.map (·.lexem)).map String.toList =
        (lex operators isSpace [] input.toList).map Token.word := by
      rw [parse_eq_lex, List.map_map, List.map_map]
      exact List.map_congr_left fun t _ => toList_lexem t
    rw [parse_eq_lex, String.toList_intercalate, hw]
    rw [show " ".toList = [' '] from rfl,
      operators_spacing.lex_intercalate (by decide) (fun _ => lex_word), ← parse_eq_lex]
  boundary ls₁ ls₂ h := exists_boundary h
  inserted u v ls₁ ls₂ ws he h hws := by
    subst he
    by_cases hn : ws = ""
    case pos => rw [hn, String.append_empty]
    case neg => rw [parse_append hn hws, h.parse_eq.1, h.parse_eq.2, h.lexems]
  widened u c v ws he hc hn hws := by
    subst he
    have hs : ∀ c' ∈ (String.singleton c).toList, isSpace c' := by simpa using hc
    rw [parse_append hn hws, parse_append (by simp) hs]

end LexemParser
