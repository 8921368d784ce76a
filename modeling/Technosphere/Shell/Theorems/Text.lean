import Technosphere.Shell.Redirected
import Technosphere.Shell.Theorems.Spacing

open Munch (Token lex)

namespace LexemParser

structure Readable (l : Lexem) : Prop where
  nonempty : l.lexem ≠ ""
  type     : l.type = takeType l.lexem
  argument : l.type = .argument → ∀ c ∈ l.lexem.toList, isSpace c = false ∧ ∀ o ∈ operators, c ∉ o

variable {ls : List Lexem} {l : Lexem} {input : String}

theorem readable_of_mem (h : l ∈ (parse { input }).get) : Readable l := by
  rw [parse_eq] at h
  have hm := maximalMunch_reference input
  exact ⟨hm.nonempty l h, hm.type l h, hm.argument l h⟩

theorem Readable.token (h : Readable l) :
    ∃ t : Token Char, lexem t = l ∧ lex operators isSpace [] t.word = [t] := by
  obtain ⟨w, type⟩ := l
  by_cases ht : type = .argument
  case pos =>
    subst ht
    have ha := h.argument rfl
    obtain ⟨c, cs, hc⟩ := List.exists_cons_of_ne_nil (mt String.toList_eq_nil_iff.mp h.nonempty)
    refine ⟨.arg w.toList, by simp [lexem], ?_⟩
    rw [Token.word_arg, Munch.lex_solid fun c hc => (ha c hc).1,
      Munch.tokens_of_notMem nil_notMem_operators fun c hc => (ha c hc).2, List.nil_append]
    simp only at hc
    rw [hc]
    rfl
  case neg =>
    have htype : type = takeType w := h.type
    have ho : w.toList ∈ operators := takeType_ofList.mp (by simpa [← htype] using ht)
    refine ⟨.op w.toList, by simp [lexem, htype], ?_⟩
    rw [Token.word_op, Munch.lex_solid (operators_spacing.solid _ ho),
      Munch.tokens_self ho fun hn => nil_notMem_operators (hn ▸ ho)]

theorem parse_intercalate_iff :
    (parse { input := " ".intercalate (ls.map (·.lexem)) }).get = ls ↔ ∀ l ∈ ls, Readable l where
  mp h   := fun _ hl => readable_of_mem (h.symm ▸ hl)
  mpr hr := by
    obtain ⟨ts, rfl, hts⟩ : ∃ ts : List (Token Char), ts.map lexem = ls ∧
        ∀ t ∈ ts, lex operators isSpace [] t.word = [t] := by
      induction ls with
      | nil          => exact ⟨[], rfl, by simp⟩
      | cons l ls ih =>
        obtain ⟨hl, hls⟩ := List.forall_mem_cons.mp hr
        obtain ⟨t, rfl, ht⟩ := hl.token
        obtain ⟨ts, rfl, hts⟩ := ih hls
        exact ⟨t :: ts, rfl, List.forall_mem_cons.mpr ⟨ht, hts⟩⟩
    have hw : ((ts.map lexem).map (·.lexem)).map String.toList = ts.map Token.word := by
      rw [List.map_map, List.map_map]
      exact List.map_congr_left fun (t : Token Char) _ => toList_lexem t
    rw [parse_eq_lex, String.toList_intercalate, hw, show " ".toList = [' '] from rfl,
      operators_spacing.lex_intercalate (by decide) hts]

end LexemParser
