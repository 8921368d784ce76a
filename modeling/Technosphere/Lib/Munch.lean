import Mathlib

-- Lexing by maximal munch: at each place the longest operator that matches there is taken, and the
-- characters at which none matches make up the arguments.
namespace Munch

inductive Token (α : Type u)
  | op (w : List α)
  | arg (w : List α)
deriving DecidableEq

namespace Token

variable {α : Type u}

def word : Token α → List α
  | op w  => w
  | arg w => w

@[simp]
theorem word_op (w : List α) : (op w).word = w :=
  rfl

@[simp]
theorem word_arg (w : List α) : (arg w).word = w :=
  rfl

def IsArg : Token α → Prop
  | op _  => False
  | arg _ => True

end Token

section Argument

variable {α : Type u} {w : List α} {t : Token α}

def argument : List α → List (Token α)
  | []     => []
  | c :: w => [.arg (c :: w)]

theorem argument_word : (argument w).flatMap Token.word = w := by
  cases w <;> simp [argument]

theorem mem_argument : t ∈ argument w ↔ w ≠ [] ∧ t = .arg w := by
  cases w <;> simp [argument]

theorem isChain_argument : (argument w).IsChain (fun t t' => t.IsArg → ¬t'.IsArg) := by
  cases w <;> simp [argument]

end Argument

variable {α : Type u} [DecidableEq α]

def longest (ops : List (List α)) (cs : List α) : Option (List α) :=
  (ops.filter (· <+: cs)).argmax List.length

-- The tokens of the text `cs`, in front of which the characters `w` of an argument have been read.
def tokens (ops : List (List α)) (w : List α) : List α → List (Token α)
  | []      => argument w
  | c :: cs =>
    match longest ops (c :: cs) with
    | some o => argument w ++ .op o :: tokens ops [] (cs.drop (o.length - 1))
    | none   => tokens ops (w ++ [c]) cs
termination_by cs => cs.length

variable {ops : List (List α)} {cs w o : List α} {t : Token α} {c : α}

theorem longest_eq_none : longest ops cs = none ↔ ∀ o ∈ ops, ¬o <+: cs := by
  simp [longest]

theorem longest_eq_some : longest ops cs = some o ↔
    o ∈ ops ∧ o <+: cs ∧ ∀ o' ∈ ops, o' <+: cs → o'.length ≤ o.length := by
  constructor
  · intro h
    have hm := List.argmax_mem h
    have hle := fun o' ho => List.le_of_mem_argmax (a := o') ho h
    simp only [List.mem_filter, decide_eq_true_eq, and_imp] at hm hle
    exact ⟨hm.1, hm.2, hle⟩
  · rintro ⟨ho, hp, hle⟩
    cases hl : longest ops cs with
    | none => exact absurd hp (longest_eq_none.mp hl o ho)
    | some o' =>
      have hm := List.argmax_mem hl
      have hge := List.le_of_mem_argmax (a := o) (by simp [ho, hp]) hl
      simp only [List.mem_filter, decide_eq_true_eq] at hm
      have hlen := le_antisymm (hle o' hm.1 hm.2) hge
      rw [(List.prefix_of_prefix_length_le hm.2 hp hlen.le).eq_of_length hlen]

theorem tokens_word (ops : List (List α)) (w cs : List α) (h : [] ∉ ops) :
    (tokens ops w cs).flatMap Token.word = w ++ cs := by
  fun_induction tokens ops w cs with
  | case1 w => simpa using argument_word
  | case2 w c cs o ho hi =>
    have ⟨hm, ⟨rest, hp⟩, _⟩ := longest_eq_some.mp ho
    cases o with
    | nil => exact absurd hm h
    | cons c' o =>
      obtain ⟨rfl, rfl⟩ := List.cons.inj hp
      simpa [argument_word] using hi
  | case3 w c cs ho hi => simpa using hi

theorem tokens_ne_nil (h : [] ∉ ops) (ht : t ∈ tokens ops w cs) : t.word ≠ [] := by
  fun_induction tokens ops w cs with
  | case1 w =>
    obtain ⟨hw, rfl⟩ := mem_argument.mp ht
    exact hw
  | case2 w c cs o ho hi =>
    rcases List.mem_append.mp ht with ht | ht
    · obtain ⟨hw, rfl⟩ := mem_argument.mp ht
      exact hw
    · rcases List.mem_cons.mp ht with rfl | ht
      · rintro rfl
        exact h (longest_eq_some.mp ho).1
      · exact hi ht
  | case3 w c cs ho hi => exact hi ht

theorem op_mem_tokens (h : .op o ∈ tokens ops w cs) : o ∈ ops := by
  fun_induction tokens ops w cs with
  | case1 w => simp [mem_argument] at h
  | case2 w c cs o ho hi =>
    rcases List.mem_append.mp h with h | h
    · simp [mem_argument] at h
    · rcases List.mem_cons.mp h with h | h
      · exact Token.op.inj h ▸ (longest_eq_some.mp ho).1
      · exact hi h
  | case3 w c cs ho hi => exact hi h

theorem arg_mem_tokens (h : .arg o ∈ tokens ops w cs) (hc : [c] ∈ ops) (hw : c ∉ w) : c ∉ o := by
  fun_induction tokens ops w cs with
  | case1 w =>
    obtain ⟨_, ho⟩ := mem_argument.mp h
    exact Token.arg.inj ho ▸ hw
  | case2 w c' cs o' ho hi =>
    rcases List.mem_append.mp h with h | h
    · obtain ⟨_, ho⟩ := mem_argument.mp h
      exact Token.arg.inj ho ▸ hw
    · exact hi (List.mem_of_ne_of_mem (by simp) h) (by simp)
  | case3 w c' cs ho hi =>
    refine hi h ?_
    simp only [List.mem_append, List.mem_singleton, hw, false_or]
    rintro rfl
    exact longest_eq_none.mp ho [c] hc (by simp)

theorem isChain_tokens (ops : List (List α)) (w cs : List α) :
    (tokens ops w cs).IsChain (fun t t' => t.IsArg → ¬t'.IsArg) := by
  fun_induction tokens ops w cs with
  | case1 w => exact isChain_argument
  | case2 w c cs o ho hi =>
    refine List.isChain_append.mpr ⟨isChain_argument, ?_, by simp [Token.IsArg]⟩
    exact List.isChain_cons.mpr ⟨by simp [Token.IsArg], hi⟩
  | case3 w c cs ho hi => exact hi

end Munch
