import Technosphere.Shell.Parser
import Technosphere.Shell.Theorems.Calls
import Technosphere.Shell.Theorems.Progress

inductive Place
  | start               -- A command can follow.
  | command             -- A command has to follow.
  | words               -- behind the first word of a command
  | redirected (n : ℕ)  -- behind `n` of the three redirections that a command can have
  | file (n : ℕ)        -- behind the operator of redirection `n`

namespace Place

-- The redirections of a command are `<`, `>` and `<`, in this order. What follows them is `|` or
-- taken for an operator between two commands.
def nextRedirect : ℕ → LexemType → Place
  | 0, .input  => file 1
  | 1, .input  => file 3
  | 2, .input  => file 3
  | 0, .output => file 2
  | 1, .output => file 2
  | _, .pipe   => command
  | _, _       => start

def next : Place → LexemType → Place
  | start,        _           => words
  | command,      _           => words
  | words,        .argument   => words
  | words,        .subprocess => redirected 0
  | words,        type        => nextRedirect 0 type
  | redirected n, type        => nextRedirect n type
  | file n,       _           => redirected n

def wants : Place → Bool
  | command => true
  | file _  => true
  | _       => false

def cutOff : Place → List Lexem → Bool
  | p, []      => p.wants
  | p, l :: ls => (p.next l.type).cutOff ls

variable {lexems ls : List Lexem} {p : Place} {n idx : ℕ}

theorem cutOff_dropWhile :
    words.cutOff ls = words.cutOff (ls.dropWhile (·.type = .argument)) := by
  induction ls with
  | nil => rfl
  | cons l ls hi =>
    by_cases h : l.type = .argument
    case pos => rw [List.dropWhile_cons_of_pos (by simp [h]), ← hi, cutOff, h, next]
    case neg => rw [List.dropWhile_cons_of_neg (by simp [h])]

-- The `&` behind the words of a command is passed over.
theorem cutOff_words (h : ∀ l ∈ ls.head?, l.type ≠ .argument) : words.cutOff ls =
    (redirected 0).cutOff (if ls.head?.map (·.type) = some .subprocess then ls.tail else ls) := by
  cases ls with
  | nil => rfl
  | cons l ls =>
    have h := h l rfl
    simp only [List.head?_cons, Option.map_some, Option.some.injEq, List.tail_cons]
    split_ifs with hs
    · rw [cutOff, hs, next]
    · cases ht : l.type <;> simp_all [cutOff, next]

end Place

-- What reads the lexems from `n` on at the place `p`: it either reaches the place `q` of the lexem
-- `i r`, or it reads a lexem behind the end of the line, which is then cut off.
def Reads (lexems : List Lexem) (p : Place) (n : ℕ) (q : Place) (i : ρ → ℕ) : Option ρ → Prop
  | some r => p.cutOff (lexems.drop n) = q.cutOff (lexems.drop (i r))
  | none   => p.cutOff (lexems.drop n) = true

variable {env : Environment} {lexems : List Lexem} {p q q' : Place} {n idx : ℕ} {k : Kernel}
  {fd readfd writefd : ℤ} {type : LexemType} {mode : OpenMode}

theorem Reads.of_eq {i : ρ → ℕ} {x : Option ρ}
    (he : p.cutOff (lexems.drop n) = q.cutOff (lexems.drop idx)) (h : Reads lexems q idx q' i x) :
    Reads lexems p n q' i x := by
  cases x with
  | none   => exact Eq.trans he h
  | some r => exact Eq.trans he h

theorem Reads.bind {i : ρ → ℕ} {i' : ρ' → ℕ} {x : Option ρ} {f : ρ → Option ρ'}
    (h : Reads lexems p n q i x) (hf : ∀ r, x = some r → Reads lexems q (i r) q' i' (f r)) :
    Reads lexems p n q' i' (x.bind f) := by
  cases x with
  | none   => exact h
  | some r => exact .of_eq h (hf r rfl)

theorem Reads.loop {σ : Type u} {i : σ → ℕ} {cond : σ → Bool} {body : σ → Option σ} {s : σ}
    (hb : ∀ s, cond s = true → Reads lexems p (i s) p i (body s)) :
    Reads lexems p (i s) p i (whileLoop cond body n s) := by
  induction n generalizing s with
  | zero => exact rfl
  | succ n hi =>
    rw [whileLoop]
    split_ifs with hc
    · exact (hb s hc).bind fun _ _ => hi
    · exact rfl

namespace Call

open Place (redirected file words)

theorem redirect_reads (env : Environment) (mode : OpenMode) (fd : ℤ) (k : Kernel)
    (hf : (redirected n).next type = file (n + 1))
    (hn : ∀ t ≠ type, (redirected n).next t = (redirected (n + 1)).next t) :
    Reads lexems (redirected n) idx (redirected (n + 1)) (·.1)
      (redirect env lexems type mode idx fd k) := by
  rw [redirect]
  cases hd : lexems.drop idx with
  | nil => simp [typeAt_drop, hd, Reads, Place.cutOff, Place.wants]
  | cons l ls =>
    rw [typeAt_of_drop hd]
    by_cases ht : l.type = type
    case pos =>
      have hs := drop_succ hd
      rw [if_pos (congrArg some ht)]
      cases ls with
      | nil =>
        rw [← List.head?_drop, hs]
        simp [Reads, hd, Place.cutOff, ht, hf, Place.wants]
      | cons l' ls =>
        have hs' := drop_succ hs
        rw [getElem?_of_drop hs]
        simp only [Reads, Option.bind_eq_bind, Option.bind_some, Option.pure_def, hd, hs',
          Place.cutOff, ht, hf]
        rfl
    case neg =>
      rw [if_neg (by simpa using ht)]
      simp only [Reads, Option.pure_def, hd, Place.cutOff, hn _ ht]

theorem redirects_reads (env : Environment) (readfd writefd : ℤ) (k : Kernel) :
    Reads lexems (redirected 0) idx (redirected 3) (·.1)
      (redirects env lexems idx readfd writefd k) := by
  refine (redirect_reads env .input _ _ rfl fun t ht => ?_).bind fun r _ => ?_
  · cases t <;> first | rfl | exact absurd rfl ht
  refine (redirect_reads env .output _ _ rfl fun t ht => ?_).bind fun r _ => ?_
  · cases t <;> first | rfl | exact absurd rfl ht
  refine (redirect_reads env .input _ _ rfl fun t ht => ?_).bind fun r _ => rfl
  cases t <;> first | rfl | exact absurd rfl ht

theorem new_reads (env : Environment) (readfd writefd : ℤ) (k : Kernel)
    (hp : ∀ type, p.next type = words) (hw : p.wants = true ∨ idx < lexems.length) :
    Reads lexems p idx (redirected 3) (·.2.1) (new env lexems idx readfd writefd k) := by
  rw [new]
  cases hd : lexems.drop idx with
  | nil =>
    have hlen := List.drop_eq_nil_iff.mp hd
    rw [← List.head?_drop, hd]
    simpa [Reads, hd, Place.cutOff] using hw.resolve_right hlen.not_gt
  | cons l ls =>
    have hs := drop_succ hd
    have hj : lexems.drop (argvEnd lexems idx) = ls.dropWhile (·.type = .argument) := by
      rw [argvEnd, hs]
      exact drop_add_length (hs.trans List.takeWhile_append_dropWhile.symm)
    have hne : ∀ l ∈ (ls.dropWhile (·.type = .argument)).head?, l.type ≠ .argument := by
      intro l hl
      have h := List.head?_dropWhile_not (·.type = .argument) ls
      rw [Option.mem_def.mp hl] at h
      simpa using h
    rw [getElem?_of_drop hd]
    refine Reads.of_eq ?_ ((redirects_reads env readfd writefd k).bind fun r _ => rfl)
    rw [hd, Place.cutOff, hp, Place.cutOff_dropWhile, Place.cutOff_words hne, ← hj, typeAt_drop]
    split_ifs
    · rw [List.tail_drop]
    · rfl

end Call

namespace Shell

open Place (redirected start)

variable {prevOp : Option LexemType} {s : Shell} {call : Call} {status : Option ℕ}

theorem pipelineBody_reads {l : PipelineLocals} (h : typeAt lexems l.idx = some .pipe) :
    Reads lexems (redirected 3) l.idx (redirected 3) (·.idx)
      (pipelineBody env lexems prevOp l) := by
  have ⟨lexem, hl, ht⟩ := Option.map_eq_some_iff.mp h
  have hd : lexems.drop l.idx = lexem :: lexems.drop (l.idx + 1) := by
    have ⟨hlt, hg⟩ := List.getElem?_eq_some_iff.mp hl
    rw [List.drop_eq_getElem_cons hlt, hg]
  have hc : (redirected 3).cutOff (lexems.drop l.idx) =
      Place.command.cutOff (lexems.drop (l.idx + 1)) := by
    rw [hd, Place.cutOff, ht]
    rfl
  exact .of_eq hc ((Call.new_reads env _ 1 _ (fun _ => rfl) (.inl rfl)).bind fun r _ => rfl)

theorem calcPipeline_reads : Reads lexems (redirected 3) idx (redirected 3) (·.2.2)
    (s.calcPipeline env call status lexems idx prevOp) :=
  (Reads.loop (i := PipelineLocals.idx) fun _ hc =>
    pipelineBody_reads (of_decide_eq_true hc)).bind fun _ _ => rfl

theorem calcPipeline_done {r : Shell × Option ℕ × ℕ}
    (h : s.calcPipeline env call status lexems idx prevOp = some r) :
    typeAt lexems r.2.2 ≠ some .pipe := by
  have ⟨l, hl, h⟩ := Option.bind_eq_some_iff.mp h
  obtain rfl := Option.some.inj h
  exact pipelineLoop_done hl

-- What follows a command that no pipe follows is taken for an operator.
theorem advance_reads {l : CallsLocals} (hi : l.idx = idx) (h : typeAt lexems idx ≠ some .pipe) :
    Reads lexems (redirected 3) idx start (·.idx) (some (l.advance lexems)) := by
  subst hi
  rw [CallsLocals.advance, Reads]
  cases hd : lexems.drop l.idx with
  | nil =>
    rw [← List.head?_drop, hd]
    simp only [List.head?_nil, hd]
    rfl
  | cons lexem ls =>
    have ht : lexem.type ≠ .pipe := by simpa [typeAt_of_drop hd] using h
    simp only [getElem?_of_drop hd, drop_succ hd, Place.cutOff]
    cases hl : lexem.type <;> first | rfl | exact absurd hl ht

theorem calcCallsBody_reads (env : Environment) {l : CallsLocals} (h : l.idx < lexems.length) :
    Reads lexems start l.idx start (·.idx) (calcCallsBody env lexems l) := by
  refine (Call.new_reads env _ _ _ (fun _ => rfl) (.inr h)).bind fun r _ => ?_
  simp only
  split_ifs with ht
  · exact calcPipeline_reads.bind fun r' hr => advance_reads rfl (calcPipeline_done hr)
  · exact advance_reads rfl ht

def InRange (env : Environment) (s : Shell) (lexems : List Lexem) : Prop :=
  (s.calcCallsLoop env lexems lexems.length).isSome

theorem inRange_iff (env : Environment) (s : Shell) (lexems : List Lexem) :
    InRange env s lexems ↔ start.cutOff lexems = false := by
  have h := Reads.loop (n := lexems.length)
    (s := ({ shell := { s with prevExitStatus := ⟨0⟩ } } : CallsLocals))
    fun l (hc : decide (l.idx < lexems.length) = true) =>
      calcCallsBody_reads env (of_decide_eq_true hc)
  rw [InRange]
  cases hl : s.calcCallsLoop env lexems lexems.length with
  | none =>
    rw [← calcCallsLoop, hl] at h
    simpa [Reads] using h
  | some l =>
    have hd := calcCallsLoop_done hl
    rw [← calcCallsLoop, hl] at h
    simpa [Reads, List.drop_eq_nil_of_le hd, Place.cutOff, Place.wants] using h

theorem inRange_parse_iff (env : Environment) (s : Shell) (input : String) :
    InRange env s (LexemParser.parse { input }).get ↔
      start.cutOff (LexemParser.parse { input }).get = false :=
  inRange_iff env s _

-- The command behind the pipe is read although the line is over.
theorem not_inRange_of_open_pipe :
    let env : Environment := ⟨fun _ => true, fun _ => 0⟩
    let s   : Shell       := { kernel := { fds := ∅ } }
    (LexemParser.parse { input := "a |" }).get = [⟨"a", .argument⟩, ⟨"|", .pipe⟩] ∧
      ¬InRange env s (LexemParser.parse { input := "a |" }).get := by
  intro env s
  refine ⟨by decide, ?_⟩
  rw [inRange_iff]
  decide

end Shell
