import Technosphere.Shell.Theorems.Launches

open AndOr (Op selects)
open Shell (CallsLocals PipelineLocals calcCallsBody pipelineBody pipelineLoop opType)

def Environment.shift (env : Environment) (n : ℕ) : Environment where
  opens m  := env.opens (n + m)
  status m := env.status (n + m)

def Call.shift (n : ℕ) (call : Call) : Call :=
  { call with pos := n + call.pos }

namespace Redirected

open Redirected.Pipeline (restLexems)

-- What a process does is decided by the words of its command and by its descriptors.
def program (child : Child) : List String × Descriptors File :=
  (child.argv, child.fds)

structure Alike (k k' : Kernel) : Prop where
  fds      : k.fds = k'.fds
  pipes    : k.pipes = k'.pipes
  opened   : k.opened = k'.opened
  programs : k.children.map program = k'.children.map program

structure Part (lexems : List Lexem) (n : ℕ) (part rest : List Lexem) : Prop where
  drop : lexems.drop n = part ++ rest
  next : ∀ l ∈ rest.head?, l.type = .and ∨ l.type = .or

variable {env : Environment} {lexems part rest : List Lexem} {n i j : ℕ} {k k' : Kernel}
  {call : Call} {fd readfd writefd : ℤ} {type : LexemType} {mode : OpenMode}

namespace Alike

theorem refl (k : Kernel) : Alike k k :=
  ⟨rfl, rfl, rfl, rfl⟩

theorem openFile (h : Alike k k') (env : Environment) (n i : ℕ) (path : String)
    (mode : OpenMode) : (k.openFile env (n + i) path mode).1 =
      (k'.openFile (env.shift n) i path mode).1 ∧
      Alike (k.openFile env (n + i) path mode).2 (k'.openFile (env.shift n) i path mode).2 := by
  by_cases ho : env.opens (n + i) = true
  case pos =>
    simp only [Kernel.openFile, Environment.shift, ho, ↓reduceIte, h.fds, h.opened]
    exact ⟨trivial, rfl, h.pipes, rfl, h.programs⟩
  case neg =>
    simp only [Kernel.openFile, Environment.shift, ho, Bool.false_eq_true, ↓reduceIte]
    exact ⟨trivial, h⟩

theorem pipe (h : Alike k k') : k.pipe.1 = k'.pipe.1 ∧ Alike k.pipe.2 k'.pipe.2 := by
  refine ⟨?_, ?_, congrArg (· + 1) h.pipes, h.opened, h.programs⟩
  · simp only [Kernel.pipe, h.fds, h.pipes]
  · simp only [Kernel.pipe, h.fds, h.pipes]

theorem fork (h : Alike k k') : Alike (k.fork (call.shift n)).2 (k'.fork call).2 :=
  ⟨h.fds, h.pipes, h.opened, by
    simp [Kernel.fork, Call.exec, Call.shift, program, h.programs, h.fds]⟩

theorem closeFd (h : Alike k k') : Alike ((call.shift n).closeFd k) (call.closeFd k') := by
  refine ⟨?_, ?_, ?_, ?_⟩
  · rw [closeFd_fds, closeFd_fds, h.fds]
    rfl
  · rw [Kernel.closeFd_pipes, Kernel.closeFd_pipes, h.pipes]
  · rw [closeFd_opened, closeFd_opened, h.opened]
  · rw [Kernel.closeFd_children, Kernel.closeFd_children, h.programs]

end Alike

namespace Part

theorem getElem?_eq (h : Part lexems n part rest) (hi : i < part.length) :
    lexems[n + i]? = part[i]? := by
  rw [← List.getElem?_drop, h.drop, List.getElem?_append_left hi]

theorem drop_add (h : Part lexems n part rest) (hi : i ≤ part.length) :
    lexems.drop (n + i) = part.drop i ++ rest := by
  rw [← List.drop_drop, h.drop, List.drop_append_of_le_length hi]

theorem length_le (h : Part lexems n part rest) : part.length ≤ lexems.length := by
  have := congrArg List.length h.drop
  rw [List.length_drop, List.length_append] at this
  omega

theorem typeAt_iff (h : Part lexems n part rest) (type : LexemType) (hi : i ≤ part.length)
    (ht : type ≠ .and ∧ type ≠ .or) :
    typeAt lexems (n + i) = some type ↔ typeAt part i = some type := by
  rcases Nat.lt_or_eq_of_le hi with hi | rfl
  · rw [typeAt, typeAt, h.getElem?_eq hi]
  · have hd := h.drop_add le_rfl
    rw [List.drop_length, List.nil_append] at hd
    refine iff_of_false (typeAt_ne_of_drop hd fun l hl he => ?_) (by simp [typeAt])
    rcases h.next l hl with ha | ho
    · exact ht.1 (he.symm.trans ha)
    · exact ht.2 (he.symm.trans ho)

theorem argvEnd_eq (h : Part lexems n part rest) (hi : i < part.length) :
    Call.argvEnd lexems (n + i) = n + Call.argvEnd part i ∧
      Call.argvEnd part i ≤ part.length := by
  have hr : rest.takeWhile (·.type = .argument) = [] := by
    cases hc : rest with
    | nil         => rfl
    | cons l rest =>
      rcases h.next l (by simp [hc]) with ht | ht <;> simp [ht]
  have ht : ((part.drop (i + 1) ++ rest).takeWhile (·.type = .argument)) =
      (part.drop (i + 1)).takeWhile (·.type = .argument) := by
    rw [List.takeWhile_append, hr, List.append_nil]
    split_ifs with hl
    · exact ((List.takeWhile_sublist _).eq_of_length hl).symm
    · rfl
  have hd : lexems.drop (n + i + 1) = part.drop (i + 1) ++ rest := h.drop_add hi
  have hle := (List.takeWhile_sublist (l := part.drop (i + 1)) (·.type = .argument)).length_le
  rw [List.length_drop] at hle
  rw [Call.argvEnd, Call.argvEnd, hd, ht]
  omega

theorem redirect (h : Part lexems n part rest) (hk : Alike k k') (hi : i ≤ part.length)
    (ht : type ≠ .and ∧ type ≠ .or) {r : ℕ × ℤ × Kernel}
    (hr : Call.redirect (env.shift n) part type mode i fd k' = some r) :
    ∃ k₁, Call.redirect env lexems type mode (n + i) fd k = some (n + r.1, r.2.1, k₁) ∧
      Alike k₁ r.2.2 ∧ r.1 ≤ part.length := by
  simp only [Call.redirect] at hr
  by_cases hty : typeAt part i = some type
  case pos =>
    rw [if_pos hty] at hr
    obtain ⟨file, hf, hr⟩ := Option.bind_eq_some_iff.mp hr
    obtain rfl := Option.some.inj hr
    have hlt := (List.getElem?_eq_some_iff.mp hf).1
    obtain ⟨hfd, hk₁⟩ := hk.openFile env n (i + 1) file.lexem mode
    refine ⟨_, ?_, hk₁, hlt⟩
    rw [Call.redirect, if_pos ((h.typeAt_iff type hi ht).mpr hty), add_assoc, h.getElem?_eq hlt, hf]
    simp only [Option.bind_eq_bind, Option.bind_some, hfd, add_assoc]
    rfl
  case neg =>
    rw [if_neg hty] at hr
    obtain rfl := Option.some.inj hr
    exact ⟨k, Call.redirect_of_ne (mt (h.typeAt_iff type hi ht).mp hty), hk, hi⟩

theorem new (h : Part lexems n part rest) (hk : Alike k k') {r : Call × ℕ × Kernel}
    (hr : Call.new (env.shift n) part i readfd writefd k' = some r) :
    ∃ k₁, Call.new env lexems (n + i) readfd writefd k = some (r.1.shift n, n + r.2.1, k₁) ∧
      Alike k₁ r.2.2 ∧ r.2.1 ≤ part.length := by
  simp only [Call.new, Call.redirects, Option.bind_eq_bind, Option.bind_eq_some_iff,
    Option.pure_def, Option.some.injEq] at hr
  obtain ⟨l, hl, _, ⟨r₁, h₁, r₂, h₂, r₃, h₃, rfl⟩, rfl⟩ := hr
  have hi := (List.getElem?_eq_some_iff.mp hl).1
  obtain ⟨hj, hle⟩ := h.argvEnd_eq hi
  have hs : (if typeAt lexems (n + Call.argvEnd part i) = some .subprocess
      then n + Call.argvEnd part i + 1 else n + Call.argvEnd part i) =
      n + if typeAt part (Call.argvEnd part i) = some .subprocess
        then Call.argvEnd part i + 1 else Call.argvEnd part i := by
    simp only [h.typeAt_iff .subprocess hle (by decide)]
    split_ifs <;> rfl
  have hle' : (if typeAt part (Call.argvEnd part i) = some .subprocess
      then Call.argvEnd part i + 1 else Call.argvEnd part i) ≤ part.length := by
    split_ifs with ht
    · exact lt_of_typeAt ht
    · exact hle
  obtain ⟨k₁, hr₁, hk₁, hle₁⟩ := h.redirect hk hle' (by simp) h₁
  obtain ⟨k₂, hr₂, hk₂, hle₂⟩ := h.redirect hk₁ hle₁ (by simp) h₂
  obtain ⟨k₃, hr₃, hk₃, hle₃⟩ := h.redirect hk₂ hle₂ (by simp) h₃
  refine ⟨k₃, ?_, hk₃, hle₃⟩
  have hargv : ((lexems.drop (n + i)).take (n + Call.argvEnd part i - (n + i))).map (·.lexem) =
      ((part.drop i).take (Call.argvEnd part i - i)).map (·.lexem) := by
    rw [h.drop_add hi.le, Nat.add_sub_add_left, List.take_append_of_le_length]
    rw [List.length_drop]
    omega
  simp only [Call.new, Call.redirects, h.getElem?_eq hi, hl, hj, hs, hr₁, hr₂, hr₃, hargv,
    Option.bind_eq_bind, Option.bind_some, Option.pure_def]
  rfl

end Part

-- What the loop of `calcPipeline` has where the pipeline stands, and what it has for the pipeline
-- as a line of its own.
structure SamePipeline (prevOp prevOp' : Option LexemType) (n : ℕ) (part : List Lexem)
    (l l' : PipelineLocals) : Prop where
  call    : l.call = l'.call.shift n
  idx     : l.idx = n + l'.idx
  le      : l'.idx ≤ part.length
  passes  : (l.first && l.shell.passes prevOp) = (l'.first && l'.shell.passes prevOp')
  writefd : l.shell.writefd = l'.shell.writefd
  kernel  : Alike l.shell.kernel l'.shell.kernel

structure SameShell (s s' : Shell) : Prop where
  prevReadfd : s.prevReadfd = s'.prevReadfd
  writefd    : s.writefd = s'.writefd
  kernel     : Alike s.kernel s'.kernel

variable {prevOp prevOp' : Option LexemType}

theorem SamePipeline.launch {l l' : PipelineLocals} (h : SamePipeline prevOp prevOp' n part l l') :
    Alike (l.launch prevOp) (l'.launch prevOp') := by
  obtain ⟨hfd, hk⟩ := h.kernel.pipe
  let call := { l'.call with writefd := l'.shell.kernel.pipe.1.2 }
  have hc : ({ l.call with writefd := l.shell.kernel.pipe.1.2 } : Call) = call.shift n := by
    rw [h.call, hfd]
    rfl
  simp only [PipelineLocals.launch, hc, h.passes]
  split_ifs
  · exact hk.closeFd
  · exact hk.fork.closeFd

theorem SamePipeline.body {l l' l₁' : PipelineLocals} (h : Part lexems n part rest)
    (hl : SamePipeline prevOp prevOp' n part l l')
    (hb : pipelineBody (env.shift n) part prevOp' l' = some l₁') :
    ∃ l₁, pipelineBody env lexems prevOp l = some l₁ ∧
      SamePipeline prevOp prevOp' n part l₁ l₁' := by
  obtain ⟨r, pipePids', hn, rfl⟩ := Shell.new_of_pipelineBody hb
  obtain ⟨k₁, hn₁, hk₁, hle⟩ := h.new hl.launch hn
  rw [← add_assoc, ← hl.idx, ← hl.kernel.pipe.1] at hn₁
  obtain ⟨pipePids, hb₁⟩ := Shell.pipelineBody_eq hn₁
  exact ⟨_, hb₁, rfl, rfl, hle, rfl, hl.writefd, hk₁⟩

theorem SameShell.calcPipeline {s s' : Shell} {status status' : Option ℕ} {r : Shell × Option ℕ × ℕ}
    (h : Part lexems n part rest) (hs : SameShell s s')
    (hp : s.passes prevOp = s'.passes prevOp') (hi : i ≤ part.length)
    (hr : s'.calcPipeline (env.shift n) call status' part i prevOp' = some r) :
    ∃ s₁ status₁, s.calcPipeline env (call.shift n) status lexems (n + i) prevOp =
      some (s₁, status₁, n + r.2.2) ∧ SameShell s₁ r.1 := by
  obtain ⟨l', hl', -⟩ := Option.bind_eq_some_iff.mp hr
  rw [Shell.calcPipeline_eq hl'] at hr
  obtain rfl := Option.some.inj hr
  have hle : part.length ≤ lexems.length := h.length_le
  obtain ⟨l, hl, hsame⟩ : ∃ l, pipelineLoop env lexems prevOp lexems.length
      { shell := s, call := call.shift n, idx := n + i } = some l ∧
      SamePipeline prevOp prevOp' n part l l' := by
    refine whileLoop.simulate (R := fun l' l => SamePipeline prevOp prevOp' n part l l')
      (fun {l' l} hl => ?_) (fun {_ _ _} hl _ hb => hl.body h hb)
      ⟨rfl, rfl, hi, by simpa using hp, hs.writefd, hs.kernel⟩ hl'
      (decide_eq_false (Shell.pipelineLoop_done hl')) hle
    rw [hl.idx, decide_eq_decide]
    exact h.typeAt_iff .pipe hl.le (by decide)
  refine ⟨l.finish env, some (env.status l.call.pos), ?_, rfl, hsame.writefd, ?_⟩
  · rw [Shell.calcPipeline_eq hl, hsame.idx]
  · simp only [PipelineLocals.finish, hsame.call]
    exact hsame.kernel.fork.closeFd

theorem SameShell.round {l l' l₁' : CallsLocals} (h : Part lexems n part rest)
    (hs : SameShell l.shell l'.shell) (hi : l.idx = n + l'.idx)
    (hp : l.shell.passes l.prevOp = l'.shell.passes l'.prevOp)
    (hr : runs l.shell l.prevOp = runs l'.shell l'.prevOp)
    (hb : round (env.shift n) part l' = some l₁') :
    ∃ l₁, round env lexems l = some l₁ ∧ l₁.idx = n + l₁'.idx ∧ SameShell l₁.shell l₁'.shell := by
  simp only [Redirected.round, Option.bind_eq_bind, Option.bind_eq_some_iff] at hb
  obtain ⟨r, hn, hb⟩ := hb
  obtain ⟨k, hn₁, hk, hle⟩ := h.new hs.kernel hn
  rw [← hi, ← hs.prevReadfd, ← hs.writefd] at hn₁
  let s : Shell  := { l.shell with readfd := l.shell.prevReadfd, kernel := k }
  let s' : Shell := { l'.shell with readfd := l'.shell.prevReadfd, kernel := r.2.2 }
  have hs' : SameShell s s' := ⟨hs.prevReadfd, hs.writefd, hk⟩
  simp only [Redirected.round, hn₁, Option.bind_eq_bind, Option.bind_some,
    h.typeAt_iff .pipe hle (by decide)]
  split_ifs at hb ⊢
  · obtain ⟨r', hr', hb⟩ := Option.bind_eq_some_iff.mp hb
    obtain rfl := Option.some.inj hb
    obtain ⟨s₁, status₁, hr₁, hs₁⟩ := hs'.calcPipeline h hp hle hr'
    rw [hr₁]
    exact ⟨_, rfl, rfl, hs₁⟩
  · obtain rfl := Option.some.inj hb
    refine ⟨_, rfl, rfl, ?_⟩
    have hr' : runs s l.prevOp = runs s' l'.prevOp := hr
    rw [calcSingle_runs, calcSingle_runs, hr']
    split_ifs
    · rw [Shell.calcCommand_eq, Shell.calcCommand_eq]
      exact ⟨hs'.prevReadfd, hs'.writefd, hs'.kernel.fork.closeFd⟩
    · exact hs'

theorem follows_nil : Follows [] :=
  ⟨.inl (by simp [Ends]), by simp⟩

-- The rounds for a pipeline where it stands, and those for it as a line of its own. The induction
-- is on the number of lexems that are left.
theorem SameShell.rounds {l l' : CallsLocals} {c : Command} {cs : List Command}
    (h : Part lexems n part rest) (hd : part.drop l'.idx = c.lexems ++ (restLexems cs ++ []))
    (hop : FilePlace part l'.idx ∨ ∃ op, l'.prevOp = opType op)
    (hs : SameShell l.shell l'.shell) (hi : l.idx = n + l'.idx)
    (hp : l.shell.passes l.prevOp = l'.shell.passes l'.prevOp)
    (hr : runs l.shell l.prevOp = runs l'.shell l'.prevOp) :
    ∃ l₁ l₁' : CallsLocals, Rounds env lexems l (l₁.advance lexems) ∧ l₁.idx = n + part.length ∧
      Rounds (env.shift n) part l' (l₁'.advance part) ∧ l₁'.idx = part.length ∧
      SameShell l₁.shell l₁'.shell := by
  induction hlen : part.length - l'.idx using Nat.strong_induction_on generalizing c cs l l' with
  | _ len ih =>
    obtain ⟨l₁', m, n', rs, rs', cs', ns, files, files', i, hb', hleft, -, -, hm, hdone⟩ :=
      round_left (env.shift n) follows_nil hd hop
    obtain ⟨l₁, hb, hi₁, hs₁⟩ := hs.round h hi hp hr hb'
    have hlt' := lt_of_drop_command hd
    have hlt : l.idx < lexems.length := by
      have := congrArg List.length h.drop
      rw [List.length_drop, List.length_append] at this
      omega
    have hr₁' : Rounds (env.shift n) part l' (l₁'.advance part) := .of_round hlt' hb'
    have hr₁ : Rounds env lexems l (l₁.advance lexems) := .of_round hlt hb
    cases rs' with
    | nil        =>
      obtain rfl := hleft.stop rfl
      have hidx : l₁'.idx = n' :=
        hleft.place.idx.resolve_right (by simp [restLexems, Line.endLexems])
      have hend := hdone.place
      have hlen := congrArg List.length hd
      simp only [restLexems, List.flatMap_nil, List.length_nil, List.length_drop,
        List.length_append] at hend hlen
      have hidx' : l₁'.idx = part.length := by omega
      exact ⟨l₁, l₁', hr₁, by rw [hi₁, hidx'], hr₁', hidx', hs₁⟩
    | cons r rs' =>
      obtain rfl := hleft.idx_eq
      have hplace := hleft.place.drop
      have hget := h.getElem?_eq (lt_of_typeAt (typeAt_of_drop (l := opLexem r.mode) hplace))
      have ha' := advance_redirection hplace
      have ha : l₁.advance lexems =
          { l₁ with idx := l₁.idx + 1, prevOp := some (opLexem r.mode).type } := by
        rw [CallsLocals.advance, hi₁, hget, getElem?_of_drop (l := opLexem r.mode) hplace]
      have hlt₁ := Shell.calcCallsBody_lt (calcCallsBody_of_round hb')
      obtain ⟨l₂, l₂', hr₂, hi₂, hr₂', hi₂', hs₂⟩ := ih (part.length - (l₁'.advance part).idx)
        (by omega) (l := l₁.advance lexems) (drop_advance_redirection hplace)
        (.inl (filePlace_advance hplace)) (by simpa using hs₁)
        (by simp only [ha, ha', hi₁, add_assoc])
        (by rw [ha, ha']; cases r.mode <;> simp [Shell.passes, opLexem])
        (by rw [ha, ha']; cases r.mode <;> rfl) rfl
      exact ⟨l₂, l₂', hr₁.trans hr₂, hi₂, hr₁'.trans hr₂', hi₂', hs₂⟩

end Redirected
