import Technosphere.Shell.Line

inductive Ends : List Lexem → Prop
  | nil        : Ends []
  | op         : (l.type = .pipe ∨ l.type = .and ∨ l.type = .or) → Ends (l :: ls)
  | background : Ends (Line.endLexems true)

-- `idx` is the place `n` at which the lexems `rest` are left, or it has passed over the `&` at the
-- end of the line.
structure At (lexems rest : List Lexem) (n idx : ℕ) : Prop where
  drop : lexems.drop n = rest
  idx  : idx = n ∨ rest = Line.endLexems true ∧ idx = n + 1

variable {env : Environment} {lexems ls rest : List Lexem} {l : Lexem} {n idx : ℕ} {k : Kernel}
  {c : Command} {fd readfd writefd : ℤ} {type : LexemType} {mode : OpenMode}

theorem getElem?_of_drop (h : lexems.drop n = l :: ls) : lexems[n]? = some l := by
  rw [← List.head?_drop, h, List.head?_cons]

theorem drop_succ (h : lexems.drop n = l :: ls) : lexems.drop (n + 1) = ls := by
  rw [← List.tail_drop, h, List.tail_cons]

theorem drop_add_length (h : lexems.drop n = ls ++ rest) : lexems.drop (n + ls.length) = rest := by
  rw [← List.drop_drop, h, List.drop_left]

theorem typeAt_drop : typeAt lexems n = (lexems.drop n).head?.map (·.type) := by
  rw [typeAt, List.head?_drop]

theorem typeAt_of_drop (h : lexems.drop n = l :: ls) : typeAt lexems n = some l.type := by
  rw [typeAt_drop, h, List.head?_cons, Option.map_some]

theorem typeAt_ne_of_drop (h : lexems.drop n = rest) (ht : ∀ l ∈ rest.head?, l.type ≠ type) :
    typeAt lexems n ≠ some type := by
  simpa [typeAt_drop, h] using ht

theorem Ends.head?_ne (h : Ends rest) (ht : type = .argument ∨ type = .input ∨ type = .output) :
    ∀ l ∈ rest.head?, l.type ≠ type := by
  cases h with
  | nil        => simp
  | op h       => rcases ht with rfl | rfl | rfl <;> rcases h with h | h | h <;> simp [h]
  | background => rcases ht with rfl | rfl | rfl <;> simp [Line.endLexems]

namespace At

theorem idx_eq (h : At lexems (l :: ls) n idx) (hl : l.type ≠ .subprocess) : idx = n := by
  rcases h.idx with hi | ⟨he, _⟩
  · exact hi
  · exact absurd (congrArg Lexem.type (List.cons.inj he).1) hl

theorem typeAt_ne (h : At lexems rest n idx) (ht : ∀ l ∈ rest.head?, l.type ≠ type) :
    typeAt lexems idx ≠ some type := by
  obtain ⟨hd, rfl | ⟨hr, rfl⟩⟩ := h
  · exact typeAt_ne_of_drop hd ht
  · have := drop_succ (hd.trans hr)
    simp [typeAt_drop, this]

end At

@[simp]
theorem Kernel.openFile_children {pos : ℕ} {path : String} :
    (k.openFile env pos path mode).2.children = k.children := by
  simp only [openFile]
  split_ifs <;> rfl

@[simp]
theorem Kernel.openFile_pipes {pos : ℕ} {path : String} :
    (k.openFile env pos path mode).2.pipes = k.pipes := by
  simp only [openFile]
  split_ifs <;> rfl

namespace Call

theorem redirect_pipes {r : ℕ × ℤ × Kernel} (h : redirect env lexems type mode idx fd k = some r) :
    r.2.2.pipes = k.pipes := by
  simp only [redirect] at h
  split_ifs at h
  · obtain ⟨file, _, h⟩ := Option.bind_eq_some_iff.mp h
    obtain rfl := Option.some.inj h
    exact Kernel.openFile_pipes
  · obtain rfl := Option.some.inj h
    rfl

theorem new_pipes {r : Call × ℕ × Kernel} (h : new env lexems idx readfd writefd k = some r) :
    r.2.2.pipes = k.pipes := by
  simp only [new, redirects, Option.bind_eq_bind, Option.bind_eq_some_iff, Option.pure_def,
    Option.some.injEq] at h
  obtain ⟨_, _, _, ⟨r₁, h₁, r₂, h₂, r₃, h₃, rfl⟩, rfl⟩ := h
  exact (redirect_pipes h₃).trans ((redirect_pipes h₂).trans (redirect_pipes h₁))

theorem redirect_of_ne (h : typeAt lexems idx ≠ some type) :
    redirect env lexems type mode idx fd k = some (idx, fd, k) := by
  simp [redirect, h]

theorem redirect_of_eq (env : Environment) (mode : OpenMode) (fd : ℤ) (k : Kernel) {file : Lexem}
    (h : lexems.drop idx = l :: file :: rest) (ht : l.type = type) :
    ∃ fd' k', redirect env lexems type mode idx fd k = some (idx + 2, fd', k') ∧
      k'.children = k.children ∧ lexems.drop (idx + 2) = rest := by
  refine ⟨(k.openFile env (idx + 1) file.lexem mode).1,
    (k.openFile env (idx + 1) file.lexem mode).2, ?_, k.openFile_children, drop_succ (drop_succ h)⟩
  simp [redirect, typeAt_of_drop h, ht, getElem?_of_drop (drop_succ h)]

theorem redirects_spec (env : Environment) (readfd writefd : ℤ) (k : Kernel)
    {rs : Redirections} (h : At lexems (rs.lexems ++ rest) n idx) (hr : Ends rest) :
    ∃ idx' readfd' writefd' k',
      redirects env lexems idx readfd writefd k = some (idx', readfd', writefd', k') ∧
      k'.children = k.children ∧ At lexems rest (n + rs.lexems.length) idx' ∧
      (rs = .none → readfd' = readfd ∧ writefd' = writefd ∧ k' = k) := by
  have hi {n : ℕ} (hd : lexems.drop n = rest) : typeAt lexems n ≠ some .input :=
    At.typeAt_ne ⟨hd, .inl rfl⟩ (hr.head?_ne (by simp))
  have ho {n : ℕ} (hd : lexems.drop n = rest) : typeAt lexems n ≠ some .output :=
    At.typeAt_ne ⟨hd, .inl rfl⟩ (hr.head?_ne (by simp))
  cases rs with
  | none =>
    have hi := h.typeAt_ne (hr.head?_ne (show LexemType.input = _ ∨ _ by simp))
    have ho := h.typeAt_ne (hr.head?_ne (show LexemType.output = _ ∨ _ by simp))
    refine ⟨idx, readfd, writefd, k, ?_, rfl, h, by simp⟩
    simp [redirects, redirect_of_ne hi, redirect_of_ne ho]
  | input i =>
    obtain rfl := h.idx_eq (by simp)
    have ⟨fd, k', h₁, hk, hd⟩ := redirect_of_eq env .input readfd k h.drop rfl
    refine ⟨idx + 2, fd, writefd, k', ?_, hk, ⟨hd, .inl rfl⟩, by simp⟩
    simp only [redirects, h₁, redirect_of_ne (hi hd), redirect_of_ne (ho hd), Option.bind_some,
      Option.bind_eq_bind, Option.pure_def]
  | output o =>
    obtain rfl := h.idx_eq (by simp)
    have hi' : typeAt lexems idx ≠ some .input := by simp [typeAt_of_drop h.drop]
    have ⟨fd, k', h₁, hk, hd⟩ := redirect_of_eq env .output writefd k h.drop rfl
    refine ⟨idx + 2, readfd, fd, k', ?_, hk, ⟨hd, .inl rfl⟩, by simp⟩
    simp only [redirects, h₁, redirect_of_ne hi', redirect_of_ne (hi hd), Option.bind_some,
      Option.bind_eq_bind, Option.pure_def]
  | inputOutput i o =>
    obtain rfl := h.idx_eq (by simp)
    have ⟨fd₁, k₁, h₁, hk₁, hd₁⟩ := redirect_of_eq env .input readfd k h.drop rfl
    have ⟨fd₂, k₂, h₂, hk₂, hd₂⟩ := redirect_of_eq env .output writefd k₁ hd₁ rfl
    refine ⟨idx + 4, fd₁, fd₂, k₂, ?_, hk₂.trans hk₁, ⟨hd₂, .inl rfl⟩, by simp⟩
    simp only [redirects, h₁, h₂, redirect_of_ne (hi hd₂), Option.bind_some, Option.bind_eq_bind,
      Option.pure_def]
  | outputInput o i =>
    obtain rfl := h.idx_eq (by simp)
    have hi' : typeAt lexems idx ≠ some .input := by simp [typeAt_of_drop h.drop]
    have ⟨fd₁, k₁, h₁, hk₁, hd₁⟩ := redirect_of_eq env .output writefd k h.drop rfl
    have ⟨fd₂, k₂, h₂, hk₂, hd₂⟩ := redirect_of_eq env .input readfd k₁ hd₁ rfl
    refine ⟨idx + 4, fd₂, fd₁, k₂, ?_, hk₂.trans hk₁, ⟨hd₂, .inl rfl⟩, by simp⟩
    simp only [redirects, h₁, h₂, redirect_of_ne hi', Option.bind_some, Option.bind_eq_bind,
      Option.pure_def]

theorem argvEnd_words {w : String} {ws : List String}
    (h : lexems.drop idx = (w :: ws).map (⟨·, .argument⟩) ++ ls)
    (hl : ∀ l ∈ ls.head?, l.type ≠ .argument) : argvEnd lexems idx = idx + (w :: ws).length := by
  have hs : ls.takeWhile (·.type = .argument) = [] := by
    cases ls with
    | nil       => rfl
    | cons l ls => simpa using hl l
  have hd : lexems.drop (idx + 1) = ws.map (⟨·, .argument⟩) ++ ls := drop_succ h
  rw [argvEnd, hd, List.takeWhile_append_of_pos (by simp), hs]
  simp
  omega

-- What the constructor of a call makes of a command at the place `idx` that `rest` follows.
structure Parsed (lexems rest : List Lexem) (idx : ℕ) (c : Command) (readfd writefd : ℤ)
    (k : Kernel) (r : Call × ℕ × Kernel) : Prop where
  pos      : r.1.pos = idx
  argv     : r.1.argv = c.argv
  children : r.2.2.children = k.children
  next     : At lexems rest (idx + c.lexems.length) r.2.1
  plain    : c.redirections = .none → r.1.readfd = readfd ∧ r.1.writefd = writefd ∧ r.2.2 = k

theorem Ends.redirections (hr : Ends rest) :
    ∀ l ∈ (c.redirections.lexems ++ rest).head?, l.type ≠ .argument := by
  cases hc : c.redirections with
  | none => simpa [Redirections.lexems] using hr.head?_ne (by simp)
  | input | output | inputOutput | outputInput =>
    simp [Redirections.lexems, Redirections.inputLexems, Redirections.outputLexems]

theorem at_redirections (h : lexems.drop n = c.redirections.lexems ++ rest) (hr : Ends rest) :
    At lexems (c.redirections.lexems ++ rest) n
      (if typeAt lexems n = some .subprocess then n + 1 else n) := by
  refine ⟨h, ?_⟩
  split_ifs with ht
  · right
    simp only [typeAt_drop, h] at ht
    cases hc : c.redirections with
    | none =>
      simp only [hc, Redirections.lexems, List.nil_append] at ht ⊢
      cases hr with
      | nil        => simp at ht
      | op ho      => rcases ho with ho | ho | ho <;> simp [ho] at ht
      | background => simp
    | input | output | inputOutput | outputInput =>
      simp [hc, Redirections.lexems, Redirections.inputLexems, Redirections.outputLexems] at ht
  · exact .inl rfl

theorem new_command (env : Environment) (readfd writefd : ℤ) (k : Kernel)
    (h : lexems.drop idx = c.lexems ++ rest) (hr : Ends rest) :
    ∃ r, new env lexems idx readfd writefd k = some r ∧
      Parsed lexems rest idx c readfd writefd k r := by
  rw [Command.lexems, List.append_assoc] at h
  have hj : _ = idx + c.argv.length := argvEnd_words h (Ends.redirections hr)
  have hd := drop_add_length h
  rw [List.length_map] at hd
  have ⟨idx', readfd', writefd', k', hs, hk, ha, hp⟩ := redirects_spec env readfd writefd
    k (at_redirections hd hr) hr
  refine ⟨⟨⟨readfd', writefd', c.argv, idx⟩, idx', k'⟩, ?_, rfl, rfl, hk, ?_, hp⟩
  · simp [new, getElem?_of_drop h, hj, hs, h, Function.comp_def]
  · simpa [Command.lexems, add_assoc] using ha

end Call
