import Technosphere.Shell.Redirected
import Technosphere.Shell.Theorems.Calls

namespace Redirected

structure Ports where
  readfd  : ℤ
  writefd : ℤ
  kernel  : Kernel

namespace Ports

def port (x : Ports) : OpenMode → ℤ
  | .input  => x.readfd
  | .output => x.writefd

def set (x : Ports) (mode : OpenMode) (fd : ℤ) (kernel : Kernel) : Ports :=
  match mode with
  | .input  => { x with readfd := fd, kernel }
  | .output => { x with writefd := fd, kernel }

end Ports

def Redirection.apply (env : Environment) (n : ℕ) (r : Redirection) (x : Ports) : Ports :=
  let (fd, k) := x.kernel.openFile env (n + 1) r.file r.mode
  x.set r.mode fd k

def applyAll (env : Environment) : ℕ → List Redirection → Ports → Ports
  | _, [],      x => x
  | n, r :: rs, x => applyAll env (n + 2) rs (r.apply env n x)

-- The redirections that blocks for the given modes take one after the other.
def taken : List OpenMode → List Redirection → List Redirection
  | [],         _       => []
  | _ :: _,     []      => []
  | mode :: ms, r :: rs => if r.mode = mode then r :: taken ms rs else taken ms (r :: rs)

def modes : List OpenMode :=
  [.input, .output, .input]

def Ends (rest : List Lexem) : Prop :=
  ∀ l ∈ rest.head?, l.type = .pipe ∨ l.type = .and ∨ l.type = .or

variable {env : Environment} {lexems rest : List Lexem} {n m : ℕ} {k : Kernel} {x : Ports}
  {rs : List Redirection} {r : Redirection} {mode : OpenMode} {c : Command} {fd : ℤ}

def Stops (rest : List Lexem) : Prop :=
  ∀ l ∈ rest.head?, l.type ≠ .input ∧ l.type ≠ .output ∧ l.type ≠ .argument

theorem Ends.stops (hr : Ends rest) : Stops rest := by
  intro l hl
  rcases hr l hl with h | h | h <;> simp [h]

theorem Stops.typeAt_ne (hr : Stops rest) (h : lexems.drop n = rs.flatMap (·.lexems) ++ rest)
    (hm : ∀ r ∈ rs.head?, r.mode ≠ mode) : typeAt lexems n ≠ some (opLexem mode).type := by
  refine typeAt_ne_of_drop h ?_
  cases rs with
  | nil =>
    intro l hl
    obtain ⟨hi, ho, _⟩ := hr l hl
    cases mode with
    | input  => exact hi
    | output => exact ho
  | cons r rs =>
    have hm := hm r rfl
    revert hm
    cases mode <;> cases hr : r.mode <;> simp [Redirection.lexems, opLexem, hr]

theorem head?_redirections_ne {type : LexemType} (ht : type ≠ .input ∧ type ≠ .output)
    (hr : rs = [] → ∀ l ∈ rest.head?, l.type ≠ type) :
    ∀ l ∈ (rs.flatMap (·.lexems) ++ rest).head?, l.type ≠ type := by
  cases rs with
  | nil       => exact hr rfl
  | cons r rs =>
    cases hm : r.mode <;> simp [Redirection.lexems, opLexem, hm, ht.1.symm, ht.2.symm]

theorem Stops.head?_ne (hr : Stops rest) :
    ∀ l ∈ (rs.flatMap (·.lexems) ++ rest).head?, l.type ≠ .argument :=
  head?_redirections_ne (by decide) fun _ l hl => (hr l hl).2.2

theorem redirect_take (h : lexems.drop n = (r :: rs).flatMap (·.lexems) ++ rest)
    (hm : r.mode = mode) : Call.redirect env lexems (opLexem mode).type mode n fd k =
      some (n + 2, k.openFile env (n + 1) r.file mode) := by
  simp only [List.flatMap_cons, Redirection.lexems, List.cons_append, List.nil_append] at h
  rw [Call.redirect, typeAt_of_drop h, getElem?_of_drop (drop_succ h), hm]
  simp

theorem drop_redirection (h : lexems.drop n = (r :: rs).flatMap (·.lexems) ++ rest) :
    lexems.drop (n + 2) = rs.flatMap (·.lexems) ++ rest := by
  simp only [List.flatMap_cons, Redirection.lexems, List.cons_append, List.nil_append] at h
  exact drop_succ (drop_succ h)

def blocks (env : Environment) (lexems : List Lexem) :
    List OpenMode → ℕ → Ports → Option (ℕ × Ports)
  | [],         n, x => some (n, x)
  | mode :: ms, n, x =>
    (Call.redirect env lexems (opLexem mode).type mode n (x.port mode) x.kernel).bind
      fun r => blocks env lexems ms r.1 (x.set mode r.2.1 r.2.2)

theorem redirects_eq_blocks {readfd writefd : ℤ} :
    Call.redirects env lexems n readfd writefd k =
      (blocks env lexems modes n ⟨readfd, writefd, k⟩).map
        fun (n, x) => (n, x.readfd, x.writefd, x.kernel) := by
  simp [Call.redirects, blocks, modes, Ports.port, Ports.set, opLexem, Option.map_bind]

theorem set_port : x.set mode (x.port mode) x.kernel = x := by
  cases mode <;> rfl

theorem blocks_spec (env : Environment) (ms : List OpenMode) (x : Ports) (hr : Stops rest)
    (h : lexems.drop n = rs.flatMap (·.lexems) ++ rest) : blocks env lexems ms n x =
      some (n + 2 * (taken ms rs).length, applyAll env n (taken ms rs) x) := by
  induction ms generalizing n x rs with
  | nil => rfl
  | cons mode ms hi =>
    rw [blocks]
    cases rs with
    | nil =>
      rw [Call.redirect_of_ne (hr.typeAt_ne h (by simp)), Option.bind_some, set_port, hi x h]
      cases ms <;> rfl
    | cons r rs =>
      rw [taken]
      split_ifs with hm
      · rw [redirect_take h hm, Option.bind_some, hi _ (drop_redirection h), applyAll,
          Redirection.apply, hm, List.length_cons]
        simp [mul_add, add_assoc, add_comm]
      · rw [Call.redirect_of_ne (hr.typeAt_ne h (by simpa using hm)), Option.bind_some, set_port,
          hi x h]

theorem taken_isPrefix (ms : List OpenMode) (rs : List Redirection) : taken ms rs <+: rs := by
  induction ms generalizing rs with
  | nil => exact List.nil_prefix
  | cons mode ms hi =>
    cases rs with
    | nil => exact List.nil_prefix
    | cons r rs =>
      rw [taken]
      split_ifs
      · exact List.cons_prefix_cons.mpr ⟨rfl, hi rs⟩
      · exact hi (r :: rs)

theorem taken_eq_iff (ms : List OpenMode) (rs : List Redirection) :
    taken ms rs = rs ↔ (rs.map (·.mode)).Sublist ms := by
  induction ms generalizing rs with
  | nil => cases rs <;> simp [taken]
  | cons mode ms hi =>
    cases rs with
    | nil => simp [taken]
    | cons r rs =>
      rw [taken, List.map_cons]
      split_ifs with hm
      · rw [hm, List.cons_sublist_cons, ← hi, List.cons.injEq, eq_self, true_and]
      · rw [hi, List.map_cons, List.sublist_cons_iff]
        simp [hm]

theorem taken_of_handled (hc : c.Handled) : taken modes c.redirections = c.redirections :=
  (taken_eq_iff modes c.redirections).mpr hc

theorem length_lexems : c.lexems.length = c.argv.length + 2 * c.redirections.length := by
  simp [Command.lexems, Redirection.lexems, List.length_flatMap, mul_comm]

theorem applyAll_children : (applyAll env n rs x).kernel.children = x.kernel.children := by
  induction rs generalizing n x with
  | nil => rfl
  | cons r rs hi =>
    rw [applyAll, hi, Redirection.apply]
    cases r.mode <;> exact Kernel.openFile_children

theorem new_command_at (env : Environment) (readfd writefd : ℤ) (k : Kernel) {left : List Lexem}
    (h : lexems.drop n = c.argv.map (⟨·, .argument⟩) ++ left)
    (hl : ∀ l ∈ left.head?, l.type ≠ .argument)
    (hm : (if typeAt lexems (n + c.argv.length) = some .subprocess then n + c.argv.length + 1
      else n + c.argv.length) = m)
    (hd : lexems.drop m = rs.flatMap (·.lexems) ++ rest) (hr : Stops rest) :
    let x := applyAll env m (taken modes rs) ⟨readfd, writefd, k⟩
    Call.new env lexems n readfd writefd k =
      some (⟨x.readfd, x.writefd, c.argv, n⟩, m + 2 * (taken modes rs).length, x.kernel) := by
  intro x
  have hj : Call.argvEnd lexems n = n + c.argv.length := Call.argvEnd_words h hl
  simp only [Call.new, getElem?_of_drop h, hj, hm, redirects_eq_blocks,
    blocks_spec env modes _ hr hd, h, Option.bind_eq_bind, Option.bind_some, Option.map_some,
    Option.pure_def]
  simp [x, Function.comp_def]

theorem new_command (env : Environment) (readfd writefd : ℤ) (k : Kernel)
    (h : lexems.drop n = c.lexems ++ rest) (hr : Ends rest) :
    let x := applyAll env (n + c.argv.length) (taken modes c.redirections) ⟨readfd, writefd, k⟩
    Call.new env lexems n readfd writefd k =
      some (⟨x.readfd, x.writefd, c.argv, n⟩,
        n + c.argv.length + 2 * (taken modes c.redirections).length, x.kernel) := by
  rw [Command.lexems, List.append_assoc] at h
  have hd := drop_add_length h
  rw [List.length_map] at hd
  have hs : ∀ l ∈ rest.head?, l.type ≠ .subprocess := by
    intro l hl
    rcases hr l hl with h | h | h <;> simp [h]
  exact new_command_at env readfd writefd k h hr.stops.head?_ne
    (if_neg (typeAt_ne_of_drop hd (head?_redirections_ne (by decide) fun _ => hs))) hd hr.stops

end Redirected
