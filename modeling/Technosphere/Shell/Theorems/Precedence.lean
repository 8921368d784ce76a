import Technosphere.Shell.Theorems.Balance

open AndOr (Op selects)
open Shell (opType)

namespace Redirected

variable {env : Environment} {s : Shell} {line : Line} {st : ExitStat} {n : ℕ} {p : Pipeline}
  {c : Command} {cs : List Command} {behind : Bool} {is : List (Option Op × ℕ × Pipeline)}
  {lexems rest : List Lexem} {ps : List (Op × Pipeline)} {stage stage' : Stage}

section Places

open Redirected.Pipeline (stagesFrom restLexems)

theorem stagesFrom_drop (h : lexems.drop n = c.lexems ++ (restLexems cs ++ rest)) (hr : Ends rest)
    (hs : stage ∈ stagesFrom behind n c cs) :
    ∃ rest, Ends rest ∧ lexems.drop stage.pos = stage.command.lexems ++ rest := by
  induction cs generalizing n c behind with
  | nil =>
    obtain rfl := List.mem_singleton.mp hs
    exact ⟨rest, hr, h⟩
  | cons c' cs hi =>
    rcases List.mem_cons.mp hs with rfl | hs
    · exact ⟨_, ends_restLexems hr, h⟩
    · have hd := drop_add_length h
      rw [restLexems_cons, List.cons_append, List.append_assoc] at hd
      exact hi (drop_succ hd) hs

theorem places_drop (h : lexems.drop n = joined Pipeline.lexems ps)
    {item : Option Op × ℕ × Pipeline} (hi : item ∈ places Pipeline.lexems n ps) :
    ∃ ps, lexems.drop item.2.1 = item.2.2.lexems ++ joined Pipeline.lexems ps := by
  induction ps generalizing n with
  | nil => simp [places] at hi
  | cons p ps ih =>
    rw [joined_cons] at h
    rcases List.mem_cons.mp hi with rfl | hi
    · exact ⟨ps, drop_succ h⟩
    · exact ih (drop_add_length (drop_succ h)) hi

theorem items_drop {item : Option Op × ℕ × Pipeline} (hi : item ∈ line.items) :
    ∃ ps, line.lexems.drop item.2.1 = item.2.2.lexems ++ joined Pipeline.lexems ps := by
  rcases List.mem_cons.mp hi with rfl | hi
  · exact ⟨line.rest, rfl⟩
  · exact places_drop List.drop_left hi

theorem stages_drop (hs : stage ∈ line.stages) :
    ∃ rest, Ends rest ∧ line.lexems.drop stage.pos = stage.command.lexems ++ rest := by
  obtain ⟨⟨op, n, p⟩, hi, hs⟩ := List.mem_flatMap.mp hs
  obtain ⟨ps, hd⟩ := items_drop hi
  rw [Pipeline.lexems, List.append_assoc] at hd
  exact stagesFrom_drop hd ends_joined hs

theorem mem_stagesFrom_pos (hs : stage ∈ stagesFrom behind n c cs) :
    n ≤ stage.pos ∧ stage.pos < n + (c.lexems ++ restLexems cs).length := by
  have hc (c : Command) : 0 < c.lexems.length := by simp [length_lexems, Command.argv]
  have := hc c
  induction cs generalizing n c behind with
  | nil =>
    obtain rfl := List.mem_singleton.mp hs
    simpa [restLexems]
  | cons c' cs hi =>
    simp only [List.length_append] at hi ⊢
    rcases List.mem_cons.mp hs with rfl | hs
    · simp only
      omega
    · have := hi hs (hc c')
      simp only [restLexems_cons, List.length_cons, List.length_append] at *
      omega

theorem stagesFrom_pairwise : (stagesFrom behind n c cs).Pairwise (·.pos < ·.pos) := by
  induction cs generalizing n c behind with
  | nil => simp [stagesFrom]
  | cons c' cs hi =>
    refine List.pairwise_cons.mpr ⟨fun stage hs => ?_, hi⟩
    have := (mem_stagesFrom_pos hs).1
    simp only
    omega

theorem mem_places_pos {item : Option Op × ℕ × Pipeline}
    (hi : item ∈ places Pipeline.lexems n ps) : n < item.2.1 := by
  induction ps generalizing n with
  | nil => simp [places] at hi
  | cons p ps ih =>
    rcases List.mem_cons.mp hi with rfl | hi
    · exact Nat.lt_succ_self n
    · have := ih hi
      omega

theorem places_pairwise : (places Pipeline.lexems n ps).Pairwise
    fun item item' => item.2.1 + item.2.2.lexems.length < item'.2.1 := by
  induction ps generalizing n with
  | nil => simp [places]
  | cons p ps ih => exact List.pairwise_cons.mpr ⟨fun item hi => mem_places_pos hi, ih⟩

theorem stages_pairwise (line : Line) : line.stages.Pairwise (·.pos < ·.pos) := by
  refine List.pairwise_flatMap.mpr ⟨fun item _ => stagesFrom_pairwise, ?_⟩
  have hi : line.items.Pairwise
      fun item item' => item.2.1 + item.2.2.lexems.length < item'.2.1 := by
    refine List.pairwise_cons.mpr ⟨fun item hi => ?_, places_pairwise⟩
    have := mem_places_pos hi
    simpa using this
  refine hi.imp fun {item item'} hlt stage hs stage' hs' => ?_
  have h := (mem_stagesFrom_pos hs).2
  have h' := (mem_stagesFrom_pos hs').1
  exact (h.trans hlt).trans_le h'

theorem stage_eq_of_pos (hs : stage ∈ line.stages) (hs' : stage' ∈ line.stages)
    (h : stage.pos = stage'.pos) : stage = stage' := by
  have hn : (line.stages.map (·.pos)).Nodup := by
    rw [List.nodup_iff_pairwise_ne, List.pairwise_map]
    exact (stages_pairwise line).imp ne_of_lt
  exact List.inj_on_of_nodup_map hn hs hs' h

end Places

def openedFiles (env : Environment) : ℕ → List Redirection → List (String × OpenMode)
  | _, []      => []
  | n, r :: rs =>
    (if env.opens (n + 1) then [(r.file, r.mode)] else []) ++ openedFiles env (n + 2) rs

def Consumed (env : Environment) (lexems : List Lexem) (s : Stage) : Prop :=
  ∀ readfd writefd k, ∃ call k',
    Call.new env lexems s.pos readfd writefd k = some (call, s.pos + s.command.lexems.length, k') ∧
      call.argv = s.command.argv ∧ k'.opened = k.opened ++
        openedFiles env (s.pos + s.command.argv.length) s.command.redirections

def standard : OpenMode → ℤ
  | .input  => 0
  | .output => 1

def Redirects (env : Environment) (s : Stage) (child : Child) : Prop :=
  ∀ mode e, s.command.last mode s.pos = some e → env.opens e.1 = true →
    child.fds.find? (standard mode) = some (.opened e.2 mode)

-- No word and no redirection of a line is dropped: the commands and the operators of the line are
-- read as such, what and-or evaluation selects is started, and the processes have the redirections
-- of their commands.
structure Respected (env : Environment) (s : Shell) (line : Line) : Prop where
  consumed  : ∀ stage ∈ line.stages, Consumed env line.lexems stage
  operators : ∀ i (hi : i < line.items.length), ∃ l, s.calcCallsLoop env line.lexems i = some l ∧
                l.idx = line.items[i].2.1 ∧ l.prevOp = opType line.items[i].1
  run       : ∃ s' r children, s.calcCalls env line.lexems = some (s', r) ∧
                s'.kernel.children = s.kernel.children ++ children ∧
                (∀ x ∈ Line.selected env {} line.items, ∀ stage ∈ x.2.stages x.1,
                  ∃ child ∈ children, child.stage = (stage.pos, stage.command.argv)) ∧
                ∀ child ∈ children, ∀ stage ∈ line.stages, child.pos = stage.pos →
                  Redirects env stage child

-- What the shell takes a line for, which is the same under this condition.
structure Plain (env : Environment) (line : Line) : Prop where
  handled : line.Handled
  reached : ∀ x ∈ Line.selected env {} line.items, (true, x) ∈ Line.reached env {} line.items
  outputs : ∀ stage ∈ Line.launched env {} line.items, stage.before = true →
              stage.command.opens env .output stage.pos = false

theorem applyAll_opened {rs : List Redirection} {x : Ports} :
    (applyAll env n rs x).kernel.opened = x.kernel.opened ++ openedFiles env n rs := by
  induction rs generalizing n x with
  | nil => simp [applyAll, openedFiles]
  | cons r rs hi =>
    rw [applyAll, hi, openedFiles, ← List.append_assoc]
    congr 1
    cases hm : r.mode <;> by_cases ho : env.opens (n + 1) = true <;>
      simp [Redirection.apply, Kernel.openFile, Ports.set, hm, ho]

theorem consumed_iff (env : Environment) (h : lexems.drop stage.pos = stage.command.lexems ++ rest)
    (hr : Ends rest) : Consumed env lexems stage ↔ stage.command.Handled := by
  constructor
  · intro hc
    obtain ⟨call, k', hn, _, _⟩ := hc 0 1 { fds := ∅ }
    rw [new_command env 0 1 _ h hr, length_lexems] at hn
    have hl : (taken modes stage.command.redirections).length =
        stage.command.redirections.length := by
      simp only [Option.some.injEq, Prod.mk.injEq] at hn
      omega
    exact (taken_eq_iff _ _).mp ((taken_isPrefix _ _).eq_of_length hl)
  · intro hc readfd writefd k
    have hn := new_command env readfd writefd k h hr
    rw [taken_of_handled hc, add_assoc, ← length_lexems] at hn
    exact ⟨_, _, hn, rfl, applyAll_opened⟩

theorem consumed_stages_iff :
    (∀ stage ∈ line.stages, Consumed env line.lexems stage) ↔ line.Handled := by
  refine forall₂_congr fun stage hs => ?_
  obtain ⟨rest, hr, hd⟩ := stages_drop hs
  exact consumed_iff env hd hr

theorem operators_spec (env : Environment) (hs : Idle s) (hc : line.Handled) :
    ∀ i (hi : i < line.items.length), ∃ l, s.calcCallsLoop env line.lexems i = some l ∧
      l.idx = line.items[i].2.1 ∧ l.prevOp = opType line.items[i].1 := by
  intro i hi
  obtain ⟨l, hl, hm⟩ := midway_rounds env hs hc.items i
  have hb := hm.before
  rw [List.drop_eq_getElem_cons hi] at hb
  exact ⟨l, hl, hb.1, hb.2.1⟩

theorem mem_stages_of_started {xs : List (Bool × ℕ × Pipeline)}
    (h : stage ∈ xs.flatMap fun (b, n, p) => started b n p) :
    stage ∈ xs.flatMap fun x => x.2.2.stages x.2.1 := by
  obtain ⟨⟨b, n, p⟩, hx, hs⟩ := List.mem_flatMap.mp h
  refine List.mem_flatMap.mpr ⟨_, hx, ?_⟩
  cases b with
  | true  => exact hs
  | false => exact List.mem_of_mem_tail hs

theorem mem_stages_of_launched (h : stage ∈ Line.launched env {} line.items) :
    stage ∈ line.stages := by
  rw [stages_eq_flatMap env {}]
  exact mem_stages_of_started h

theorem mem_reached_of_selected {x : ℕ × Pipeline} (h : x ∈ Line.selected env {} line.items) :
    ∃ b, (b, x) ∈ Line.reached env {} line.items := by
  obtain ⟨op, ho⟩ := AndOr.mem_of_mem_selected h
  have hm : x ∈ (Line.reached env {} line.items).map (·.2) := by
    rw [map_reached]
    exact List.mem_map.mpr ⟨_, ho, rfl⟩
  obtain ⟨⟨b, y⟩, hy, rfl⟩ := List.mem_map.mp hm
  exact ⟨b, hy⟩

theorem stages_eq_cons (n : ℕ) (p : Pipeline) :
    ∃ first, p.stages n = first :: (p.stages n).tail ∧ first.pos = n := by
  obtain ⟨c, cs⟩ := p
  cases cs <;> exact ⟨_, rfl, rfl⟩

theorem pos_ne_of_launched (h : (false, n, p) ∈ Line.reached env {} line.items)
    (hs : stage ∈ Line.launched env {} line.items) : stage.pos ≠ n := by
  have hp := stages_pairwise line
  obtain ⟨xs, ys, hxy⟩ := List.append_of_mem h
  obtain ⟨first, hf, rfl⟩ := stages_eq_cons n p
  rw [stages_eq_flatMap env {}, hxy, List.flatMap_append, List.flatMap_cons] at hp
  simp only at hp
  rw [hf, List.cons_append, List.pairwise_append, List.pairwise_cons] at hp
  obtain ⟨_, ⟨hafter, _⟩, hbefore⟩ := hp
  have hs : stage ∈ (xs ++ (false, first.pos, p) :: ys).flatMap fun (b, n, p) => started b n p :=
    hxy ▸ hs
  rw [List.flatMap_append, List.flatMap_cons, List.mem_append, List.mem_append] at hs
  rcases hs with hs | hs | hs
  · exact (hbefore stage (mem_stages_of_started hs) first List.mem_cons_self).ne
  · exact (hafter stage (List.mem_append_left _ hs)).ne'
  · exact (hafter stage (List.mem_append_right _ (mem_stages_of_started hs))).ne'

section Forall₂

variable {α : Type u} {β : Type v} {R : α → β → Prop} {as : List α} {bs : List β} {a : α} {b : β}

theorem exists_of_forall₂_left (h : List.Forall₂ R as bs) (ha : a ∈ as) : ∃ b ∈ bs, R a b := by
  induction h with
  | nil => simp at ha
  | @cons a' b' as bs hab _ hi =>
    rcases List.mem_cons.mp ha with rfl | ha
    · exact ⟨b', List.mem_cons_self, hab⟩
    · obtain ⟨b, hb, hr⟩ := hi ha
      exact ⟨b, List.mem_cons_of_mem _ hb, hr⟩

theorem exists_of_forall₂_right (h : List.Forall₂ R as bs) (hb : b ∈ bs) : ∃ a ∈ as, R a b :=
  exists_of_forall₂_left h.flip hb

end Forall₂

theorem selected_started_iff {children : List Child}
    (hw : List.Forall₂ (Wired env) (Line.launched env {} line.items) children) :
    (∀ x ∈ Line.selected env {} line.items, ∀ stage ∈ x.2.stages x.1,
      ∃ child ∈ children, child.stage = (stage.pos, stage.command.argv)) ↔
    ∀ x ∈ Line.selected env {} line.items, (true, x) ∈ Line.reached env {} line.items := by
  refine forall₂_congr fun x hx => ⟨fun h => ?_, fun h stage hs => ?_⟩
  · obtain ⟨b, hb⟩ := mem_reached_of_selected hx
    cases b with
    | true => exact hb
    | false =>
      obtain ⟨first, hf, hpos⟩ := stages_eq_cons x.1 x.2
      obtain ⟨child, hc, hst⟩ := h first (by rw [hf]; exact List.mem_cons_self)
      obtain ⟨stage, hs, hwd⟩ := exists_of_forall₂_right hw hc
      have he : stage.pos = first.pos := congrArg Prod.fst (hwd.stage.symm.trans hst)
      exact absurd (he.trans hpos) (pos_ne_of_launched hb hs)
  · have hl : stage ∈ Line.launched env {} line.items := List.mem_flatMap.mpr ⟨_, h, hs⟩
    obtain ⟨child, hc, hwd⟩ := exists_of_forall₂_left hw hl
    exact ⟨child, hc, hwd.stage⟩

theorem Wired.redirects {child : Child} (h : Wired env stage child)
    (ho : stage.before = true → stage.command.opens env .output stage.pos = false) :
    Redirects env stage child := by
  rintro (_ | _) e he hop
  · exact h.input e he hop
  · cases hb : stage.before with
    | false => exact h.output hb e he hop
    | true =>
      have := ho hb
      simp [Command.opens, he, hop] at this

theorem Wired.not_redirects {child : Child} (h : Wired env stage child)
    (hb : stage.before = true) (ho : stage.command.opens env .output stage.pos = true) :
    ¬Redirects env stage child := by
  intro hr
  obtain ⟨m, hm⟩ := h.pipe hb
  rw [Command.opens] at ho
  cases he : stage.command.last .output stage.pos with
  | none => simp [he] at ho
  | some e =>
    have hf := hr .output e he (by simpa [he] using ho)
    rw [standard, hm] at hf
    cases hf

theorem redirects_iff {children : List Child}
    (hw : List.Forall₂ (Wired env) (Line.launched env {} line.items) children) :
    (∀ child ∈ children, ∀ stage ∈ line.stages, child.pos = stage.pos →
      Redirects env stage child) ↔
    ∀ stage ∈ Line.launched env {} line.items, stage.before = true →
      stage.command.opens env .output stage.pos = false := by
  constructor
  · intro h stage hs hb
    obtain ⟨child, hc, hwd⟩ := exists_of_forall₂_left hw hs
    have hr := h child hc stage (mem_stages_of_launched hs) (congrArg Prod.fst hwd.stage)
    exact eq_false_of_ne_true fun ho => hwd.not_redirects hb ho hr
  · intro h child hc stage hs hpos
    obtain ⟨stage', hs', hwd⟩ := exists_of_forall₂_right hw hc
    have hpos' : child.pos = stage'.pos := congrArg Prod.fst hwd.stage
    obtain rfl := stage_eq_of_pos hs (mem_stages_of_launched hs') (hpos.symm.trans hpos')
    exact hwd.redirects (h stage hs')

theorem respected_iff (env : Environment) (hs : Idle s) (line : Line) :
    Respected env s line ↔ Plain env line := by
  constructor
  · intro h
    have hc := consumed_stages_iff.mp h.consumed
    obtain ⟨s₁, r₁, children₁, hr₁, hch₁, hsel, hred⟩ := h.run
    obtain ⟨s₂, r₂, children₂, hr₂, _, hch₂, hw, _⟩ := calcCalls_spec env hs hc.items
    obtain ⟨rfl, rfl⟩ := Prod.mk.inj (Option.some.inj (hr₁.symm.trans hr₂))
    obtain rfl := List.append_cancel_left (hch₁.symm.trans hch₂)
    exact ⟨hc, (selected_started_iff hw).mp hsel, (redirects_iff hw).mp hred⟩
  · intro h
    obtain ⟨s', r, children, hr, _, hch, hw, _⟩ := calcCalls_spec env hs h.handled.items
    exact {
      consumed  := consumed_stages_iff.mpr h.handled
      operators := operators_spec env hs h.handled
      run       := ⟨s', r, children, hr, hch, (selected_started_iff hw).mpr h.reached,
                    (redirects_iff hw).mpr h.outputs⟩ }

theorem respected_iff_of_three :
    let env  : Environment := ⟨fun _ => true, fun _ => 0⟩
    let line : Line        := ⟨⟨⟨"a", [], [⟨.input, "f"⟩, ⟨.input, "h"⟩]⟩,
      [⟨"b", [], [⟨.output, "i"⟩]⟩]⟩, [(.and, ⟨⟨"c", [], []⟩, []⟩)]⟩
    Respected env initialShell line ↔ Plain env line :=
  respected_iff _ idle_initialShell _

-- In `a > f > g` the second `>` is taken for an operator between two commands.
theorem not_respected_of_two_outputs :
    let env  : Environment := ⟨fun _ => true, fun _ => 0⟩
    let line : Line        := ⟨⟨⟨"a", [], [⟨.output, "f"⟩, ⟨.output, "g"⟩]⟩, []⟩, []⟩
    (initialShell.calcCalls env line.lexems).map (·.1.kernel.opened) = some [("f", .output)] ∧
      ¬Respected env initialShell line := by
  refine ⟨by decide, fun h => ?_⟩
  have := consumed_stages_iff.mp h.consumed
  revert this
  decide

end Redirected
