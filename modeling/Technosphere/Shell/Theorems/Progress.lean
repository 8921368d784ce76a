import Technosphere.Shell.Basic

-- On every line, the loops of the shell run to their end within the rounds they are given.

variable {env : Environment} {lexems : List Lexem} {idx n : ℕ} {k : Kernel} {fd readfd writefd : ℤ}
  {type : LexemType} {mode : OpenMode}

theorem lt_of_typeAt (h : typeAt lexems idx = some type) : idx < lexems.length := by
  have ⟨_, hl, _⟩ := Option.map_eq_some_iff.mp h
  exact (List.getElem?_eq_some_iff.mp hl).1

namespace Call

theorem redirect_le {r : ℕ × ℤ × Kernel} (h : redirect env lexems type mode idx fd k = some r) :
    idx ≤ r.1 := by
  simp only [redirect] at h
  split_ifs at h
  · have ⟨_, _, hr⟩ := Option.bind_eq_some_iff.mp h
    obtain rfl := Option.some.inj hr
    exact Nat.le_add_right ..
  · obtain rfl := Option.some.inj h
    exact le_rfl

theorem redirects_le {r : ℕ × ℤ × ℤ × Kernel}
    (h : redirects env lexems idx readfd writefd k = some r) : idx ≤ r.1 := by
  have ⟨_, h₁, h⟩ := Option.bind_eq_some_iff.mp h
  have ⟨_, h₂, h⟩ := Option.bind_eq_some_iff.mp h
  have ⟨_, h₃, h⟩ := Option.bind_eq_some_iff.mp h
  obtain rfl := Option.some.inj h
  exact (redirect_le h₁).trans <| (redirect_le h₂).trans (redirect_le h₃)

theorem lt_argvEnd : idx < argvEnd lexems idx :=
  Nat.lt_of_lt_of_le (Nat.lt_succ_self _) (Nat.le_add_right ..)

theorem new_lt {r : Call × ℕ × Kernel} (h : new env lexems idx readfd writefd k = some r) :
    idx < r.2.1 := by
  have ⟨_, _, h⟩ := Option.bind_eq_some_iff.mp h
  have ⟨_, hr, h⟩ := Option.bind_eq_some_iff.mp h
  obtain rfl := Option.some.inj h
  refine lt_of_lt_of_le ?_ (redirects_le hr)
  split_ifs
  · exact lt_argvEnd.trans (Nat.lt_succ_self _)
  · exact lt_argvEnd

end Call

namespace Shell

variable {prevOp : Option LexemType}

theorem pipelineBody_lt {l l' : PipelineLocals} (h : pipelineBody env lexems prevOp l = some l') :
    l.idx < l'.idx := by
  have ⟨r, hr, h⟩ := Option.bind_eq_some_iff.mp h
  obtain rfl := Option.some.inj h
  exact (Nat.lt_succ_self _).trans (Call.new_lt hr)

theorem pipelineLoop_le {l l' : PipelineLocals}
    (h : pipelineLoop env lexems prevOp n l = some l') : l.idx ≤ l'.idx :=
  whileLoop.invariant (P := (l.idx ≤ ·.idx)) (fun hle _ hb => hle.trans (pipelineBody_lt hb).le)
    le_rfl h

theorem pipelineLoop_done {l l' : PipelineLocals}
    (h : pipelineLoop env lexems prevOp lexems.length l = some l') :
    typeAt lexems l'.idx ≠ some .pipe := by
  have hd := whileLoop.cond_eq_false (fun l => lexems.length - l.idx) ?_ (Nat.sub_le ..) h ?_
  · simpa using hd
  · intro l l' hc hb
    have := lt_of_typeAt (of_decide_eq_true hc)
    have := pipelineBody_lt hb
    omega
  · intro l hl
    by_contra hc
    have := lt_of_typeAt (of_decide_eq_true (eq_true_of_ne_false hc))
    omega

theorem calcPipeline_le {s : Shell} {call : Call} {r : Shell × Option ℕ × ℕ}
    (h : s.calcPipeline env call status lexems idx prevOp = some r) : idx ≤ r.2.2 := by
  have ⟨l, hl, h⟩ := Option.bind_eq_some_iff.mp h
  obtain rfl := Option.some.inj h
  exact pipelineLoop_le hl

theorem le_advance {l : CallsLocals} (h : idx ≤ l.idx) : idx ≤ (l.advance lexems).idx := by
  simp only [CallsLocals.advance]
  cases lexems[l.idx]? with
  | none   => exact h
  | some _ => exact Nat.le_succ_of_le h

theorem calcCallsBody_lt {l l' : CallsLocals} (h : calcCallsBody env lexems l = some l') :
    l.idx < l'.idx := by
  have ⟨r, hr, h⟩ := Option.bind_eq_some_iff.mp h
  have hlt := Call.new_lt hr
  simp only at h
  split_ifs at h
  · have ⟨p, hp, h⟩ := Option.bind_eq_some_iff.mp h
    obtain rfl := Option.some.inj h
    exact le_advance (hlt.trans_le (calcPipeline_le hp))
  · obtain rfl := Option.some.inj h
    exact le_advance hlt

theorem calcCallsLoop_done {s : Shell} {l : CallsLocals}
    (h : s.calcCallsLoop env lexems lexems.length = some l) : lexems.length ≤ l.idx := by
  have hd := whileLoop.cond_eq_false (fun l => lexems.length - l.idx) ?_ (Nat.sub_le ..) h ?_
  · simpa using hd
  · intro l l' hc hb
    have := of_decide_eq_true hc
    have := calcCallsBody_lt hb
    omega
  · intro l hl
    simp only [decide_eq_false_iff_not]
    omega

end Shell
