import Technosphere.Shell.Theorems.PipeEnds
import Technosphere.Shell.Theorems.Redirects

namespace Redirected

-- What the descriptors of a call refer to, if the call has been given them, and how many
-- descriptors have been lost on the way.
structure Plugs where
  input  : Option File := none
  output : Option File := none
  lost   : ℕ := 0

def Redirection.plug (env : Environment) (n : ℕ) (r : Redirection) (x : Plugs) : Plugs :=
  let f := if env.opens (n + 1) then some (File.opened r.file r.mode) else none
  match r.mode with
  | .input  => { x with input := f, lost := x.lost + x.input.isSome.toNat }
  | .output => { x with output := f, lost := x.lost + x.output.isSome.toNat }

def plugAll (env : Environment) : ℕ → List Redirection → Plugs → Plugs
  | _, [],      x => x
  | n, r :: rs, x => plugAll env (n + 2) rs (r.plug env n x)

section Tables

structure Grown (fds : Descriptors File) (m : ℕ) (d : Descriptors File) : Prop where
  keeps  : ∀ fd f, fds.find? fd = some f → d.find? fd = some f
  nonneg : ∀ fd < 0, d.find? fd = none
  length : d.entries.length = fds.entries.length + m

-- The descriptor `fd` has been opened for a call, or it is the given one, or opening it has failed.
def Has (fds d : Descriptors File) (default fd : ℤ) : Option File → Prop
  | some f => fds.find? fd = none ∧ d.find? fd = some f
  | none   => fd = default ∨ fd = -1

variable {fds d : Descriptors File} {m : ℕ} {f g : File} {fd default : ℤ} {o : Option File}

theorem Grown.none_of_none (h : Grown fds m d) (hf : d.find? fd = none) : fds.find? fd = none := by
  cases ho : fds.find? fd with
  | none   => rfl
  | some f => simp [h.keeps fd f ho] at hf

theorem Grown.add (h : Grown fds m d) (f : File) : Grown fds (m + 1) (d.add f).2 where
  keeps fd g hg := Descriptors.find?_add_of_some (h.keeps fd g hg)
  nonneg fd hfd := by
    rw [Descriptors.find?_add, if_neg, h.nonneg fd hfd]
    rintro rfl
    exact absurd hfd Descriptors.lowestFree_nonneg.not_gt
  length := by rw [Descriptors.length_add, h.length, add_assoc]

theorem Has.add (h : Has fds d default fd o) (f : File) : Has fds (d.add f).2 default fd o := by
  cases o with
  | none   => exact h
  | some g => exact ⟨h.1, Descriptors.find?_add_of_some h.2⟩

theorem Grown.has_add (h : Grown fds m d) (f : File) :
    Has fds (d.add f).2 default (d.add f).1 (some f) :=
  ⟨h.none_of_none Descriptors.find?_lowestFree, by rw [Descriptors.find?_add]; exact if_pos rfl⟩

theorem Has.lowestFree_ne (h : Has fds d default fd (some f)) : d.lowestFree ≠ fd := by
  rintro rfl
  have := h.2
  simp [Descriptors.find?_lowestFree] at this

theorem Grown.release (h : Grown fds (m + o.isSome.toNat) d) (ho : Has fds d default fd o)
    (hd : (fds.find? default).isSome) : Grown fds m (if fd ≠ default then d.close fd else d) := by
  cases o with
  | none =>
    split_ifs with hne
    · have hn := h.nonneg fd (by rw [ho.resolve_left hne]; decide)
      rw [Descriptors.close_of_none hn]
      exact h
    · exact h
  | some f =>
    have hne : fd ≠ default := Descriptors.ne_of_find? ho.1 hd
    rw [if_pos hne]
    refine ⟨fun fd' g hg => ?_, fun fd' hfd' => ?_, ?_⟩
    · have hne' : fd' ≠ fd := by
        rintro rfl
        simp [ho.1] at hg
      simpa [hne'] using h.keeps fd' g hg
    · rw [Descriptors.find?_close]
      split_ifs
      · rfl
      · exact h.nonneg fd' hfd'
    · have := Descriptors.length_close ho.2
      have := h.length
      simp only [Option.isSome_some, Bool.toNat_true] at *
      omega

theorem Has.release {default' fd' : ℤ} {o' : Option File} (h : Has fds d default' fd' o')
    (hg : Grown fds m d) (ho : Has fds d default fd o) (hne : o.isSome → o'.isSome → fd ≠ fd') :
    Has fds (if fd ≠ default then d.close fd else d) default' fd' o' := by
  cases o' with
  | none => exact h
  | some f =>
    refine ⟨h.1, ?_⟩
    split_ifs with hd
    · rw [Descriptors.find?_close, if_neg, h.2]
      cases o with
      | some g => exact (hne rfl rfl).symm
      | none =>
        rintro rfl
        have := hg.nonneg fd' (by rw [ho.resolve_left hd]; decide)
        simp [h.2] at this
    · exact h.2

theorem move_of_has (h : Has fds d default fd none) (hg : Grown fds m d) :
    d.move fd default = d := by
  rcases h with rfl | rfl
  · exact Descriptors.move_self
  · exact Descriptors.move_of_none (hg.nonneg _ (by decide))

end Tables

structure Holds (fds : Descriptors File) (x : Plugs) (readfd writefd : ℤ) (d : Descriptors File) :
    Prop where
  grown  : Grown fds (x.lost + x.input.isSome.toNat + x.output.isSome.toNat) d
  input  : Has fds d 0 readfd x.input
  output : Has fds d 1 writefd x.output
  ne     : x.input.isSome → x.output.isSome → readfd ≠ writefd

variable {env : Environment} {fds d : Descriptors File} {k : Kernel} {m n : ℕ} {x : Plugs}
  {p : Ports} {f : File} {r : Redirection} {call : Call} {rs : List Redirection}
  {readfd writefd : ℤ}

theorem Holds.apply (h : Holds fds x p.readfd p.writefd p.kernel.fds) (n : ℕ) (r : Redirection) :
    let p' := r.apply env n p
    Holds fds (r.plug env n x) p'.readfd p'.writefd p'.kernel.fds := by
  obtain ⟨mode, file⟩ := r
  obtain ⟨input, output, lost⟩ := x
  have hg := h.grown
  simp only [Redirection.plug, Redirection.apply, Kernel.openFile, Ports.set]
  by_cases ho : env.opens (n + 1) = true
  case pos =>
    cases mode with
    | input =>
      simp only [ho, ↓reduceIte]
      refine ⟨?_, hg.has_add _, h.output.add _, fun _ hw => ?_⟩
      · simpa [add_assoc, add_comm, add_left_comm] using hg.add (.opened file .input)
      · obtain ⟨f, rfl⟩ := Option.isSome_iff_exists.mp hw
        exact h.output.lowestFree_ne
    | output =>
      simp only [ho, ↓reduceIte]
      refine ⟨?_, h.input.add _, hg.has_add _, fun hr _ => ?_⟩
      · simpa [add_assoc, add_comm, add_left_comm] using hg.add (.opened file .output)
      · obtain ⟨f, rfl⟩ := Option.isSome_iff_exists.mp hr
        exact h.input.lowestFree_ne.symm
  case neg =>
    cases mode with
    | input =>
      simp only [ho]
      refine ⟨?_, .inr rfl, h.output, by simp⟩
      simpa [add_assoc, add_comm, add_left_comm] using hg
    | output =>
      simp only [ho]
      refine ⟨?_, h.input, .inr rfl, by simp⟩
      simpa [add_assoc, add_comm, add_left_comm] using hg

theorem Holds.applyAll (h : Holds fds x p.readfd p.writefd p.kernel.fds) (n : ℕ)
    (rs : List Redirection) :
    let p' := applyAll env n rs p
    Holds fds (plugAll env n rs x) p'.readfd p'.writefd p'.kernel.fds := by
  induction rs generalizing n x p with
  | nil => exact h
  | cons r rs hi => exact hi (h.apply n r) (n + 2)

theorem plugAll_input : (plugAll env n rs x).input =
    (last .input n rs).elim x.input (openedFile env .input) := by
  induction rs generalizing n x with
  | nil => rfl
  | cons r rs hi =>
    rw [plugAll, hi, last]
    cases last .input (n + 2) rs with
    | some e => rfl
    | none => cases hm : r.mode <;> simp [Redirection.plug, openedFile, hm]

theorem plugAll_output : (plugAll env n rs x).output =
    (last .output n rs).elim x.output (openedFile env .output) := by
  induction rs generalizing n x with
  | nil => rfl
  | cons r rs hi =>
    rw [plugAll, hi, last]
    cases last .output (n + 2) rs with
    | some e => rfl
    | none => cases hm : r.mode <;> simp [Redirection.plug, openedFile, hm]

-- A descriptor is lost for each redirection that takes the place of another one or of a pipe.
theorem plugAll_lost : (plugAll env n rs x).lost = x.lost +
    (x.input.isSome && (last .input n rs).isSome).toNat +
    (x.output.isSome && (last .output n rs).isSome).toNat + overwritten env n rs := by
  induction rs generalizing n x with
  | nil => simp [plugAll, last, overwritten]
  | cons r rs hi =>
    rw [plugAll, hi, last, last, overwritten]
    cases hm : r.mode <;> by_cases ho : env.opens (n + 1) = true <;>
      simp [Redirection.plug, hm, ho] <;> omega

theorem closeFd_fds : (call.closeFd k).fds =
    let d := if call.readfd ≠ 0 then k.fds.close call.readfd else k.fds
    if call.writefd ≠ 1 then d.close call.writefd else d := by
  simp only [Call.closeFd]
  split_ifs <;> rfl

section Standard

-- The standard input and output of the shell are open.
variable (h₀ : (fds.find? 0).isSome) (h₁ : (fds.find? 1).isSome)

include h₀

theorem Holds.pipe (h : Holds fds x readfd writefd k.fds) :
    Holds fds ⟨x.input, some (.pipe k.pipes .write), x.lost + x.output.isSome.toNat + 1⟩ readfd
        k.pipe.1.2 k.pipe.2.fds ∧
      Has fds k.pipe.2.fds 0 k.pipe.1.1 (some (.pipe k.pipes .read)) ∧
      k.pipe.1.1 ≠ readfd ∧ k.pipe.1.1 ≠ k.pipe.1.2 := by
  have hg := h.grown.add (.pipe k.pipes .read)
  have hi := h.input.add (.pipe k.pipes .read)
  have hp : Has fds _ 0 k.pipe.1.1 _ := h.grown.has_add (.pipe k.pipes .read)
  refine ⟨⟨?_, hi.add _, hg.has_add _, fun hr _ => ?_⟩, hp.add _, ?_, hp.lowestFree_ne.symm⟩
  · have hg : Grown fds _ k.pipe.2.fds := hg.add (.pipe k.pipes .write)
    convert hg using 1
    simp only [Option.isSome_some, Bool.toNat_true]
    omega
  · obtain ⟨f, hf⟩ := Option.isSome_iff_exists.mp hr
    rw [hf] at hi
    exact hi.lowestFree_ne.symm
  · have hf := h.input
    cases hx : x.input with
    | some f => exact (hx ▸ hf).lowestFree_ne
    | none =>
      rw [hx] at hf
      rcases hf with rfl | rfl
      · exact Descriptors.ne_of_find? hp.1 h₀
      · exact (Int.negSucc_lt_zero 0).trans_le Descriptors.lowestFree_nonneg |>.ne'

include h₁

theorem Holds.closeFd (h : Holds fds x call.readfd call.writefd k.fds) :
    Grown fds x.lost (call.closeFd k).fds := by
  have hg := h.grown
  rw [add_right_comm] at hg
  rw [closeFd_fds]
  exact (hg.release h.input h₀).release (h.output.release h.grown h.input h.ne) h₁

theorem Holds.exec (h : Holds fds x call.readfd call.writefd d) :
    (call.exec d).fds.find? 0 = x.input.or (fds.find? 0) ∧
      (call.exec d).fds.find? 1 = x.output.or (fds.find? 1) := by
  obtain ⟨f₀, hf₀⟩ := Option.isSome_iff_exists.mp h₀
  obtain ⟨f₁, hf₁⟩ := Option.isSome_iff_exists.mp h₁
  have hk₀ := h.grown.keeps 0 f₀ hf₀
  have hk₁ := h.grown.keeps 1 f₁ hf₁
  have hn  := h.grown.nonneg (-1) (by decide)
  obtain ⟨input, output, lost⟩ := x
  have hi : Has fds d 0 call.readfd input := h.input
  have ho : Has fds d 1 call.writefd output := h.output
  rw [Shell.exec_fds, hf₀, hf₁]
  cases input with
  | none =>
    rw [move_of_has hi h.grown]
    cases output with
    | none => simp [move_of_has ho h.grown, hk₀, hk₁]
    | some g =>
      have hw₀ : call.writefd ≠ 0 := Descriptors.ne_of_find? ho.1 h₀
      have hw₁ : call.writefd ≠ 1 := Descriptors.ne_of_find? ho.1 h₁
      simp [Descriptors.find?_move ho.2 hw₁, hw₀.symm, hw₁.symm, hk₀]
  | some f =>
    have hr₀ : call.readfd ≠ 0 := Descriptors.ne_of_find? hi.1 h₀
    have hr₁ : call.readfd ≠ 1 := Descriptors.ne_of_find? hi.1 h₁
    have hm {fd : ℤ} := Descriptors.find?_move (k := fd) hi.2 hr₀
    cases output with
    | none =>
      have hs : (d.move call.readfd 0).move call.writefd 1 = d.move call.readfd 0 := by
        rcases ho with ho | ho
        · rw [ho, Descriptors.move_self]
        · refine Descriptors.move_of_none ?_
          rw [ho, hm]
          simp [hn]
      simp [hs, hm, hr₀.symm, hr₁.symm, hk₁]
    | some g =>
      have hw₀ : call.writefd ≠ 0 := Descriptors.ne_of_find? ho.1 h₀
      have hw₁ : call.writefd ≠ 1 := Descriptors.ne_of_find? ho.1 h₁
      have hne : call.readfd ≠ call.writefd := h.ne rfl rfl
      have hw : (d.move call.readfd 0).find? call.writefd = some g := by
        rw [hm, if_neg hne.symm, if_neg hw₀]
        exact ho.2
      simp [Descriptors.find?_move hw hw₁, hm, hr₀.symm, hw₀.symm, hw₁.symm]

-- The shell in front of the next command of a pipeline. Whether a process has been started for the
-- last one does not matter.
theorem Holds.launch (h : Holds fds x call.readfd call.writefd k.fds) {k' : Kernel}
    (hk : k'.fds = k.pipe.2.fds) :
    Holds fds ⟨some (.pipe k.pipes .read), none, x.lost + x.output.isSome.toNat⟩ k.pipe.1.1 1
      (Call.closeFd { call with writefd := k.pipe.1.2 } k').fds := by
  obtain ⟨hh, hp, hr, hw⟩ := h.pipe h₀
  rw [← hk] at hh hp
  let call' := { call with writefd := k.pipe.1.2 }
  have hc : Holds fds _ call'.readfd call'.writefd k'.fds := hh
  refine ⟨hc.closeFd h₀ h₁, ⟨hp.1, ?_⟩, .inl rfl, by simp⟩
  rw [Shell.find?_closeFd, if_neg, hp.2]
  simp [hr, hw]

end Standard

end Redirected
