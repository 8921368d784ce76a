import Technosphere.Shell.Session

def Job.messages (j : Job) : List Message :=
  .spawned j.pid :: if j.reaped then [.ended (j.pid, j.status.elim 0 (·.toNat))] else []

def Phase.waited : Phase → List ℕ
  | watching _ _ _ _ erased => erased
  | waiting statuses _      => statuses.map (·.1)
  | _                       => []

def Phase.pending : Phase → List Message
  | waiting statuses _ => statuses.map .ended
  | _                  => []

def messagesAbout (pid : ℕ) (jobs : List Job) : List Message :=
  (jobs.filter (·.pid = pid)).flatMap (·.messages)

namespace Job

variable {j j' : Job} {jobs : List Job} {pid p i : ℕ} {status : WaitStatus}

-- What the shell can see of a process before it waits for it.
def view (j : Job) : ℕ × Bool × List Message :=
  (j.pid, j.reaped, j.messages)

theorem alive_iff : j.Alive pid = true ↔ j.pid = pid ∧ j.reaped = false := by
  simp [Alive]

theorem reap_of_not_alive (h : j.Alive pid = false) : j.reap pid = j := by
  have hr : (j.reaped || decide (j.pid = pid)) = j.reaped := by
    cases hr : j.reaped
    · simpa [Alive, hr] using h
    · rfl
  rw [reap, hr]

theorem alive_reap : (j.reap pid).Alive p = true ↔ j.Alive p = true ∧ p ≠ pid := by
  simp only [alive_iff, reap, Bool.or_eq_false_iff, decide_eq_false_iff_not]
  constructor
  · rintro ⟨rfl, hr, hn⟩
    exact ⟨⟨rfl, hr⟩, hn⟩
  · rintro ⟨⟨rfl, hr⟩, hn⟩
    exact ⟨rfl, hr, hn⟩

theorem Ends.of_launch (h : j.Ends status) (hl : j'.toLaunch = j.toLaunch) : j'.Ends status := by
  cases h with
  | exited h            => exact .exited (by rwa [hl])
  | signaled sig core   => exact .signaled sig core

-- A new process has an id that all earlier processes with it have given up.
def Successive (jobs : List Job) : Prop :=
  jobs.Pairwise fun j j' => j.pid = j'.pid → j.reaped = true

theorem Successive.reap (h : Successive jobs) : Successive (jobs.map (·.reap pid)) := by
  apply List.pairwise_map.mpr
  apply h.imp
  intro j j' hj he
  simp [Job.reap, hj he]

theorem Successive.concat (h : Successive jobs) (hf : ∀ j ∈ jobs, j.Alive j'.pid = false) :
    Successive (jobs ++ [j']) := by
  refine List.pairwise_append.mpr ⟨h, List.pairwise_singleton .., ?_⟩
  intro j hj k hk he
  obtain rfl := List.mem_singleton.mp hk
  simpa [Alive, he] using hf j hj

theorem Successive.eq_of_alive (h : Successive jobs) (hj : j ∈ jobs) (hj' : j' ∈ jobs)
    (ha : j.Alive pid = true) (ha' : j'.Alive pid = true) : j = j' := by
  obtain ⟨hp, hr⟩ := alive_iff.mp ha
  obtain ⟨hp', hr'⟩ := alive_iff.mp ha'
  induction jobs with
  | nil           => simp at hj
  | cons k jobs ih =>
    obtain ⟨hk, h⟩ := List.pairwise_cons.mp h
    rcases List.mem_cons.mp hj with rfl | hm <;> rcases List.mem_cons.mp hj' with rfl | hm'
    · rfl
    · simp [hk j' hm' (hp.trans hp'.symm)] at hr
    · simp [hk j hm (hp'.trans hp.symm)] at hr'
    · exact ih h hm hm'

theorem messagesAbout_concat : messagesAbout p (jobs ++ [j]) =
    messagesAbout p jobs ++ if j.pid = p then j.messages else [] := by
  rw [messagesAbout, List.filter_append, List.flatMap_append]
  by_cases h : j.pid = p
  case pos => simp [messagesAbout, h]
  case neg => simp [messagesAbout, h]

theorem messagesAbout_cons : messagesAbout p (j :: jobs) =
    (if j.pid = p then j.messages else []) ++ messagesAbout p jobs := by
  by_cases h : j.pid = p
  case pos => simp [messagesAbout, h]
  case neg => simp [messagesAbout, h]

theorem messages_reap (h : j.Alive pid = true) (hs : j.status = some status) :
    (j.reap pid).messages = j.messages ++ [.ended (pid, status.toNat)] := by
  obtain ⟨rfl, hr⟩ := alive_iff.mp h
  simp [messages, Job.reap, hr, hs]

theorem map_reap_of_not_alive (h : ∀ j ∈ jobs, j.Alive pid = false) :
    jobs.map (·.reap pid) = jobs :=
  (List.map_congr_left fun j hj => reap_of_not_alive (h j hj)).trans (List.map_id jobs)

theorem messagesAbout_of_ne (h : ∀ j ∈ jobs, j.pid ≠ p) : messagesAbout p jobs = [] := by
  rw [messagesAbout, List.filter_eq_nil_iff.mpr (by simpa using h), List.flatMap_nil]

theorem Successive.messagesAbout_reap (h : Successive jobs)
    (hj : jobs.find? (·.Alive pid) = some j) (hs : j.status = some status) :
    messagesAbout p (jobs.map (·.reap pid)) =
      messagesAbout p jobs ++ if p = pid then [.ended (pid, status.toNat)] else [] := by
  induction jobs with
  | nil           => simp at hj
  | cons k jobs ih =>
    obtain ⟨hk, h⟩ := List.pairwise_cons.mp h
    rw [List.map_cons, messagesAbout_cons, messagesAbout_cons]
    cases ha : k.Alive pid with
    | true  =>
      obtain rfl : k = j := by simpa [List.find?_cons, ha] using hj
      obtain ⟨rfl, hr⟩ := alive_iff.mp ha
      -- No later process has the id.
      have hne : ∀ j ∈ jobs, j.pid ≠ k.pid := by
        intro j hj he
        simp [hk j hj he.symm] at hr
      have hm : jobs.map (·.reap k.pid) = jobs :=
        map_reap_of_not_alive fun j hj => by simp [Alive, hne j hj]
      rw [hm, messages_reap ha hs]
      by_cases hp : p = k.pid
      case pos => simp [hp, messagesAbout_of_ne hne, Job.reap]
      case neg => simp [hp, Ne.symm hp, Job.reap]
    | false =>
      have hj : jobs.find? (·.Alive pid) = some j := by simpa [List.find?_cons, ha] using hj
      rw [ih h hj, reap_of_not_alive ha, List.append_assoc]

theorem map_set_of_eq {β : Type} {f : Job → β} (hi : jobs[i]? = some j) (hf : f j' = f j) :
    (jobs.set i j').map f = jobs.map f := by
  obtain ⟨hl, rfl⟩ := List.getElem?_eq_some_iff.mp hi
  have hm : i < (jobs.map f).length := by simpa using hl
  have hv : f j' = (jobs.map f)[i] := by rw [hf, List.getElem_map]
  rw [List.map_set, hv, List.set_getElem_self]

section View

variable {jobs' : List Job}

theorem map_view_set (hi : jobs[i]? = some j) (hr : j.reaped = false) :
    (jobs.set i { j with status := some status }).map view = jobs.map view :=
  map_set_of_eq hi (by simp [view, messages, hr])

theorem Successive.of_view (h : Successive jobs) (hv : jobs'.map view = jobs.map view) :
    Successive jobs' := by
  have hp : (jobs.map view).Pairwise fun v v' => v.1 = v'.1 → v.2.1 = true :=
    List.pairwise_map.mpr h
  exact List.pairwise_map.mp (hv ▸ hp)

theorem exists_alive_of_view (hv : jobs'.map view = jobs.map view) :
    (∃ j ∈ jobs', j.Alive pid) ↔ ∃ j ∈ jobs, j.Alive pid := by
  have he : ∀ jobs : List Job, (∃ j ∈ jobs, j.Alive pid) ↔
      ∃ v ∈ jobs.map view, v.1 = pid ∧ v.2.1 = false := by
    intro jobs
    simp [alive_iff, view]
  rw [he, he, hv]

theorem messagesAbout_of_view (hv : jobs'.map view = jobs.map view) :
    messagesAbout p jobs' = messagesAbout p jobs := by
  have he : ∀ jobs, messagesAbout p jobs =
      ((jobs.map view).filter (·.1 = p)).flatMap (·.2.2) := by
    intro jobs
    rw [List.filter_map, List.flatMap_map]
    rfl
  rw [he, he, hv]

end View

end Job
