import Cutover.Proofs.Jobs
import Mathlib.Data.List.Induction

/-!
# Cancellation

A validation that is asked to stop, or of which one direction has failed, is called off: it calls no
store and publishes nothing any more, and it ends at the next moment in which it is looked at. A job
that waits for the job before it cannot be looked at, but that one was asked to stop when the job
took its place, and so was the one before it. Main statement: `Migration.stops_at_once`.
-/

namespace Cutover

variable {ρ : Type} [Entity ρ]

/-! ## Scans that are called off -/

theorem Deployment.setStore_store (d : Deployment ρ) (side : Side) :
    d.setStore (d.store side) side = d := by cases side <;> rfl

namespace Scan

/-- A pass that is asked to stop fails at once and does nothing else. -/
theorem Pass.step_stopped {plan : Plan} {m : Moment} {d : Deployment ρ} {p : Pass ρ}
    (hstop : m.stopped = true) (hdone : p.result? = none) :
    p.step plan m d = some (d, p.enter (.done (.error .cancelled))) := by
  have hcall (side : Side) (c : Call ρ) : d.call m (some plan.callLimit) side c p.flight =
      some (d, .answered (.error .cancelled)) := by
    simp only [Deployment.call, Flight.step_stopped hstop, Option.map_some,
      Deployment.setStore_store]
  have hpublish (payload : Bytes) : d.publish m (some plan.callLimit) plan.topic payload p.flight =
      some (d, .answered (.error .cancelled)) := by
    rw [Deployment.publish, Flight.step_stopped hstop, Option.map_some]
  unfold step
  cases hph : p.phase with
  | reading =>
    simp only [hcall]
    rfl
  | comparing fetched page =>
    cases hway : p.way with
    | baseToTarget =>
      simp only [hcall]
      rfl
    | targetToBase =>
      simp only [hcall]
      rfl
  | reporting fetched id kind rest =>
    simp only [hpublish]
    rfl
  | pausing =>
    simp only [Flight.pause, Flight.step_stopped hstop]
    rfl
  | done r => simp [result?, hph] at hdone

omit [Entity ρ] in
/-- A scan fails as soon as one of its passes has failed. -/
theorem result?_of_failed {s : Scan ρ} {way : Way} {e : Error}
    (h : (s.pass way).result? = some (.error e)) : ∃ e', s.result? = some (.error e') := by
  cases way with
  | baseToTarget =>
    change s.forth.result? = _ at h
    exact ⟨e, by simp only [Scan.result?, h]⟩
  | targetToBase =>
    change s.back.result? = _ at h
    simp only [Scan.result?, h]
    cases s.forth.result? with
    | none => exact ⟨e, rfl⟩
    | some r => cases r <;> exact ⟨_, rfl⟩

omit [Entity ρ] in
theorem result?_setPass_cancelled {s : Scan ρ} {way : Way} (hr : s.result? = none) {p : Pass ρ}
    (hp : p.result? = some (.error .cancelled)) :
    (s.setPass p way).result? = some (.error .cancelled) := by
  cases way with
  | baseToTarget => simp only [setPass, Scan.result?, hp]
  | targetToBase =>
    simp only [setPass, Scan.result?, hp]
    cases hf : s.forth.result? with
    | none => rfl
    | some r =>
      cases r with
      | error e => simp [Scan.result?, hf] at hr
      | ok _ => rfl

/-- A move of a scan that is asked to stop ends it and does nothing else. -/
theorem stepWay_stopped {way : Way} {m : Moment} {d d' : Deployment ρ} {s s' : Scan ρ}
    (hstop : m.stopped = true) (h : s.stepWay way m d = some (d', s')) :
    d' = d ∧ s'.result? = some (.error .cancelled) := by
  unfold stepWay at h
  split at h
  · cases h
  · next hr =>
    have hr : s.isOver = false := by simpa using hr
    obtain ⟨⟨e, p⟩, hstep, heq⟩ := Option.map_eq_some_iff.mp h
    cases heq
    cases hdone : (s.pass way).result? with
    | some r => simp [Pass.step, Pass.phase_of_result? hdone] at hstep
    | none =>
      rw [Pass.step_stopped hstop hdone] at hstep
      cases hstep
      exact ⟨rfl, result?_setPass_cancelled (isOver_eq_false_iff.mp hr).2 rfl⟩

/-- A scan that is asked to stop and has not ended can move. -/
theorem exists_stepWay_stopped {m : Moment} (hstop : m.stopped = true) (d : Deployment ρ)
    {s : Scan ρ} (hr : s.isOver = false) : ∃ way, (s.stepWay way m d).isSome := by
  obtain ⟨way, hway⟩ := exists_undone hr
  exact ⟨way, by simp [stepWay, hr, Pass.step_stopped hstop hway]⟩

/-- Whether there is a reason for a scan not to go on: it was asked to stop, or one of its passes
has failed. -/
def IsCalledOff (s : Scan ρ) (stopped : Bool) : Prop :=
  stopped = true ∨ ∃ way e, (s.pass way).result? = some (.error e)

end Scan

/-! ## What becomes of a job -/

namespace Scheduler

variable {s s' : Scheduler ρ} {n : Nat} {j : Job ρ}

omit [Entity ρ] in
theorem stopJob_job (i : Nat) (hj : s.jobs[n]? = some j) :
    ∃ j', (s.stopJob i).jobs[n]? = some j' ∧ (j' = j ∨ j' = j.stop) := by
  rw [stopJob, List.getElem?_modify, hj]
  refine ⟨_, rfl, ?_⟩
  split
  · exact .inr rfl
  · exact .inl rfl

omit [Entity ρ] in
theorem stopCurrent_job (kind : JobKind) (hj : s.jobs[n]? = some j) :
    ∃ j', (s.stopCurrent kind).jobs[n]? = some j' ∧ (j' = j ∨ j' = j.stop) := by
  unfold stopCurrent
  split
  · exact ⟨j, hj, .inl rfl⟩
  · exact stopJob_job _ hj

/-- Only by its own turn a job is changed in another way than by being asked to stop. -/
theorem Moved.job {config : Config} {h : Happening ρ} {launch : Option (JobKind × Nat)}
    (hm : s.Moved config h launch s') (hturn : ∀ way, h ≠ .turn (.job n way))
    (hj : s.jobs[n]? = some j) : ∃ j', s'.jobs[n]? = some j' ∧ (j' = j ∨ j' = j.stop) := by
  cases hm with
  | kept => exact ⟨j, hj, .inl rfl⟩
  | @turned i way =>
    have hi : i ≠ n := fun heq => hturn way (by rw [heq])
    exact ⟨j, by rw [List.getElem?_set_ne hi, hj], .inl rfl⟩
  | cancelled => exact stopJob_job _ hj
  | stopped => exact stopCurrent_job _ hj
  | @launched o kind plan =>
    obtain ⟨j', hj', hcases⟩ := stopCurrent_job kind hj
    refine ⟨j', ?_, hcases⟩
    rw [jobs_launch_eq, List.getElem?_append_left (List.getElem?_eq_some_iff.mp hj').1, hj']

theorem Moved.length {config : Config} {h : Happening ρ} {launch : Option (JobKind × Nat)}
    (hm : s.Moved config h launch s') (ho : ∀ o, h ≠ .order o) :
    s'.jobs.length = s.jobs.length := by
  cases hm with
  | kept => rfl
  | turned => exact List.length_set
  | cancelled => exact List.length_modify _ _ _
  | stopped | launched => exact absurd rfl (ho _)

omit [Entity ρ] in
/-- The job that a launch adds. -/
theorem launch_job {config : Config} {kind : JobKind} {plan : Scan.Plan} (hn : s.jobs[n]? = none)
    (hj : (s.launch config kind plan).jobs[n]? = some j) :
    n = s.jobs.length ∧ j = {
      kind
      after := if config.awaitPreviousJob then s.current kind else none
      scan := { plan } } := by
  rw [List.getElem?_eq_none_iff] at hn
  rw [jobs_launch_eq, List.getElem?_append_right (by rw [length_stopCurrent]; exact hn),
    length_stopCurrent, List.getElem?_singleton] at hj
  split at hj
  · cases hj
    exact ⟨by omega, rfl⟩
  · cases hj

end Scheduler

/-- What something that happens makes of the job with a number: nothing, a request to stop, or a
move of its scan. -/
inductive Job.Becomes (m : Migration ρ) (n : Nat) (j : Job ρ) : Happening ρ → Job ρ → Prop where
  | kept {h} : Becomes m n j h j
  | stopped {h} : Becomes m n j h j.stop
  | moved {way p} : j.isBlocked m.scheduler.jobs = false → j.scan.isOver = false →
      Scan.Pass.Moved j.scan.plan ⟨m.now, j.stopped⟩ m.site (j.scan.pass way)
        (m.perform (.turn (.job n way))).site p →
      Becomes m n j (.turn (.job n way)) { j with scan := j.scan.setPass p way }

namespace Job.Becomes

variable {m : Migration ρ} {n : Nat} {j j' : Job ρ} {h : Happening ρ}

theorem follows (hb : j.Becomes m n h j') : j.Follows j' ∧ j'.after = j.after := by
  cases hb with
  | kept | moved => exact ⟨⟨rfl, id⟩, rfl⟩
  | stopped => exact ⟨j.follows_stop, rfl⟩

/-- A job that has ended stays as it is, but for a request to stop. -/
theorem scan_eq (hb : j.Becomes m n h j') (hf : j.isFinished = true) : j'.scan = j.scan := by
  cases hb with
  | kept | stopped => rfl
  | moved _ hr =>
    rw [isFinished, hr] at hf
    cases hf

end Job.Becomes

namespace Migration

theorem job_perform {m : Migration ρ} {n : Nat} {j : Job ρ} (h : Happening ρ)
    (hj : m.scheduler.jobs[n]? = some j) :
    ∃ j', (m.perform h).scheduler.jobs[n]? = some j' ∧ j.Becomes m n h j' := by
  by_cases hturn : ∃ way, h = .turn (.job n way)
  · obtain ⟨way, rfl⟩ := hturn
    rcases m.perform_turn (.job n way) with heq | ⟨m', heq, hmoved⟩
    · exact ⟨j, by rw [heq, hj], .kept⟩
    · cases hmoved with
      | job hj' hb hr hp =>
        cases hj.symm.trans hj'
        refine ⟨_, ?_, .moved hb hr (by rw [heq]; exact hp)⟩
        rw [heq]
        exact List.getElem?_set_self (List.getElem?_eq_some_iff.mp hj).1
  · obtain ⟨j', hj', rfl | rfl⟩ :=
      (m.scheduler_moved h).job (fun way heq => hturn ⟨way, heq⟩) hj
    · exact ⟨j', hj', .kept⟩
    · exact ⟨_, hj', .stopped⟩

/-- A job with a number was started by an order, with the side that serves reads as its base, in the
place of the current job of its kind. -/
structure Launched (m : Migration ρ) (h : Happening ρ) (n : Nat) (j : Job ρ) : Prop where
  order : ∃ o, h = .order o
  launch : m.launch? h = some (j.kind, n)
  scan : ∃ since mode, j.scan = { plan := .ofSide m.config m.site.policy.primary since mode }
  after : j.after = if m.config.awaitPreviousJob then m.scheduler.current j.kind else none
  number : n = m.scheduler.jobs.length
  scheduler : ∃ plan, (m.perform h).scheduler = m.scheduler.launch m.config j.kind plan

theorem launched_of_launch {m : Migration ρ} {o : Order} {n : Nat} {j : Job ρ} {kind : JobKind}
    {since : Option Int} {mode : Scan.Mode} (hn : m.scheduler.jobs[n]? = none)
    (hj : (m.perform (.order o)).scheduler.jobs[n]? = some j)
    (hlaunch : m.launch? (.order o) = some (kind, m.scheduler.jobs.length))
    (hs : (m.perform (.order o)).scheduler = m.scheduler.launch m.config kind
      (.ofSide m.config m.site.policy.primary since mode)) : m.Launched (.order o) n j := by
  rw [hs] at hj
  obtain ⟨rfl, rfl⟩ := Scheduler.launch_job hn hj
  exact ⟨⟨o, rfl⟩, hlaunch, ⟨since, mode, rfl⟩, rfl, rfl, _, hs⟩

/-- A job that was not there before was started. -/
theorem launched_of_new {m : Migration ρ} {h : Happening ρ} {n : Nat} {j : Job ρ}
    (hn : m.scheduler.jobs[n]? = none) (hj : (m.perform h).scheduler.jobs[n]? = some j) :
    m.Launched h n j := by
  have hold {s : Scheduler ρ} (hs : (m.perform h).scheduler = s)
      (h : s.jobs.length = m.scheduler.jobs.length) : False := by
    rw [hs, List.getElem?_eq_none (by rw [h]; exact List.getElem?_eq_none_iff.mp hn)] at hj
    cases hj
  by_cases ho : ∃ o, h = .order o
  · obtain ⟨o, rfl⟩ := ho
    cases hobey : m.obey o with
    | error e => exact (hold (by rw [perform, hobey]) rfl).elim
    | ok x =>
      obtain ⟨answer, m'⟩ := x
      obtain ⟨policy, scheduler, hrun, rfl⟩ := obey_ok hobey
      have hperform : (m.perform (.order o)).scheduler = scheduler := by rw [perform, hobey]
      cases o with
      | route p =>
        cases hrun
        exact (hold hperform rfl).elim
      | stop kind =>
        cases hrun
        exact (hold hperform (Scheduler.length_stopCurrent ..)).elim
      | startFull =>
        cases hrun
        exact launched_of_launch hn hj (by simp only [launch?, hobey]; rfl) hperform
      | startIncremental since poll =>
        simp only [Scheduler.run] at hrun
        cases hmode : Scan.Mode.every poll with
        | error e =>
          rw [hmode] at hrun
          cases hrun
        | ok mode =>
          rw [hmode] at hrun
          cases hrun
          exact launched_of_launch hn hj (by simp only [launch?, hobey]; rfl) hperform
  · exact (hold rfl ((m.scheduler_moved h).length fun o heq => ho ⟨o, heq⟩)).elim

end Migration

/-! ## Validations -/

/-- A scan in the background: a job, or a scan of its own. -/
inductive Validation where
  | job (n : Nat)
  | run (n : Nat)

def Validation.turn : Validation → Scan.Way → Turn
  | job n, way => .job n way
  | run n, way => .run n way

namespace Migration

/-- The scan of a validation, and whether it was asked to stop. -/
def validation? (m : Migration ρ) : Validation → Option (Scan ρ × Bool)
  | .job n => (m.scheduler.jobs[n]?).map fun j => (j.scan, j.stopped)
  | .run n => (m.runs[n]?).map fun r => (r.scan, r.stopped)

/-- Whether a validation waits for the end of another one. -/
def waits (m : Migration ρ) : Validation → Bool
  | .job n => (m.scheduler.jobs[n]?).any (·.isBlocked m.scheduler.jobs)
  | .run _ => false

variable {m m' : Migration ρ} {v : Validation} {way : Scan.Way} {s : Scan ρ} {stopped : Bool}

/-- What a validation makes of a migration when it takes its turn. -/
theorem validation_move (h : m.move (v.turn way) = some m') :
    ∃ s stopped s', m.validation? v = some (s, stopped) ∧
      s.stepWay way ⟨m.now, stopped⟩ m.site = some (m'.site, s') ∧
      m'.validation? v = some (s', stopped) ∧ m'.now = m.now := by
  cases v with
  | job n =>
    obtain ⟨j, hj, h⟩ := Option.bind_eq_some_iff.mp h
    obtain ⟨⟨d, j'⟩, hstep, h⟩ := Option.bind_eq_some_iff.mp h
    cases h
    have hn : n < m.scheduler.jobs.length := (List.getElem?_eq_some_iff.mp hj).1
    unfold Job.step at hstep
    split at hstep
    · cases hstep
    · obtain ⟨⟨d, s'⟩, hway, heq⟩ := Option.map_eq_some_iff.mp hstep
      cases heq
      exact ⟨j.scan, j.stopped, s', by simp [validation?, hj], hway, by simp [validation?, hn], rfl⟩
  | run n =>
    obtain ⟨r, hr, h⟩ := Option.bind_eq_some_iff.mp h
    obtain ⟨⟨d, r'⟩, hstep, h⟩ := Option.bind_eq_some_iff.mp h
    cases h
    have hn : n < m.runs.length := (List.getElem?_eq_some_iff.mp hr).1
    obtain ⟨⟨d, s'⟩, hway, heq⟩ := Option.map_eq_some_iff.mp hstep
    cases heq
    exact ⟨r.scan, r.stopped, s', by simp [validation?, hr], hway, by simp [validation?, hn], rfl⟩

theorem move_isSome_of_validation (hv : m.validation? v = some (s, stopped))
    (hw : m.waits v = false) (hstep : (s.stepWay way ⟨m.now, stopped⟩ m.site).isSome) :
    (m.move (v.turn way)).isSome := by
  obtain ⟨⟨d, s'⟩, hstep⟩ := Option.isSome_iff_exists.mp hstep
  cases v with
  | job n =>
    obtain ⟨j, hj, heq⟩ := Option.map_eq_some_iff.mp hv
    cases heq
    have hb : j.isBlocked m.scheduler.jobs = false := by simpa [waits, hj] using hw
    simp [move, Validation.turn, hj, Job.step, hb, hstep]
  | run n =>
    obtain ⟨r, hr, heq⟩ := Option.map_eq_some_iff.mp hv
    cases heq
    simp [move, Validation.turn, hr, Run.step, hstep]

/-- Only by its own turn a scan is changed in another way than by being asked to stop. -/
theorem run_perform {h : Happening ρ} {n : Nat} {r : Run ρ} (hturn : ∀ way, h ≠ .turn (.run n way))
    (hr : m.runs[n]? = some r) :
    ∃ r', (m.perform h).runs[n]? = some r' ∧ (r' = r ∨ r' = r.stop) := by
  have same {m' : Migration ρ} (heq : m'.runs = m.runs) :
      ∃ r', m'.runs[n]? = some r' ∧ (r' = r ∨ r' = r.stop) := ⟨r, by rw [heq, hr], .inl rfl⟩
  cases h with
  | turn t =>
    rcases m.perform_turn t with heq | ⟨m', heq, hmoved⟩
    · exact same (by rw [heq])
    · rw [heq]
      cases hmoved with
      | @run i way =>
        have hi : i ≠ n := fun heq => hturn way (by rw [heq])
        exact ⟨r, by rw [List.getElem?_set_ne hi, hr], .inl rfl⟩
      | job | consumer | post => exact same rfl
  | order o =>
    rcases m.perform_order o with heq | ⟨_, _, _, -, heq⟩
    · exact same (by rw [heq])
    · exact same (by rw [heq])
  | join handler group topic limit backoff stopped =>
    obtain ⟨b, -, heq | heq⟩ := m.startConsumer_cases handler group topic limit backoff stopped
    · exact same (by rw [perform, heq]; rfl)
    · exact same (by rw [perform, heq]; rfl)
  | startRun scan stopped =>
    exact ⟨r, by
      rw [perform, startRun, List.getElem?_append_left (List.getElem?_eq_some_iff.mp hr).1, hr],
      .inl rfl⟩
  | stopRun i =>
    refine ⟨_, by rw [perform, stopRun, List.getElem?_modify, hr]; rfl, ?_⟩
    split
    · exact .inr rfl
    · exact .inl rfl
  | _ => exact same rfl

/-- What becomes of a validation in the course of time: it goes on by its own turns, and stays asked
to stop. -/
theorem validation_perform (h : Happening ρ) (hv : m.validation? v = some (s, stopped)) :
    ∃ s' stopped', (m.perform h).validation? v = some (s', stopped') ∧
      (stopped = true → stopped' = true) ∧ (s.isOver = true → s' = s) := by
  by_cases hown : ∃ way, h = .turn (v.turn way)
  · obtain ⟨way, rfl⟩ := hown
    cases hm : m.move (v.turn way) with
    | none => exact ⟨s, stopped, by rw [perform, hm]; exact hv, id, fun _ => rfl⟩
    | some m' =>
      obtain ⟨_, _, s', hv', hstep, hnew, -⟩ := validation_move hm
      cases hv.symm.trans hv'
      refine ⟨s', stopped, by rw [perform, hm]; exact hnew, id, fun hr => ?_⟩
      simp [Scan.stepWay, hr] at hstep
  · cases v with
    | job n =>
      obtain ⟨j, hj, heq⟩ := Option.map_eq_some_iff.mp hv
      cases heq
      obtain ⟨j', hj', rfl | rfl⟩ :=
        (m.scheduler_moved h).job (fun way heq => hown ⟨way, heq⟩) hj
      · exact ⟨_, _, by rw [validation?, hj']; rfl, id, fun _ => rfl⟩
      · exact ⟨_, _, by rw [validation?, hj']; rfl, fun _ => rfl, fun _ => rfl⟩
    | run n =>
      obtain ⟨r, hr, heq⟩ := Option.map_eq_some_iff.mp hv
      cases heq
      obtain ⟨r', hr', rfl | rfl⟩ := run_perform (fun way heq => hown ⟨way, heq⟩) hr
      · exact ⟨_, _, by rw [validation?, hr']; rfl, id, fun _ => rfl⟩
      · exact ⟨_, _, by rw [validation?, hr']; rfl, fun _ => rfl, fun _ => rfl⟩

theorem isCalledOff_after (hv : m.validation? v = some (s, stopped)) (hoff : s.IsCalledOff stopped)
    (history : List (Happening ρ)) : ∃ s' stopped',
      (m.after history).validation? v = some (s', stopped') ∧ s'.IsCalledOff stopped' := by
  induction history generalizing m s stopped with
  | nil => exact ⟨s, stopped, hv, hoff⟩
  | cons h rest ih =>
    obtain ⟨s', stopped', hv', hstop, hscan⟩ := validation_perform h hv
    refine ih hv' ?_
    rcases hoff with hs | ⟨way, e, hfailed⟩
    · exact .inl (hstop hs)
    · obtain ⟨e', hr⟩ := Scan.result?_of_failed hfailed
      rw [hscan (Scan.isOver_of_result? hr)]
      exact .inr ⟨way, e, hfailed⟩

/-- A validation that is called off leaves the stores, the broker and the policy as they are. -/
theorem site_perform_of_isCalledOff (hv : m.validation? v = some (s, stopped))
    (hoff : s.IsCalledOff stopped) (way : Scan.Way) :
    (m.perform (.turn (v.turn way))).site = m.site := by
  cases hm : m.move (v.turn way) with
  | none => rw [perform, hm]; rfl
  | some m' =>
    obtain ⟨_, _, s', hv', hstep, -, -⟩ := validation_move hm
    cases hv.symm.trans hv'
    rw [perform, hm]
    rcases hoff with hs | ⟨way', e, hfailed⟩
    · exact (Scan.stepWay_stopped hs hstep).1
    · obtain ⟨e', hr⟩ := Scan.result?_of_failed hfailed
      simp [Scan.stepWay, Scan.isOver_of_result? hr] at hstep

end Migration

/-! ## Jobs that wait for each other -/

/-- A job waits at most for an earlier one of its kind, which was asked to stop. -/
def Scheduler.IsLinked (s : Scheduler ρ) : Prop :=
  ∀ (n : Nat) (j : Job ρ) (p : Nat), s.jobs[n]? = some j → j.after = some p →
    p < n ∧ ∃ i : Job ρ, s.jobs[p]? = some i ∧ i.kind = j.kind ∧ i.stopped = true

namespace Migration

theorem isLinked_perform {m : Migration ρ} {started : JobKind → List Nat}
    (hs : ∀ kind, m.scheduler.Succession kind (started kind)) (hl : m.scheduler.IsLinked)
    (h : Happening ρ) : (m.perform h).scheduler.IsLinked := by
  intro n j' p hj' hafter
  cases hj : m.scheduler.jobs[n]? with
  | some j =>
    obtain ⟨_, heq, hb⟩ := job_perform h hj
    cases hj'.symm.trans heq
    obtain ⟨hf, ha⟩ := hb.follows
    obtain ⟨hlt, i, hi, hkind, hstop⟩ := hl n j p hj (ha ▸ hafter)
    obtain ⟨i', hi', hb'⟩ := job_perform h hi
    obtain ⟨hf', -⟩ := hb'.follows
    exact ⟨hlt, i', hi', by rw [hf'.kind, hkind, hf.kind], hf'.stopped hstop⟩
  | none =>
    have hnew := launched_of_new hj hj'
    obtain ⟨plan, hlaunch⟩ := hnew.scheduler
    have hn := hnew.number
    have ha := hafter ▸ hnew.after
    split at ha
    · obtain ⟨i, hi, hkind⟩ := (hs j'.kind).has ha.symm
      have hlt : p < m.scheduler.jobs.length := (List.getElem?_eq_some_iff.mp hi).1
      obtain ⟨i', hi', hb⟩ := job_perform h hi
      refine ⟨by omega, i', hi', by rw [hb.follows.1.kind, hkind], ?_⟩
      rw [hlaunch, Scheduler.jobs_launch_eq, List.getElem?_append_left
        (by rw [Scheduler.length_stopCurrent]; exact hlt)] at hi'
      exact Scheduler.stopped_stopCurrent ha.symm hi'
    · cases ha

theorem isLinked_after {m : Migration ρ} (hm : m.scheduler = {}) (history : List (Happening ρ)) :
    (m.after history).scheduler.IsLinked := by
  induction history using List.reverseRecOn with
  | nil =>
    intro n j p hj
    simp [after, hm] at hj
  | append_singleton past h ih =>
    rw [after_concat]
    exact isLinked_perform (fun kind => succession_of_empty hm past kind) ih h

/-- When no job can move, the jobs that were asked to stop have ended: each waits at most for an
earlier one, which was asked to stop as well. -/
theorem isFinished_of_stuck {m : Migration ρ} (hl : m.scheduler.IsLinked)
    (hstuck : ∀ t, m.move t = none) {n : Nat} {j : Job ρ} (hj : m.scheduler.jobs[n]? = some j)
    (hstop : j.stopped = true) : j.isFinished = true := by
  induction n using Nat.strongRecOn generalizing j with
  | ind n ih =>
    by_contra hf
    have hr : j.scan.isOver = false := by simpa [Job.isFinished] using hf
    have hblocked : j.isBlocked m.scheduler.jobs = true := by
      by_contra hb
      obtain ⟨way, hway⟩ :=
        Scan.exists_stepWay_stopped (m := ⟨m.now, j.stopped⟩) hstop m.site hr
      have hv : m.validation? (.job n) = some (j.scan, j.stopped) := by simp [validation?, hj]
      have hw : m.waits (.job n) = false := by simpa [waits, hj] using hb
      simpa [hstuck] using move_isSome_of_validation hv hw hway
    unfold Job.isBlocked at hblocked
    split at hblocked
    · cases hblocked
    · next p hafter =>
      obtain ⟨hlt, i, hi, -, hstop'⟩ := hl n j p hj hafter
      simp [hi, ih p hlt hi hstop'] at hblocked

/-- A validation that is called off stops at once and does nothing more. After every history of a
migration that starts without jobs: if a validation was asked to stop, or one of its directions has
failed, none of its turns from then on changes a store, the broker or the policy; and unless it has
ended or waits for the job before it, it can move at this moment, and by whatever move it makes it
ends as cancelled. A validation of which a direction has failed has ended. So whenever no task can
move, every job that was asked to stop has ended. -/
theorem stops_at_once (m : Migration ρ) (hm : m.scheduler = {}) (history : List (Happening ρ)) :
    let m' := m.after history
    (∀ v s stopped, m'.validation? v = some (s, stopped) → s.IsCalledOff stopped →
      (∀ rest way, ((m'.after rest).perform (.turn (v.turn way))).site = (m'.after rest).site) ∧
      (s.isOver = false → m'.waits v = false →
        (∃ way, (m'.move (v.turn way)).isSome) ∧
          ∀ way m'', m'.move (v.turn way) = some m'' →
            m''.now = m'.now ∧
              ∃ s', m''.validation? v = some (s', stopped) ∧
                s'.result? = some (.error .cancelled)) ∧
      ((∃ way e, (s.pass way).result? = some (.error e)) → ∃ e, s.result? = some (.error e))) ∧
    ((∀ t, m'.move t = none) →
      ∀ (n : Nat) (j : Job ρ), m'.scheduler.jobs[n]? = some j → j.stopped = true →
        j.isFinished = true) := by
  intro m'
  refine ⟨fun v s stopped hv hoff => ⟨fun rest way => ?_, fun hr hw => ?_, ?_⟩,
    fun hstuck n j hj hstop => isFinished_of_stuck (isLinked_after hm history) hstuck hj hstop⟩
  · obtain ⟨s', stopped', hv', hoff'⟩ := isCalledOff_after hv hoff rest
    exact site_perform_of_isCalledOff hv' hoff' way
  · have hstop : stopped = true := by
      refine hoff.resolve_right fun ⟨way, e, hfailed⟩ => ?_
      obtain ⟨e', hr'⟩ := Scan.result?_of_failed hfailed
      rw [Scan.isOver_of_result? hr'] at hr
      cases hr
    obtain ⟨way, hway⟩ := Scan.exists_stepWay_stopped (m := ⟨m'.now, stopped⟩) hstop m'.site hr
    refine ⟨⟨way, move_isSome_of_validation hv hw hway⟩, fun way m'' hmove => ?_⟩
    obtain ⟨_, _, s', hv', hstep, hnew, hnow⟩ := validation_move hmove
    cases hv.symm.trans hv'
    exact ⟨hnow, s', hnew, (Scan.stepWay_stopped hstop hstep).2⟩
  · rintro ⟨way, e, hfailed⟩
    exact Scan.result?_of_failed hfailed

/-- Three full jobs, each in the place of the one before it, the first of them with a call under
way, and a stop. -/
def sampleStops : List (Happening Account) :=
  [.plan .src { latency := 50 }, .order .startFull, .turn (.job 0 .baseToTarget),
    .turn (.job 0 .targetToBase), .order .startFull, .order .startFull, .order (.stop .full)]

/-- A turn for each of the jobs. -/
def sampleTurns : List (Happening Account) :=
  [.turn (.job 0 .targetToBase), .turn (.job 1 .baseToTarget), .turn (.job 2 .baseToTarget)]

theorem stops_at_once_sample :
    let m := sampleIdle.after sampleStops
    let m' := sampleIdle.after (sampleStops ++ sampleTurns)
    sampleIdle.scheduler = {} ∧
      (∃ s, m.validation? (.job 0) = some (s, true) ∧ s.isOver = false) ∧
      m.waits (.job 0) = false ∧ m.waits (.job 1) = true ∧
      (∃ way, (m.move (.job 0 way)).isSome) ∧
      (m.perform (.turn (.job 0 .baseToTarget))).site = m.site ∧
      (∀ t, m'.move t = none) ∧ m'.scheduler.jobs.map Job.stopped = [true, true, true] ∧
      ∀ j ∈ m'.scheduler.jobs, j.isFinished = true := by
  obtain ⟨hfirst, -⟩ := stops_at_once sampleIdle rfl sampleStops
  obtain ⟨-, hlast⟩ := stops_at_once sampleIdle rfl (sampleStops ++ sampleTurns)
  have hwaits : (sampleIdle.after sampleStops).waits (.job 0) = false := by decide +kernel
  have hstuck : ∀ t, (sampleIdle.after (sampleStops ++ sampleTurns)).move t = none := by
    rw [← next?_eq_none_iff, ← Option.not_isSome_iff_eq_none]
    decide +kernel
  have hstopped : (sampleIdle.after (sampleStops ++ sampleTurns)).scheduler.jobs.map Job.stopped =
      [true, true, true] := by decide +kernel
  have hv : ∃ s, (sampleIdle.after sampleStops).validation? (.job 0) = some (s, true) ∧
      s.isOver = false := by
    refine ⟨_, rfl, ?_⟩
    rfl
  obtain ⟨s, hs, hr⟩ := hv
  obtain ⟨hsilent, hprompt, -⟩ := hfirst (.job 0) s true hs (.inl rfl)
  refine ⟨rfl, ⟨s, hs, hr⟩, hwaits, by decide +kernel, (hprompt hr hwaits).1,
    hsilent [] .baseToTarget, hstuck, hstopped, fun j hj => ?_⟩
  obtain ⟨n, hn⟩ := List.mem_iff_getElem?.mp hj
  refine hlast hstuck n j hn ?_
  have hmem : j.stopped ∈ [true, true, true] := hstopped ▸ List.mem_map_of_mem hj
  simpa using hmem

end Migration

end Cutover
