import Cutover.Proofs.Histories

/-!
# One live job of each kind

The scheduler points at one job of each kind. A job that loses its place without being asked to stop
would go on with nothing pointing at it. Main statement: after every history the current job of a
kind is the last one that was started, all others of that kind have been asked to stop, and nothing
that does not concern the kind changes a job of it (`Migration.one_live_job`).
-/

namespace Cutover

variable {ρ : Type}

/-! ## Orders and jobs -/

namespace Order

/-- The kind of the job that an order is to start. -/
def starts? : Order → Option JobKind
  | startFull => some .full
  | startIncremental .. => some .incremental
  | route _ | stop _ => none

/-- The kind of jobs that an order is about. -/
def kind? : Order → Option JobKind
  | stop kind => some kind
  | o => o.starts?

end Order

namespace Job

/-- What becomes of a job in the course of time: it stays of its kind, and asked to stop. -/
structure Follows (j j' : Job ρ) : Prop where
  kind : j'.kind = j.kind
  stopped : j.stopped = true → j'.stopped = true

theorem Follows.refl (j : Job ρ) : j.Follows j := ⟨rfl, id⟩

theorem follows_stop (j : Job ρ) : j.Follows j.stop := ⟨rfl, fun _ => rfl⟩

end Job

namespace Scheduler

variable {s s' s'' : Scheduler ρ} {kind other : JobKind}

/-- There is a job of a kind with a number. -/
def Has (s : Scheduler ρ) (kind : JobKind) (n : Nat) : Prop :=
  ∃ j, s.jobs[n]? = some j ∧ j.kind = kind

/-! ## Frames -/

/-- Nothing has happened to the jobs of a kind. -/
structure Leaves (kind : JobKind) (s s' : Scheduler ρ) : Prop where
  current : s'.current kind = s.current kind
  jobs : ∀ (n : Nat) (j : Job ρ), j.kind = kind → (s'.jobs[n]? = some j ↔ s.jobs[n]? = some j)

theorem Leaves.refl (kind : JobKind) (s : Scheduler ρ) : s.Leaves kind s :=
  ⟨rfl, fun _ _ _ => Iff.rfl⟩

theorem Leaves.trans (h : s.Leaves kind s') (h' : s'.Leaves kind s'') : s.Leaves kind s'' :=
  ⟨h'.current.trans h.current, fun n j hj => (h'.jobs n j hj).trans (h.jobs n j hj)⟩

theorem Leaves.has (h : s.Leaves kind s') (n : Nat) : s'.Has kind n ↔ s.Has kind n := by
  unfold Has
  constructor
  · rintro ⟨j, hj, hk⟩
    exact ⟨j, (h.jobs n j hk).mp hj, hk⟩
  · rintro ⟨j, hj, hk⟩
    exact ⟨j, (h.jobs n j hk).mpr hj, hk⟩

/-- A change at one number, where there is no job of the kind before or after. -/
theorem leaves_of_getElem? (n : Nat) (hcurrent : s'.current kind = s.current kind)
    (hn : ∀ j, s.jobs[n]? = some j → j.kind ≠ kind)
    (hn' : ∀ j, s'.jobs[n]? = some j → j.kind ≠ kind)
    (hother : ∀ i, i ≠ n → s'.jobs[i]? = s.jobs[i]?) : s.Leaves kind s' := by
  refine ⟨hcurrent, fun i j hj => ?_⟩
  by_cases hi : i = n
  · subst hi
    exact ⟨fun h => absurd hj (hn' j h), fun h => absurd hj (hn j h)⟩
  · rw [hother i hi]

theorem leaves_stopJob {n : Nat} (h : ¬s.Has kind n) : s.Leaves kind (s.stopJob n) := by
  refine leaves_of_getElem? n (by cases kind <;> rfl) (fun j hj hk => h ⟨j, hj, hk⟩)
    (fun j hj hk => ?_) fun i hi => ?_
  · rw [stopJob, List.getElem?_modify_eq] at hj
    obtain ⟨j, hs, rfl⟩ := Option.map_eq_some_iff.mp hj
    exact h ⟨j, hs, hk⟩
  · exact List.getElem?_modify_ne _ _ (Ne.symm hi)

/-! ## Successions -/

/-- Some jobs of a kind, in the order in which they were started, are all that there are of it. The
last one is current, and the others have been asked to stop. -/
structure Succession (s : Scheduler ρ) (kind : JobKind) (started : List Nat) : Prop where
  current : s.current kind = started.getLast?
  mem_iff : ∀ n, n ∈ started ↔ s.Has kind n
  stopped : ∀ (n : Nat) (j : Job ρ), s.jobs[n]? = some j → j.kind = kind → s.current kind ≠ some n →
    j.stopped = true
  increasing : started.Pairwise (· < ·)

namespace Succession

variable {started : List Nat}

theorem empty (kind : JobKind) : ({} : Scheduler ρ).Succession kind [] where
  current := by cases kind <;> rfl
  mem_iff n := by simp [Has]
  stopped n j hj := by simp at hj
  increasing := .nil

/-- The current job of a kind is of that kind. -/
theorem has (h : s.Succession kind started) {n : Nat} (hn : s.current kind = some n) :
    s.Has kind n := (h.mem_iff n).mp (List.mem_of_getLast? (h.current ▸ hn))

theorem leaves (h : s.Succession kind started) (hl : s.Leaves kind s') :
    s'.Succession kind started where
  current := hl.current.trans h.current
  mem_iff n := (h.mem_iff n).trans (hl.has n).symm
  stopped n j hj hk hn := h.stopped n j ((hl.jobs n j hk).mp hj) hk (by rwa [← hl.current])
  increasing := h.increasing

/-- Jobs that move or are asked to stop keep their places. -/
theorem follows (h : s.Succession kind started) (hcurrent : s'.current kind = s.current kind)
    (hjobs : ∀ (n : Nat) (j' : Job ρ), s'.jobs[n]? = some j' →
      ∃ j, s.jobs[n]? = some j ∧ j.Follows j')
    (hlength : s'.jobs.length = s.jobs.length) : s'.Succession kind started where
  current := hcurrent.trans h.current
  mem_iff n := by
    rw [h.mem_iff]
    constructor
    · rintro ⟨j, hj, hk⟩
      have hn : n < s'.jobs.length := hlength ▸ (List.getElem?_eq_some_iff.mp hj).1
      obtain ⟨i, hi, hf⟩ := hjobs n _ (List.getElem?_eq_getElem hn)
      cases hj.symm.trans hi
      exact ⟨_, List.getElem?_eq_getElem hn, hf.kind.trans hk⟩
    · rintro ⟨j', hj', hk⟩
      obtain ⟨j, hj, hf⟩ := hjobs n j' hj'
      exact ⟨j, hj, hf.kind.symm.trans hk⟩
  stopped n j' hj' hk hn := by
    obtain ⟨j, hj, hf⟩ := hjobs n j' hj'
    exact hf.stopped (h.stopped n j hj (hf.kind.symm.trans hk) (hcurrent ▸ hn))
  increasing := h.increasing

theorem stopJob (h : s.Succession kind started) (n : Nat) :
    (s.stopJob n).Succession kind started := by
  refine h.follows (by cases kind <;> rfl) (fun i j' hi => ?_) (by simp [Scheduler.stopJob])
  rw [Scheduler.stopJob, List.getElem?_modify] at hi
  obtain ⟨j, hj, rfl⟩ := Option.map_eq_some_iff.mp hi
  refine ⟨j, hj, ?_⟩
  split
  · exact j.follows_stop
  · exact .refl j

theorem stopCurrent (h : s.Succession kind started) (other : JobKind) :
    (s.stopCurrent other).Succession kind started := by
  unfold Scheduler.stopCurrent
  split
  · exact h
  · exact h.stopJob _

theorem turned (h : s.Succession kind started) {n : Nat} {j : Job ρ} {scan : Scan ρ}
    (hj : s.jobs[n]? = some j) :
    ({ s with jobs := s.jobs.set n { j with scan } } : Scheduler ρ).Succession kind started := by
  refine h.follows (by cases kind <;> rfl) (fun i j' hi => ?_) List.length_set
  rw [List.getElem?_set] at hi
  split at hi
  · next hn =>
    subst hn
    split at hi
    · cases hi
      exact ⟨j, hj, rfl, id⟩
    · cases hi
  · exact ⟨j', hi, .refl j'⟩

end Succession

/-! ## Stopping and starting -/

/-- The current job, if there is one, is asked to stop. -/
theorem stopped_stopCurrent {n : Nat} (hn : s.current kind = some n) {j : Job ρ}
    (hj : (s.stopCurrent kind).jobs[n]? = some j) : j.stopped = true := by
  unfold stopCurrent at hj
  rw [hn] at hj
  simp only [stopJob, List.getElem?_modify_eq] at hj
  obtain ⟨i, -, rfl⟩ := Option.map_eq_some_iff.mp hj
  rfl

theorem length_stopCurrent (s : Scheduler ρ) (kind : JobKind) :
    (s.stopCurrent kind).jobs.length = s.jobs.length := by
  unfold stopCurrent
  split
  · rfl
  · exact List.length_modify _ _ _

theorem jobs_launch_eq (config : Config) (s : Scheduler ρ) (kind : JobKind) (plan : Scan.Plan) :
    (s.launch config kind plan).jobs = (s.stopCurrent kind).jobs ++ [{
      kind
      after := if config.awaitPreviousJob then s.current kind else none
      scan := { plan } }] := by cases kind <;> rfl

theorem jobs_launch (config : Config) (s : Scheduler ρ) (kind : JobKind) (plan : Scan.Plan) :
    ∃ job : Job ρ, job.kind = kind ∧
      (s.launch config kind plan).jobs = (s.stopCurrent kind).jobs ++ [job] :=
  ⟨_, rfl, s.jobs_launch_eq config kind plan⟩

/-- Jobs of the other kind are not stopped, because the current job of a kind is of that kind. -/
theorem leaves_stopCurrent {started : List Nat} (h : s.Succession other started)
    (hne : kind ≠ other) : s.Leaves kind (s.stopCurrent other) := by
  unfold stopCurrent
  split
  · exact .refl kind s
  · next n hn =>
    refine leaves_stopJob fun ⟨j, hj, hk⟩ => ?_
    obtain ⟨i, hi, ho⟩ := h.has hn
    cases hj.symm.trans hi
    exact hne (hk.symm.trans ho)

theorem leaves_launch {started : List Nat} (h : s.Succession other started) (hne : kind ≠ other)
    (config : Config) (plan : Scan.Plan) : s.Leaves kind (s.launch config other plan) := by
  refine (leaves_stopCurrent h hne).trans ?_
  obtain ⟨job, hkind, hjobs⟩ := s.jobs_launch config other plan
  refine leaves_of_getElem? (s.stopCurrent other).jobs.length ?_ ?_ ?_ fun i hi => ?_
  · rw [current_launch, if_neg hne, current_stopCurrent]
  · intro j hj
    simp at hj
  · intro j hj
    rw [hjobs, List.getElem?_concat_length] at hj
    cases hj
    exact fun hk => hne (hk.symm.trans hkind)
  · rw [hjobs, List.getElem?_append, List.getElem?_singleton]
    split
    · rfl
    · rw [if_neg (by omega), List.getElem?_eq_none (by omega)]

/-- The job that is started succeeds the others of its kind, all of which have been asked to
stop. -/
theorem Succession.launch {started : List Nat} (h : s.Succession kind started) (config : Config)
    (plan : Scan.Plan) :
    (s.launch config kind plan).Succession kind (started ++ [s.jobs.length]) := by
  have hs := h.stopCurrent kind
  have hlength := s.length_stopCurrent kind
  obtain ⟨job, hkind, hjobs⟩ := s.jobs_launch config kind plan
  have hnew (n : Nat) (j : Job ρ) : (s.launch config kind plan).jobs[n]? = some j ↔
      (s.stopCurrent kind).jobs[n]? = some j ∨ n = s.jobs.length ∧ j = job := by
    rw [hjobs, ← hlength, List.getElem?_append]
    split <;> grind
  have hlt : ∀ n ∈ started, n < s.jobs.length := fun n hn => by
    obtain ⟨j, hj, -⟩ := (h.mem_iff n).mp hn
    exact (List.getElem?_eq_some_iff.mp hj).1
  constructor
  · rw [current_launch, if_pos rfl, List.getLast?_concat]
  · intro n
    rw [List.mem_append, List.mem_singleton, hs.mem_iff]
    constructor
    · rintro (⟨j, hj, hk⟩ | rfl)
      · exact ⟨j, (hnew n j).mpr (.inl hj), hk⟩
      · exact ⟨job, (hnew _ job).mpr (.inr ⟨rfl, rfl⟩), hkind⟩
    · rintro ⟨j, hj, hk⟩
      rcases (hnew n j).mp hj with hj | ⟨hn, -⟩
      · exact .inl ⟨j, hj, hk⟩
      · exact .inr hn
  · intro n j hj hk hn
    rw [current_launch, if_pos rfl] at hn
    rcases (hnew n j).mp hj with hj | ⟨rfl, -⟩
    · by_cases hc : s.current kind = some n
      · exact stopped_stopCurrent hc hj
      · exact hs.stopped n j hj hk (by rwa [current_stopCurrent])
    · exact absurd rfl hn
  · exact List.pairwise_append.mpr ⟨h.increasing, List.pairwise_singleton _ _, fun n hn m hm =>
      List.mem_singleton.mp hm ▸ hlt n hn⟩

/-! ## What happens to the jobs -/

variable [Entity ρ]

/-- What something that happens makes of a scheduler, with the job that it starts, if any. -/
inductive Moved (config : Config) (s : Scheduler ρ) :
    Happening ρ → Option (JobKind × Nat) → Scheduler ρ → Prop where
  | kept {h} : Moved config s h none s
  | turned {n way j scan} : s.jobs[n]? = some j →
      Moved config s (.turn (.job n way)) none { s with jobs := s.jobs.set n { j with scan } }
  | cancelled {n} : Moved config s (.stopJob n) none (s.stopJob n)
  | stopped {k} : Moved config s (.order (.stop k)) none (s.stopCurrent k)
  | launched {o k plan} : o.starts? = some k →
      Moved config s (.order o) (some (k, s.jobs.length)) (s.launch config k plan)

/-- Whether something that happens is about the jobs of a kind: an order about the kind, or
something done to a job of it. -/
def Concerns (s : Scheduler ρ) (kind : JobKind) : Happening ρ → Prop
  | .order o => o.kind? = some kind
  | .stopJob n | .turn (.job n _) => s.Has kind n
  | _ => False

theorem Moved.succession {config : Config} {h : Happening ρ} {launch : Option (JobKind × Nat)}
    {started : JobKind → List Nat} (hm : s.Moved config h launch s')
    (hs : ∀ kind, s.Succession kind (started kind)) (kind : JobKind) :
    s'.Succession kind
      (started kind ++ ((launch.filter (·.1 = kind)).map Prod.snd).toList) := by
  cases hm with
  | kept => simpa using hs kind
  | turned hj => simpa using (hs kind).turned hj
  | cancelled => simpa using (hs kind).stopJob _
  | stopped => simpa using (hs kind).stopCurrent _
  | @launched o other plan ho =>
    by_cases hk : other = kind
    · subst hk
      simpa [Option.filter] using (hs other).launch config plan
    · simpa [Option.filter, hk] using
        (hs kind).leaves (leaves_launch (hs other) (Ne.symm hk) config plan)

theorem Moved.leaves {config : Config} {h : Happening ρ} {launch : Option (JobKind × Nat)}
    {started : JobKind → List Nat} (hm : s.Moved config h launch s')
    (hs : ∀ kind, s.Succession kind (started kind)) (hc : ¬s.Concerns kind h) :
    s.Leaves kind s' := by
  cases hm with
  | kept => exact .refl kind s
  | @turned n way j scan hj =>
    have hk : j.kind ≠ kind := fun hk => hc ⟨j, hj, hk⟩
    refine leaves_of_getElem? n (by cases kind <;> rfl) ?_ ?_ fun i hi => ?_
    · intro i hi
      cases hj.symm.trans hi
      exact hk
    · intro i hi
      rw [List.getElem?_set_self (List.getElem?_eq_some_iff.mp hj).1] at hi
      cases hi
      exact hk
    · exact List.getElem?_set_ne (Ne.symm hi)
  | cancelled => exact leaves_stopJob hc
  | stopped => exact leaves_stopCurrent (hs _) fun h => hc (h ▸ rfl)
  | @launched o other plan ho =>
    refine leaves_launch (hs other) (fun h => hc ?_) config plan
    subst h
    cases o <;> first | exact ho | cases ho

end Scheduler

/-! ## Histories -/

namespace Migration

variable [Entity ρ]

/-- The kind and the number of the job that something starts, if it starts one. -/
def launch? (m : Migration ρ) : Happening ρ → Option (JobKind × Nat)
  | .order o => do
    let kind ← o.starts?
    let (answer, _) ← (m.obey o).toOption
    let n ← answer
    pure (kind, n)
  | _ => none

/-- The numbers of the jobs of a kind that are started in the course of a history, in their
order. -/
def launches (kind : JobKind) (m : Migration ρ) : List (Happening ρ) → List Nat
  | [] => []
  | h :: rest =>
    (((m.launch? h).filter (·.1 = kind)).map Prod.snd).toList ++ (m.perform h).launches kind rest

theorem scheduler_moved_order (m : Migration ρ) (o : Order) :
    m.scheduler.Moved m.config (.order o) (m.launch? (.order o))
      (m.perform (.order o)).scheduler := by
  simp only [launch?, perform]
  cases ho : m.obey o with
  | error e =>
    cases hs : o.starts? <;> exact .kept
  | ok x =>
    obtain ⟨answer, m'⟩ := x
    obtain ⟨policy, scheduler, hrun, rfl⟩ := obey_ok ho
    cases o with
    | route p =>
      cases hrun
      exact .kept
    | startFull =>
      cases hrun
      exact .launched rfl
    | startIncremental since poll =>
      simp only [Scheduler.run] at hrun
      cases hmode : Scan.Mode.every poll with
      | error e =>
        rw [hmode] at hrun
        cases hrun
      | ok mode =>
        rw [hmode] at hrun
        cases hrun
        exact .launched rfl
    | stop kind =>
      cases hrun
      exact .stopped

theorem scheduler_moved (m : Migration ρ) (h : Happening ρ) :
    m.scheduler.Moved m.config h (m.launch? h) (m.perform h).scheduler := by
  cases h with
  | turn t =>
    rcases m.perform_turn t with heq | ⟨m', heq, hmoved⟩
    · rw [heq]
      exact .kept
    · rw [heq]
      cases hmoved with
      | job hj => exact .turned hj
      | consumer | run | post => exact .kept
  | order o => exact m.scheduler_moved_order o
  | stopJob n => exact .cancelled
  | join handler group topic limit backoff stopped =>
    obtain ⟨b, -, heq | heq⟩ := m.startConsumer_cases handler group topic limit backoff stopped
    · rw [perform, heq]
      exact .kept
    · rw [perform, heq]
      exact .kept
  | _ => exact .kept

theorem succession_after {m : Migration ρ} {started : JobKind → List Nat}
    (hs : ∀ kind, m.scheduler.Succession kind (started kind)) (history : List (Happening ρ))
    (kind : JobKind) :
    (m.after history).scheduler.Succession kind (started kind ++ m.launches kind history) := by
  induction history generalizing m started with
  | nil => simpa [after, launches] using hs kind
  | cons h rest ih =>
    have := ih (m.scheduler_moved h |>.succession hs)
    rwa [List.append_assoc] at this

theorem succession_of_empty {m : Migration ρ} (hm : m.scheduler = {}) (history : List (Happening ρ))
    (kind : JobKind) : (m.after history).scheduler.Succession kind (m.launches kind history) := by
  refine @succession_after ρ _ m (fun _ => []) (fun kind => ?_) history kind
  rw [hm]
  exact .empty kind

/-- There is one live job of each kind. After every history of a migration that starts without jobs
the current job of a kind is the last one that was started, the jobs of the kind are those that were
started, and all but the current one have been asked to stop. Whatever happens next leaves the
current job and all jobs of a kind as they are, unless it concerns the kind. -/
theorem one_live_job (m : Migration ρ) (hm : m.scheduler = {}) (history : List (Happening ρ))
    (kind : JobKind) :
    let started := m.launches kind history
    let s := (m.after history).scheduler
    s.current kind = started.getLast? ∧
      started.Pairwise (· < ·) ∧
      (∀ n, n ∈ started ↔ ∃ j, s.jobs[n]? = some j ∧ j.kind = kind) ∧
      (∀ n ∈ started, s.current kind ≠ some n → ∃ j, s.jobs[n]? = some j ∧ j.stopped = true) ∧
      ∀ h, ¬s.Concerns kind h →
        let s' := ((m.after history).perform h).scheduler
        s'.current kind = s.current kind ∧
          ∀ (n : Nat) (j : Job ρ), j.kind = kind →
            (s'.jobs[n]? = some j ↔ s.jobs[n]? = some j) := by
  have hall := succession_of_empty hm history
  have hs := hall kind
  refine ⟨hs.current, hs.increasing, hs.mem_iff, fun n hn hc => ?_, fun h hc => ?_⟩
  · obtain ⟨j, hj, hk⟩ := (hs.mem_iff n).mp hn
    exact ⟨j, hj, hs.stopped n j hj hk hc⟩
  · have hl := ((m.after history).scheduler_moved h).leaves hall hc
    exact ⟨hl.current, hl.jobs⟩

/-- A migration of empty stores, before its first job. -/
def sampleIdle : Migration Account := { site := .ofRows [] [] .srcOnly }

/-- Orders that start three full jobs and an incremental one, with a start that is refused. -/
def sampleOrders : List (Happening Account) :=
  [.order .startFull, .order (.startIncremental 5 0), .order (.startIncremental 5 10),
    .order .startFull, .stopJob 1, .order (.stop .full), .order (.route .dstFirst),
    .order .startFull]

theorem one_live_job_sample :
    let s := (sampleIdle.after sampleOrders).scheduler
    sampleIdle.scheduler = {} ∧
      sampleIdle.launches .full sampleOrders = [0, 2, 3] ∧
      sampleIdle.launches .incremental sampleOrders = [1] ∧
      s.current .full = some 3 ∧ s.current .incremental = some 1 ∧
      (∀ n ∈ [0, 2], ∃ j, s.jobs[n]? = some j ∧ j.stopped = true) ∧
      ((sampleIdle.after sampleOrders).perform (.order .startFull)).scheduler.current
        .incremental = some 1 := by
  have hfull : sampleIdle.launches .full sampleOrders = [0, 2, 3] := by decide +kernel
  have hincremental : sampleIdle.launches .incremental sampleOrders = [1] := by decide +kernel
  obtain ⟨hcurrent, -, -, hstopped, -⟩ := one_live_job sampleIdle rfl sampleOrders .full
  obtain ⟨hother, -, -, -, hleaves⟩ := one_live_job sampleIdle rfl sampleOrders .incremental
  rw [hfull] at hcurrent hstopped
  rw [hincremental] at hother
  refine ⟨rfl, hfull, hincremental, hcurrent, hother, fun n hn => ?_, ?_⟩
  · refine hstopped n (List.mem_of_mem_take (i := 2) hn) fun h => ?_
    cases hcurrent.symm.trans h
    simp at hn
  · exact (hleaves (.order .startFull) nofun).1.trans hother

end Migration

end Cutover
