import Cutover.Job

/-!
# The scheduler

The scheduler switches the routing policy and starts and stops jobs. It keeps the latest job of each
kind; a job that is started asks the job in its place to stop. Everything that can be asked of the
scheduler is an `Order`, and `Scheduler.run` carries one out. Main statements: what a start makes of
the current jobs (`Scheduler.current_launch`), and that nothing else changes them
(`Scheduler.current_stopCurrent`).
-/

namespace Cutover

/-- The jobs of a migration, numbered in the order in which they were started. -/
structure Scheduler (ρ : Type) where
  jobs : List (Job ρ) := []
  /-- The number of the current full job. -/
  full : Option Nat := none
  /-- The number of the current incremental job. -/
  incremental : Option Nat := none

/-- What can be asked of the scheduler. -/
inductive Order where
  | route (p : Policy)
  | startFull
  /-- Starts a scan of the rows changed since some time, which looks for new rows again after some
  milliseconds. -/
  | startIncremental (since : Int) (poll : Nat)
  | stop (kind : JobKind)
  deriving DecidableEq, Repr

structure JobStatus where
  number : Nat
  kind : JobKind
  stopped : Bool
  running : Bool
  deriving DecidableEq, Repr

namespace Scheduler

variable {ρ : Type}

instance : Inhabited (Scheduler ρ) := ⟨{}⟩

def current (s : Scheduler ρ) : JobKind → Option Nat
  | .full => s.full
  | .incremental => s.incremental

def setCurrent (s : Scheduler ρ) (n : Nat) : JobKind → Scheduler ρ
  | .full => { s with full := some n }
  | .incremental => { s with incremental := some n }

def stopJob (s : Scheduler ρ) (n : Nat) : Scheduler ρ := { s with jobs := s.jobs.modify n Job.stop }

def stopCurrent (s : Scheduler ρ) (kind : JobKind) : Scheduler ρ :=
  match s.current kind with
  | none => s
  | some n => s.stopJob n

/-- Starts a job in the place of the current one of its kind. -/
def launch (config : Config) (s : Scheduler ρ) (kind : JobKind) (plan : Scan.Plan) : Scheduler ρ :=
  let after := if config.awaitPreviousJob then s.current kind else none
  let job : Job ρ := { kind, after, scan := { plan } }
  let jobs := (s.stopCurrent kind).jobs ++ [job]
  { s with jobs }.setCurrent s.jobs.length kind

@[simp] theorem current_setCurrent (s : Scheduler ρ) (n : Nat) (kind other : JobKind) :
    (s.setCurrent n kind).current other = if other = kind then some n else s.current other := by
  cases kind <;> cases other <;> rfl

@[simp] theorem current_stopCurrent (s : Scheduler ρ) (kind other : JobKind) :
    (s.stopCurrent kind).current other = s.current other := by
  unfold stopCurrent
  split
  · rfl
  · cases other <;> rfl

theorem current_launch (config : Config) (s : Scheduler ρ) (kind other : JobKind)
    (plan : Scan.Plan) :
    (s.launch config kind plan).current other =
      if other = kind then some s.jobs.length else s.current other := by
  unfold launch
  simp only [current_setCurrent]
  split
  · rfl
  · cases other <;> rfl

/-- Carries out an order. The base of a job is the side that serves reads when it is started. The
answer is the number of the job that the order was about, if it was about one. -/
def run (config : Config) (policy : Policy) (s : Scheduler ρ) :
    Order → Except Error (Option Nat × Policy × Scheduler ρ)
  | .route p => .ok (none, p, s)
  | .startFull =>
    let s' := s.launch config .full (.ofSide config policy.primary none .oneShot)
    .ok (some s.jobs.length, policy, s')
  | .startIncremental since poll =>
    (Scan.Mode.every poll).map fun mode =>
      let s' := s.launch config .incremental (.ofSide config policy.primary (some since) mode)
      (some s.jobs.length, policy, s')
  | .stop kind => .ok (s.current kind, policy, s.stopCurrent kind)

def jobStatus? (s : Scheduler ρ) (n : Nat) : Option JobStatus :=
  (s.jobs[n]?).map fun j => ⟨n, j.kind, j.stopped, !j.isFinished⟩

def status? (s : Scheduler ρ) (kind : JobKind) : Option JobStatus :=
  (s.current kind).bind s.jobStatus?

end Scheduler

end Cutover
