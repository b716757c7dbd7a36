import Cutover.Scan

/-!
# Jobs

A job is a scan that runs in the background. It may have to wait for the end of another job, asked
to stop or not, and does not move while it waits. Main definition: `Job.step`.
-/

namespace Cutover

/-- The kinds of jobs. Of each kind one job is current at a time. -/
inductive JobKind where
  /-- A scan of all rows that ends. -/
  | full
  /-- A scan of the rows changed since some time that goes on for ever. -/
  | incremental
  deriving DecidableEq, Repr, Inhabited

def JobKind.name : JobKind → String
  | full => "full"
  | incremental => "incremental"

def JobKind.ofName? (s : String) : Option JobKind := [full, incremental].find? (·.name == s)

structure Job (ρ : Type) where
  kind : JobKind
  /-- The number of the job that has to end first, if any. -/
  after : Option Nat := none
  scan : Scan ρ
  stopped : Bool := false

namespace Job

variable {ρ : Type} [Entity ρ]

def stop (j : Job ρ) : Job ρ := { j with stopped := true }

def isFinished (j : Job ρ) : Bool := j.scan.isOver

/-- Whether a job has to wait for another one of some jobs, which are numbered in their order. -/
def isBlocked (jobs : List (Job ρ)) (j : Job ρ) : Bool :=
  match j.after with
  | none => false
  | some n => (jobs[n]?).any (!·.isFinished)

/-- The next move of a job among others in a direction of its scan, or nothing if it has to wait or
has ended. -/
def step (way : Scan.Way) (now : Nat) (jobs : List (Job ρ)) (d : Deployment ρ) (j : Job ρ) :
    Option (Deployment ρ × Job ρ) :=
  if j.isBlocked jobs then none
  else (j.scan.stepWay way ⟨now, j.stopped⟩ d).map fun (d, scan) => (d, { j with scan })

/-- When a job has to move next. -/
def wake? (jobs : List (Job ρ)) (j : Job ρ) : Option Nat :=
  if j.isBlocked jobs then none else j.scan.wake?

end Job

end Cutover
