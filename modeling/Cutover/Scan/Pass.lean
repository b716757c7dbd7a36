import Cutover.Deployment
import Cutover.Scan.Plan

/-!
# One direction of a scan

A scan goes through the base and looks its rows up in the target, and goes through the target and
looks its ids up in the base. Each direction is a pass: it reads a page, compares it, reports what
it found row by row, and goes on behind the page; a page that cannot be read or compared is left
out. Offsets have 64 bits: a pass whose offset comes to more has broken down (`Pass.isBroken`). The
functions `afterPage`, `afterLookup`, `afterReport` and `afterPause` say what an answer makes of a
pass, and `Pass.step` waits for the answer.
-/

namespace Cutover.Scan

variable {ρ : Type} [Entity ρ]

/-! ## What is compared -/

/-- Which rows a pass goes through. -/
inductive Way where
  /-- The rows of the base, looked up in the target. -/
  | baseToTarget
  /-- The rows of the target, looked up in the base. -/
  | targetToBase
  deriving DecidableEq, Repr, Inhabited

/-- The rows without those whose id came before. -/
def dedup : List ρ → List ρ
  | [] => []
  | r :: rest => r :: (dedup rest).filter fun s => Entity.id s != Entity.id r

/-- The last row with an id. -/
def last? (id : Int) (rows : List ρ) : Option ρ := Rows.first? id rows.reverse

/-- The mismatches of a page of base rows, with the rows found in the target. -/
def baseMismatches (page found : List ρ) : List (Int × Mismatch) :=
  page.filterMap fun r =>
    (Mismatch.between (some r) (last? (Entity.id r) found)).map (Entity.id r, ·)

/-- The mismatches of a page of target rows, with the ids found in the base. -/
def targetMismatches (page : List ρ) (found : List Int) : List (Int × Mismatch) :=
  (page.filter fun r => !found.contains (Entity.id r)).map (Entity.id ·, .baseMissing)

/-! ## Passes -/

inductive Phase (ρ : Type) where
  | reading
  /-- Comparing the rows of a page, of which `fetched` came. -/
  | comparing (fetched : Nat) (page : List ρ)
  /-- Reporting a mismatch of the page, with more to report. -/
  | reporting (fetched : Nat) (id : Int) (kind : Mismatch) (rest : List (Int × Mismatch))
  /-- Letting time pass before it looks for new rows. -/
  | pausing
  | done (result : Except Error Unit)

/-- A direction of a scan. -/
structure Pass (ρ : Type) where
  way : Way
  /-- How many rows lie behind it. It breaks down when they come to more than 64 bits can count. -/
  offset : Nat := 0
  /-- How many pages in a row have been left out. -/
  failures : Nat := 0
  phase : Phase ρ := .reading
  /-- The call that the pass waits for, once it has started. -/
  flight : Option Flight := none

namespace Pass

def result? (p : Pass ρ) : Option (Except Error Unit) :=
  match p.phase with
  | .done r => some r
  | _ => none

/-- Whether the offset has come to more than 64 bits can count. -/
def isBroken (p : Pass ρ) : Bool := decide (UInt64.size ≤ p.offset)

/-- The pass in its next phase, for which nothing has started yet. -/
def enter (p : Pass ρ) (phase : Phase ρ) : Pass ρ := { p with phase, flight := none }

/-- The side whose pages are read. -/
def pageSide (plan : Plan) (p : Pass ρ) : Side :=
  match p.way with
  | .baseToTarget => plan.base
  | .targetToBase => plan.target

/-- The page that is read next. Only the base is read from some time on. -/
def pageQuery (plan : Plan) (p : Pass ρ) : PageQuery :=
  ⟨p.offset, plan.batch, match p.way with | .baseToTarget => plan.since | .targetToBase => none⟩

/-- Goes on behind a page: at once if the page was full; otherwise the scan has seen all rows. -/
def turn (plan : Plan) (p : Pass ρ) (fetched : Nat) : Pass ρ :=
  let p := { p with offset := p.offset + fetched }
  if plan.batch ≤ fetched then p.enter .reading
  else
    match plan.mode with
    | .oneShot => p.enter (.done (.ok ()))
    | .continuous _ => p.enter .pausing

/-- Leaves a page out and goes on as `next` says, unless that were too many pages in a row. -/
def leaveOut (plan : Plan) (p : Pass ρ) (next : Pass ρ → Pass ρ) : Pass ρ :=
  let p := { p with failures := p.failures + 1 }
  if plan.failureLimit ≤ p.failures then p.enter (.done (.ok ())) else next p

/-- Reports mismatches of a page, and goes on behind the page when there are no more. -/
def reportAll (plan : Plan) (p : Pass ρ) (fetched : Nat) : List (Int × Mismatch) → Pass ρ
  | [] => turn plan { p with failures := 0 } fetched
  | (id, kind) :: rest => p.enter (.reporting fetched id kind rest)

/-- What the answer to reading a page makes of a pass. A page that cannot be read is passed by at
its full size. -/
def afterPage (plan : Plan) (p : Pass ρ) : Except Error (List ρ) → Pass ρ
  | .error e =>
    if e.isCancellation then p.enter (.done (.error e))
    else
      leaveOut plan p fun p => { p with offset := p.offset + plan.batch }.enter .reading
  | .ok rows =>
    match dedup rows with
    | [] => reportAll plan p rows.length []
    | r :: page => p.enter (.comparing rows.length (r :: page))

/-- What the answer to looking rows up makes of a pass. -/
def afterLookup (plan : Plan) (p : Pass ρ) (fetched : Nat) :
    Except Error (List (Int × Mismatch)) → Pass ρ
  | .error e =>
    if e.isCancellation then p.enter (.done (.error e)) else leaveOut plan p (turn plan · fetched)
  | .ok found => reportAll plan p fetched found

/-- What the answer to a report makes of a pass. A report that did not go through is dropped, unless
the pass was asked to stop. -/
def afterReport (plan : Plan) (p : Pass ρ) (fetched : Nat) (rest : List (Int × Mismatch)) :
    Except Error Unit → Pass ρ
  | .error .cancelled => p.enter (.done (.error .cancelled))
  | _ => reportAll plan p fetched rest

/-- What the end of a pause makes of a pass. -/
def afterPause (p : Pass ρ) : Except Error Unit → Pass ρ
  | .error e => p.enter (.done (.error e))
  | .ok () => p.enter .reading

/-- What progress with its call makes of a pass. -/
def after {α : Type} (p : Pass ρ) (answer : Except Error α → Pass ρ) : Progress α → Pass ρ
  | .underway f => { p with flight := some f }
  | .answered r => answer r

/-- The next move of a pass, or nothing if it has to wait or has ended. -/
def step (plan : Plan) (m : Moment) (d : Deployment ρ) (p : Pass ρ) :
    Option (Deployment ρ × Pass ρ) :=
  let limit := some plan.callLimit
  match p.phase with
  | .reading =>
    (d.call m limit (p.pageSide plan) (.findPage (p.pageQuery plan)) p.flight).map
      fun (d, progress) => (d, p.after (afterPage plan p) progress)
  | .comparing fetched page =>
    match p.way with
    | .baseToTarget =>
      (d.call m limit plan.target (.findByIds (page.map Entity.id)) p.flight).map
        fun (d, progress) =>
          (d, p.after (fun r => afterLookup plan p fetched (r.map (baseMismatches page))) progress)
    | .targetToBase =>
      (d.call m limit plan.base (.findIds (page.map Entity.id)) p.flight).map
        fun (d, progress) =>
          (d, p.after (fun r => afterLookup plan p fetched
            (r.map (targetMismatches page))) progress)
  | .reporting fetched id kind rest =>
    (d.publish m limit plan.topic (plan.report id kind).encode p.flight).map
      fun (d, progress) => (d, p.after (afterReport plan p fetched rest) progress)
  | .pausing =>
    (Flight.pause m (plan.mode.poll?.getD 0) p.flight).map
      fun progress => (d, p.after (afterPause p) progress)
  | .done _ => none

def wake? (p : Pass ρ) : Option Nat := p.flight.map Flight.wake

end Pass

end Cutover.Scan
