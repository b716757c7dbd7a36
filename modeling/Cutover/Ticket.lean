import Cutover.Job

/-!
# Tickets

A ticket stands for a job whose work is done elsewhere. Its holder can ask the job to stop and wait
for its end; whoever does the work announces the end, at once or after some time. Giving the work up
counts as its end. Main definition: `Ticket.await`.
-/

namespace Cutover

/-- What is known of the end of a job. -/
inductive Ending where
  | open
  /-- The end is to come at some moment. -/
  | at (time : Nat)
  | reached
  deriving DecidableEq, Repr

/-- A job whose work is done elsewhere. -/
structure Ticket where
  kind : JobKind
  stopped : Bool := false
  ending : Ending := .open
  deriving DecidableEq, Repr

namespace Ticket

def isFinished (t : Ticket) : Bool := t.ending == .reached

def stop (t : Ticket) : Ticket := { t with stopped := true }

/-- Announces what is to come. The end is announced once. -/
def announce (t : Ticket) (ending : Ending) : Ticket :=
  if t.ending = .open then { t with ending } else t

/-- Waits for the end from a moment on, for some milliseconds at most: whether it came, when the
waiting is over, and the ticket then. An end that comes with the last millisecond comes too late. -/
def await (t : Ticket) (now limit : Nat) : Bool × Nat × Ticket :=
  match t.ending with
  | .reached => (true, now, t)
  | .open => (false, now + limit, t)
  | .at time =>
    let time := max now time
    if time < now + limit then (true, time, { t with ending := .reached })
    else (false, now + limit, t)

end Ticket

end Cutover
