import Cutover.Flight

/-!
# Limits

A call under a limit, on its own, for a caller who may be asked to stop at some moment. Main
definition: `Deadline.run`, which says how the call ends and when.
-/

namespace Cutover.Deadline

/-- When a caller is asked to stop, if ever. -/
inductive Stop where
  | before
  /-- At a moment, behind all else that happens in it. -/
  | at (time : Nat)
  | never
  deriving DecidableEq, Repr

/-- The moment in which the caller of a call under way looks at it next. -/
def Stop.moment (stop : Stop) (f : Flight) : Moment :=
  match stop with
  | .at time => if time < f.wake then ⟨time, true⟩ else ⟨f.wake, false⟩
  | _ => ⟨f.wake, false⟩

/-- How a call that takes `work` milliseconds ends, and when. -/
def run {α : Type} (stop : Stop) (limit : Option Nat) (work : Nat) (result : Except Error α) :
    Except Error α × Nat :=
  let step (m : Moment) (f : Option Flight) : Option (Unit × Progress α) :=
    Flight.step m limit (fun u => (u, ⟨work, none⟩)) (fun u => (result, u)) f ()
  match step ⟨0, stop == .before⟩ none with
  | some (_, .underway f) =>
    let m := stop.moment f
    match step m (some f) with
    | some (_, .answered r) => (r, m.now)
    | _ => (.error .deadlineExceeded, m.now)
  | some (_, .answered r) => (r, 0)
  | none => (.error .deadlineExceeded, 0)

/-- Without a request to stop a call gives its result if it takes no longer than its limit. -/
theorem run_never {α : Type} (limit work : Nat) (result : Except Error α) :
    run .never (some limit) work result =
      if work ≤ limit then (result, work) else (.error .deadlineExceeded, limit) := by
  by_cases h : work ≤ limit
  · simp [run, Flight.step, Stop.moment, Flight.wake, h]
  · have hl := Nat.le_of_lt (Nat.not_le.1 h)
    simp [run, Flight.step, Stop.moment, Flight.wake, Flight.isOverdue, h, Nat.min_eq_right hl]

end Cutover.Deadline
