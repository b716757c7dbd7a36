import Cutover.Deployment

/-!
# Repairs

A repair makes the row of an id in the target what it is in the base: it reads the base, and then
writes the row or removes it. It has no limit of its own. Whatever the report said, the base is read
again.
-/

namespace Cutover

inductive Repair.Phase (ρ : Type) where
  | reading
  | writing (row : ρ)
  | removing
  | done (result : Except Error Unit)

structure Repair (ρ : Type) where
  base : Side
  id : Int
  phase : Repair.Phase ρ := .reading
  /-- The call that the repair waits for, once it has started. -/
  flight : Option Flight := none

namespace Repair

variable {ρ : Type} [Entity ρ]

def result? (r : Repair ρ) : Option (Except Error Unit) :=
  match r.phase with
  | .done r => some r
  | _ => none

/-- The repair in its next phase, for which nothing has started yet. -/
def enter (r : Repair ρ) (phase : Phase ρ) : Repair ρ := { r with phase, flight := none }

/-- What the base's answer makes of a repair. -/
def afterRead (r : Repair ρ) : Except Error ρ → Repair ρ
  | .ok row => r.enter (.writing row)
  | .error .notFound => r.enter .removing
  | .error e => r.enter (.done (.error e))

/-- What the target's answer makes of a repair. -/
def afterWrite {α : Type} (r : Repair ρ) (answer : Except Error α) : Repair ρ :=
  r.enter (.done (answer.map fun _ => ()))

/-- What progress with its call makes of a repair. -/
def after {α : Type} (r : Repair ρ) (answer : Except Error α → Repair ρ) : Progress α → Repair ρ
  | .underway f => { r with flight := some f }
  | .answered a => answer a

/-- The next move of a repair, or nothing if it has to wait or has ended. -/
def step (m : Moment) (d : Deployment ρ) (r : Repair ρ) : Option (Deployment ρ × Repair ρ) :=
  match r.phase with
  | .reading =>
    (d.call m none r.base (.first r.id) r.flight).map fun (d, p) => (d, r.after r.afterRead p)
  | .writing row =>
    (d.call m none r.base.other (.upsert row) r.flight).map
      fun (d, p) => (d, r.after r.afterWrite p)
  | .removing =>
    (d.call m none r.base.other (.delete r.id) r.flight).map
      fun (d, p) => (d, r.after r.afterWrite p)
  | .done _ => none

def wake? (r : Repair ρ) : Option Nat := r.flight.map Flight.wake

end Repair

end Cutover
