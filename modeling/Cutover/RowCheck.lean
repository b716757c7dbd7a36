import Cutover.Comparison
import Cutover.Deployment

/-!
# Checks of one row

A row is looked up in both stores at once, the base first, and a mismatch is reported. A lookup that
fails ends the check; a report that does not go through is dropped, unless the check was asked to
stop.
-/

namespace Cutover

inductive Lookup (ρ : Type) where
  | asking (flight : Option Flight)
  | found (row : Option ρ)
  | failed (e : Error)

namespace Lookup

variable {ρ : Type} [Entity ρ]

/-- What progress with its call makes of a lookup. A missing row is an answer. -/
def after : Progress ρ → Lookup ρ
  | .underway f => asking (some f)
  | .answered (.ok r) => found (some r)
  | .answered (.error .notFound) => found none
  | .answered (.error e) => failed e

/-- The next move of a lookup. -/
def step (c : Comparison) (side : Side) (id : Int) (m : Moment) (d : Deployment ρ) :
    Lookup ρ → Option (Deployment ρ × Lookup ρ)
  | asking flight =>
    (d.call m (some c.callLimit) side (.first id) flight).map fun (d, p) => (d, after p)
  | _ => none

def wake? : Lookup ρ → Option Nat
  | asking flight => flight.map Flight.wake
  | _ => none

end Lookup

inductive RowCheck.Phase (ρ : Type) where
  | looking (base target : Lookup ρ)
  | reporting (kind : Mismatch) (flight : Option Flight)
  | done (result : Except Error Unit)

structure RowCheck (ρ : Type) where
  comparison : Comparison
  id : Int
  phase : RowCheck.Phase ρ := .looking (.asking none) (.asking none)

namespace RowCheck

variable {ρ : Type} [Entity ρ]

def result? (c : RowCheck ρ) : Option (Except Error Unit) :=
  match c.phase with
  | .done r => some r
  | _ => none

/-- What the lookups make of a check. -/
def settle : Lookup ρ → Lookup ρ → Phase ρ
  | .failed e, _ => .done (.error e)
  | _, .failed e => .done (.error e)
  | .found base, .found target =>
    match Mismatch.between base target with
    | none => .done (.ok ())
    | some kind => .reporting kind none
  | base, target => .looking base target

/-- What progress with its report makes of a check. -/
def afterReport (kind : Mismatch) : Progress Unit → Phase ρ
  | .underway f => .reporting kind (some f)
  | .answered (.error .cancelled) => .done (.error .cancelled)
  | .answered _ => .done (.ok ())

/-- The next move of a check, or nothing if it has to wait or has ended. -/
def step (m : Moment) (d : Deployment ρ) (c : RowCheck ρ) : Option (Deployment ρ × RowCheck ρ) :=
  let cmp := c.comparison
  match c.phase with
  | .looking base target =>
    ((base.step cmp cmp.base c.id m d).map fun (d, base) =>
        (d, { c with phase := settle base target })) <|>
      (target.step cmp cmp.target c.id m d).map fun (d, target) =>
        (d, { c with phase := settle base target })
  | .reporting kind flight =>
    (d.publish m (some cmp.callLimit) cmp.topic (cmp.report c.id kind).encode flight).map
      fun (d, p) => (d, { c with phase := afterReport kind p })
  | .done _ => none

def wake? (c : RowCheck ρ) : Option Nat :=
  match c.phase with
  | .looking base target => [base.wake?, target.wake?].reduceOption.min?
  | .reporting _ flight => flight.map Flight.wake
  | .done _ => none

end RowCheck

end Cutover
