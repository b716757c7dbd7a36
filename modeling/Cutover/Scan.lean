import Cutover.Scan.Pass

/-!
# Scans

A scan is two passes side by side, one in each direction. It fails with the first pass that fails,
and the other one is then left where it is; it succeeds when both have. A pass that breaks down
takes the scan with it, which then never has a result. The pass through the base moves first.
-/

namespace Cutover

structure Scan (ρ : Type) where
  plan : Scan.Plan
  forth : Scan.Pass ρ := { way := .baseToTarget }
  back : Scan.Pass ρ := { way := .targetToBase }

namespace Scan

variable {ρ : Type} [Entity ρ]

def pass (s : Scan ρ) : Way → Pass ρ
  | .baseToTarget => s.forth
  | .targetToBase => s.back

def setPass (s : Scan ρ) (p : Pass ρ) : Way → Scan ρ
  | .baseToTarget => { s with forth := p }
  | .targetToBase => { s with back := p }

/-- Whether a pass has broken down, and the scan with it. -/
def isBroken (s : Scan ρ) : Bool := s.forth.isBroken || s.back.isBroken

/-- How a scan ended, if it did with a result. -/
def result? (s : Scan ρ) : Option (Except Error Unit) :=
  match s.forth.result?, s.back.result? with
  | some (.error e), _ => some (.error e)
  | _, some (.error e) => some (.error e)
  | some (.ok ()), some (.ok ()) => if s.isBroken then none else some (.ok ())
  | _, _ => none

/-- Whether a scan has come to its end, with a result or without one. -/
def isOver (s : Scan ρ) : Bool := s.isBroken || s.result?.isSome

/-- The end of a scan, if it has come: its result, or that it has none. -/
def end? (s : Scan ρ) : Option (Option (Except Error Unit)) :=
  if s.isOver then some s.result? else none

def stepWay (way : Way) (m : Moment) (d : Deployment ρ) (s : Scan ρ) :
    Option (Deployment ρ × Scan ρ) :=
  if s.isOver then none
  else ((s.pass way).step s.plan m d).map fun (d, p) => (d, s.setPass p way)

/-- The next move of a scan, or nothing if it has to wait or has ended. -/
def step (m : Moment) (d : Deployment ρ) (s : Scan ρ) : Option (Deployment ρ × Scan ρ) :=
  s.stepWay .baseToTarget m d <|> s.stepWay .targetToBase m d

def wake? (s : Scan ρ) : Option Nat :=
  if s.isOver then none else min? s.forth.wake? s.back.wake?
where
  /-- The earlier of two moments. -/
  min? : Option Nat → Option Nat → Option Nat
    | some a, some b => some (min a b)
    | a, none => a
    | none, b => b

end Scan

end Cutover
