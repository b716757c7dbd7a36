import Cutover.Comparison

/-!
# Plans of scans

What is fixed when a scan is set up: the comparison, which base rows are looked at, whether the scan
goes on for ever, and the limits taken from the configuration.
-/

namespace Cutover.Scan

/-- Whether a scan ends when it has seen all rows or looks for new ones from time to time. -/
inductive Mode where
  | oneShot
  | continuous (poll : Nat)
  deriving DecidableEq, Repr, Inhabited

namespace Mode

/-- A scan that goes on for ever. It cannot look for new rows without a pause. -/
def every (poll : Nat) : Except Error Mode :=
  if poll = 0 then .error (.config "poll interval must be > 0 for a continuous scan")
  else .ok (.continuous poll)

/-- The pause between two looks for new rows. -/
def poll? : Mode → Option Nat
  | oneShot => none
  | continuous poll => some poll

theorem every_eq_ok_iff {poll : Nat} {mode : Mode} :
    every poll = .ok mode ↔ 0 < poll ∧ mode = .continuous poll := by
  unfold every
  split
  · next h => simp [h]
  · next h =>
    constructor
    · intro he; cases he; exact ⟨Nat.pos_of_ne_zero h, rfl⟩
    · rintro ⟨-, rfl⟩; rfl

end Mode

/-- What is fixed when a scan is set up. -/
structure Plan extends Comparison where
  /-- Of the base, only rows changed at this time or later are looked at. -/
  since : Option Int := none
  mode : Mode := .oneShot
  /-- How many rows a page has. -/
  batch : Nat
  /-- After how many failed pages in a row a direction gives up. -/
  failureLimit : Nat
  deriving DecidableEq, Repr, Inhabited

/-- The plan of a scan with a given base. -/
def Plan.ofSide (config : Config) (base : Side) (since : Option Int) (mode : Mode) : Plan where
  toComparison := .ofSide config base
  since
  mode
  batch := config.batchSize
  failureLimit := config.maxConsecutiveFailures

end Cutover.Scan
