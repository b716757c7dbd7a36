import Cutover.Assoc
import Cutover.Error

/-!
# Planned faults

A collaborator can be told to answer late, and to refuse the next calls of an operation or of any
operation. A call is counted and its delay fixed when it starts; whether it is refused is decided
when its delay is over. Main statements: `FaultPlan.spend_eq`, `FaultPlan.eq_of_refusal?`.
-/

namespace Cutover

/-- The faults planned for a collaborator, and the number of calls it has seen. -/
structure FaultPlan where
  /-- How many calls of an operation are still to be refused. -/
  armed : Assoc String Nat := {}
  /-- How many milliseconds a call takes. -/
  latency : Nat := 0
  calls : Nat := 0
  deriving Repr, Inhabited

namespace FaultPlan

def anyOperation : String := "*"

/-- Plans to refuse the next `n` calls of an operation, and no longer what was planned for it. -/
def arm (f : FaultPlan) (op : String) (n : Nat) : FaultPlan := { f with armed := f.armed.put op n }

def start (f : FaultPlan) : FaultPlan := { f with calls := f.calls + 1 }

/-- Uses up one of the refusals planned under a name. -/
def spend (f : FaultPlan) (name : String) : Option FaultPlan :=
  match f.armed.get? name with
  | some (n + 1) => some { f with armed := f.armed.put name n }
  | _ => none

/-- Uses up a refusal for a call of an operation: one planned for the operation before one planned
for any. -/
def refusal? (f : FaultPlan) (op : String) : Option FaultPlan :=
  f.spend op <|> f.spend anyOperation

def refusal (target op : String) : Error :=
  .store ("injected failure: " ++ op ++ " on " ++ target)

theorem spend_eq (f : FaultPlan) (name : String) :
    f.spend name = if f.armed.getD name 0 = 0 then none
      else some { f with armed := f.armed.put name (f.armed.getD name 0 - 1) } := by
  unfold spend Assoc.getD
  split
  · next h => simp [h]
  · next h =>
    cases hn : f.armed.get? name with
    | none => rfl
    | some n => cases n with
      | zero => rfl
      | succ n => exact absurd hn (h n)

/-- To use a refusal up changes nothing but the refusals that are still planned. -/
theorem eq_of_refusal? {f f' : FaultPlan} {op : String} (h : f.refusal? op = some f') :
    f' = { f with armed := f'.armed } := by
  have spent {name : String} (h : f.spend name = some f') : f' = { f with armed := f'.armed } := by
    rw [spend_eq] at h
    split at h
    · cases h
    · cases h
      rfl
  unfold refusal? at h
  cases hs : f.spend op with
  | some g =>
    rw [hs] at h
    cases h
    exact spent hs
  | none =>
    rw [hs] at h
    exact spent h

@[simp] theorem calls_start (f : FaultPlan) : f.start.calls = f.calls + 1 := rfl

@[simp] theorem latency_start (f : FaultPlan) : f.start.latency = f.latency := rfl

end FaultPlan

end Cutover
