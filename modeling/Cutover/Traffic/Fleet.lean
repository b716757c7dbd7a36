import Cutover.Fault
import Cutover.Side
import Cutover.Value

/-!
# Stores of statements

Traffic reaches a store as statements. A `Ledger` is such a store: it keeps the statements that were
applied, in order, answers queries with rows that it was given, and counts its transactions. A
`Fleet` holds the ledgers, the policies under which traffic is routed to them, and what went wrong
in stores that are only written second. Everything in a fleet goes by a name. Main statements:
reaching a ledger changes neither its statements nor its transactions (`Fleet.ledger_reach`).
-/

namespace Cutover.Traffic

abbrev Row := List Value

/-- A store that keeps the statements applied to it. -/
structure Ledger where
  committed : List Statement := []
  /-- The rows with which a query is answered, by its SQL text. -/
  answers : Assoc String (List Row) := {}
  opened : Nat := 0
  commits : Nat := 0
  rollbacks : Nat := 0
  faults : FaultPlan := {}
  deriving Repr, Inhabited

namespace Ledger

def answer (l : Ledger) (s : Statement) : List Row := l.answers.getD s.sql []

def apply (l : Ledger) (s : Statement) : Ledger := { l with committed := l.committed ++ [s] }

def openOne (l : Ledger) : Ledger := { l with opened := l.opened + 1 }

def commitOne (l : Ledger) (pending : List Statement) : Ledger :=
  { l with
    opened := l.opened - 1
    commits := l.commits + 1
    committed := l.committed ++ pending }

def rollBackOne (l : Ledger) : Ledger :=
  { l with opened := l.opened - 1, rollbacks := l.rollbacks + 1 }

end Ledger

/-- A failure of a store that is written second. -/
structure Failure where
  store : String
  operation : String
  /-- The statement as it is shown, if the operation has one. -/
  statement : Option String
  error : String
  deriving DecidableEq, Repr

/-- The failures that a pool has passed over: their number and the last one. -/
structure FailureLog where
  count : Nat := 0
  last : Option Failure := none
  deriving DecidableEq, Repr, Inhabited

def FailureLog.add (l : FailureLog) (f : Failure) : FailureLog := ⟨l.count + 1, some f⟩

/-- Ledgers, policies and failures by name. A name that nothing was kept under stands for an empty
ledger, the first policy, and no failures. -/
structure Fleet where
  ledgers : Assoc String Ledger := {}
  policies : Assoc String Policy := {}
  failures : Assoc String FailureLog := {}
  /-- The time that calls have taken, in milliseconds. -/
  now : Nat := 0
  deriving Inhabited

namespace Fleet

def ledger (f : Fleet) (name : String) : Ledger := f.ledgers.getD name {}

def setLedger (f : Fleet) (name : String) (l : Ledger) : Fleet :=
  { f with ledgers := f.ledgers.put name l }

def modifyLedger (f : Fleet) (name : String) (g : Ledger → Ledger) : Fleet :=
  f.setLedger name (g (f.ledger name))

def policy (f : Fleet) (name : String) : Policy := f.policies.getD name .srcOnly

def setPolicy (f : Fleet) (name : String) (p : Policy) : Fleet :=
  { f with policies := f.policies.put name p }

def failureLog (f : Fleet) (pool : String) : FailureLog := f.failures.getD pool {}

/-- Adds a failure that the pool with a name passes over. -/
def addFailure (f : Fleet) (pool : String) (failure : Failure) : Fleet :=
  { f with failures := f.failures.put pool ((f.failureLog pool).add failure) }

/-- A call of an operation reaches a ledger, or is refused on the way. -/
def reach (f : Fleet) (name op : String) : Except Error Unit × Fleet :=
  let l := f.ledger name
  let faults := l.faults.start
  let f : Fleet := { f with now := f.now + faults.latency }
  match faults.refusal? op with
  | some faults => (.error (FaultPlan.refusal name op), f.setLedger name { l with faults })
  | none => (.ok (), f.setLedger name { l with faults })

theorem ledger_setLedger (f : Fleet) (name other : String) (l : Ledger) :
    (f.setLedger name l).ledger other = if other = name then l else f.ledger other := by
  simp only [setLedger, ledger, Assoc.getD_put]

theorem policy_setPolicy (f : Fleet) (name other : String) (p : Policy) :
    (f.setPolicy name p).policy other = if other = name then p else f.policy other := by
  simp only [setPolicy, policy, Assoc.getD_put]

/-- Reaching a ledger changes the faults planned for it and nothing else in the ledgers. -/
theorem ledger_reach (f : Fleet) (name op other : String) :
    (f.reach name op).2.ledger other =
      { f.ledger other with faults := ((f.reach name op).2.ledger other).faults } := by
  unfold reach
  dsimp only
  cases (f.ledger name).faults.start.refusal? op <;> simp only [ledger_setLedger] <;>
    by_cases h : other = name <;> simp only [h, if_true, if_false] <;> rfl

end Fleet

end Cutover.Traffic
