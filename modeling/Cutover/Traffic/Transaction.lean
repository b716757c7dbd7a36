import Cutover.Traffic.Fleet

/-!
# Transactions

A transaction over one ledger keeps its statements to itself until it is committed. A transaction of
a routing pool is one over the store that is written first, and perhaps another one over the store
that is written second, which it follows: whatever fails in the second one is noted and passed over.
A transaction that fails to end is rolled back.
-/

namespace Cutover.Traffic

/-- The outcome of a statement that changes something. -/
structure Outcome where
  rowsAffected : Nat := 1
  lastInsertId : Option Int := none
  deriving DecidableEq, Repr

/-- A transaction of a routing pool as it was begun. -/
structure Routed where
  /-- The name under which the pool's failures are kept. -/
  pool : String
  /-- The policy that the transaction was begun under. -/
  policy : Policy
  /-- The name of the store that is written first. -/
  primaryName : String
  deriving DecidableEq, Repr

inductive Transaction where
  /-- Over a ledger, with the statements that it keeps. -/
  | ledger (name : String) (pending : List Statement)
  /-- Over the store that is written first alone. -/
  | single (r : Routed) (primary : Transaction)
  /-- Over both stores, with the name of the one that is written second. -/
  | dual (r : Routed) (primary : Transaction) (secondaryName : String) (secondary : Transaction)

/-- Notes and passes over the failure of a store that is written second, if it failed. -/
def passOver {α : Type} (pool store operation : String) (s : Option Statement) :
    Except Error α → Fleet → Fleet
  | .ok _, f => f
  | .error e, f => f.addFailure pool ⟨store, operation, s.map Statement.display, e.message⟩

def firstRow : Except Error (List Row) → Except Error Row
  | .error e => .error e
  | .ok [] => .error .notFound
  | .ok (row :: _) => .ok row

namespace Transaction

def execute (s : Statement) : Transaction → Fleet → Except Error Outcome × Transaction × Fleet
  | .ledger name pending, f =>
    match f.reach name "tx_execute" with
    | (.error e, f) => (.error e, .ledger name pending, f)
    | (.ok (), f) => (.ok {}, .ledger name (pending ++ [s]), f)
  | .single r primary, f =>
    let (result, primary, f) := primary.execute s f
    (result, .single r primary, f)
  | .dual r primary secondaryName secondary, f =>
    match primary.execute s f with
    | (.error e, primary, f) => (.error e, .dual r primary secondaryName secondary, f)
    | (.ok outcome, primary, f) =>
      let (result, secondary, f) := secondary.execute s f
      (.ok outcome, .dual r primary secondaryName secondary,
        passOver r.pool secondaryName "tx_execute" (some s) result f)

def query (s : Statement) : Transaction → Fleet → Except Error (List Row) × Fleet
  | .ledger name _, f =>
    match f.reach name "tx_query" with
    | (.error e, f) => (.error e, f)
    | (.ok (), f) => (.ok ((f.ledger name).answer s), f)
  | .single _ primary, f => primary.query s f
  | .dual _ primary _ _, f => primary.query s f

def queryRow (s : Statement) (t : Transaction) (f : Fleet) : Except Error Row × Fleet :=
  let (result, f) := t.query s f
  (firstRow result, f)

/-- Gives a transaction up, which rolls it back. -/
def drop : Transaction → Fleet → Fleet
  | .ledger name _, f => f.modifyLedger name Ledger.rollBackOne
  | .single _ primary, f => primary.drop f
  | .dual _ primary _ secondary, f => secondary.drop (primary.drop f)

def commit : Transaction → Fleet → Except Error Unit × Fleet
  | .ledger name pending, f =>
    match f.reach name "commit" with
    | (.error e, f) => (.error e, f.modifyLedger name Ledger.rollBackOne)
    | (.ok (), f) => (.ok (), f.modifyLedger name (·.commitOne pending))
  | .single _ primary, f => primary.commit f
  | .dual r primary secondaryName secondary, f =>
    match primary.commit f with
    | (.error e, f) => (.error e, secondary.drop f)
    | (.ok (), f) =>
      let (result, f) := secondary.commit f
      (.ok (), passOver r.pool secondaryName "commit" none result f)

def rollBack : Transaction → Fleet → Except Error Unit × Fleet
  | .ledger name _, f =>
    let (result, f) := f.reach name "rollback"
    (result, f.modifyLedger name Ledger.rollBackOne)
  | .single _ primary, f => primary.rollBack f
  | .dual r primary secondaryName secondary, f =>
    match primary.rollBack f with
    | (.error e, f) => (.error e, secondary.drop f)
    | (.ok (), f) =>
      let (result, f) := secondary.rollBack f
      (.ok (), passOver r.pool secondaryName "rollback" none result f)

/-- How the transaction of a routing pool was begun. -/
def routed? : Transaction → Option Routed
  | .ledger .. => none
  | .single r _ => some r
  | .dual r .. => some r

def hasSecondary : Transaction → Bool
  | .dual .. => true
  | _ => false

end Transaction

end Cutover.Traffic
