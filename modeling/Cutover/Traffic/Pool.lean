import Cutover.Traffic.Transaction

/-!
# Pools

A pool takes statements and begins transactions. It is a ledger, or it routes to two pools under a
policy: reads go to the store that the policy names, and so do writes, which then also go to the
other store if the policy doubles them. A failure of the second store is noted and passed over.
-/

namespace Cutover.Traffic

inductive Pool where
  /-- The ledger with a name. -/
  | ledger (name : String)
  /-- A pool that keeps its failures and finds its policy under some names. -/
  | routed (pool policy : String) (src dst : Pool)
  deriving DecidableEq, Repr, Inhabited

/-- What is known of a routing pool. -/
structure RoutingStats where
  policy : Policy
  failures : FailureLog
  deriving DecidableEq, Repr

/-- The text that shows what is known of a routing pool. -/
def RoutingStats.display (s : RoutingStats) : String :=
  "Routing Stats: policy " ++ s.policy.name ++ ", " ++ toString s.failures.count ++
    " secondary failures"

namespace Pool

def name : Pool → String
  | .ledger name => name
  | .routed _ _ src dst => "routing(" ++ src.name ++ "," ++ dst.name ++ ")"

/-- One of two things by the side it is for. -/
def pick {α : Type} (src dst : α) : Side → α
  | .src => src
  | .dst => dst

def execute (s : Statement) : Pool → Fleet → Except Error Outcome × Fleet
  | .ledger name, f =>
    match f.reach name "execute" with
    | (.error e, f) => (.error e, f)
    | (.ok (), f) => (.ok {}, f.modifyLedger name (·.apply s))
  | .routed pool policy src dst, f =>
    let p := f.policy policy
    match pick (execute s src) (execute s dst) p.primary f with
    | (.error e, f) => (.error e, f)
    | (.ok outcome, f) =>
      match p.secondary with
      | none => (.ok outcome, f)
      | some side =>
        let (result, f) := pick (execute s src) (execute s dst) side f
        (.ok outcome, passOver pool (pick src dst side).name "execute" (some s) result f)

def query (s : Statement) : Pool → Fleet → Except Error (List Row) × Fleet
  | .ledger name, f =>
    match f.reach name "query" with
    | (.error e, f) => (.error e, f)
    | (.ok (), f) => (.ok ((f.ledger name).answer s), f)
  | .routed _ policy src dst, f =>
    pick (query s src) (query s dst) (f.policy policy).primary f

def queryRow (s : Statement) (p : Pool) (f : Fleet) : Except Error Row × Fleet :=
  let (result, f) := p.query s f
  (firstRow result, f)

/-- Begins a transaction. The policy in force is the transaction's from then on. -/
def begin : Pool → Fleet → Except Error Transaction × Fleet
  | .ledger name, f =>
    match f.reach name "begin" with
    | (.error e, f) => (.error e, f)
    | (.ok (), f) => (.ok (.ledger name []), f.modifyLedger name Ledger.openOne)
  | .routed pool policy src dst, f =>
    let p := f.policy policy
    match pick (begin src) (begin dst) p.primary f with
    | (.error e, f) => (.error e, f)
    | (.ok primary, f) =>
      let r : Routed := ⟨pool, p, (pick src dst p.primary).name⟩
      match p.secondary with
      | none => (.ok (.single r primary), f)
      | some side =>
        let secondaryName := (pick src dst side).name
        match pick (begin src) (begin dst) side f with
        | (.ok secondary, f) => (.ok (.dual r primary secondaryName secondary), f)
        | (.error e, f) =>
          (.ok (.single r primary),
            passOver pool secondaryName "begin" none (.error e : Except Error Unit) f)

/-- The text of a statement prepared on one connection, which a routing pool has not. -/
def prepare (sql : String) : Pool → Except Error String
  | .ledger _ => .ok sql
  | .routed .. => .error (.unsupported "prepare is not supported by the routing pool")

def stats? (f : Fleet) : Pool → Option RoutingStats
  | .ledger _ => none
  | .routed pool policy .. => some ⟨f.policy policy, f.failureLog pool⟩

end Pool

end Cutover.Traffic
