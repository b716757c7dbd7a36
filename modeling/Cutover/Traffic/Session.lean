import Cutover.Traffic.Pool

/-!
# Sessions

A session gives one thing after the other to a pool, and keeps the transactions that it has begun
under names of its own. A transaction that is begun under a name in use takes the place of the older
one, which is given up. Between two things the policies, the planned faults and the rows of the
ledgers can be changed.
-/

namespace Cutover.Traffic

/-- What can be done in an open transaction. The last three end it. -/
inductive TxAct where
  | execute (s : Statement)
  | query (s : Statement)
  | queryRow (s : Statement)
  | commit
  | rollBack
  | drop

/-- What can be changed in a fleet without going through a pool. -/
inductive Change where
  | setPolicy (policy : String) (p : Policy)
  /-- Plans to refuse the next `n` calls of an operation of a ledger. -/
  | arm (ledger operation : String) (n : Nat)
  | delay (ledger : String) (ms : Nat)
  /-- The rows with which a ledger is to answer a query from now on. -/
  | setRows (ledger sql : String) (rows : List Row)

/-- A step of a session. -/
inductive Act where
  | execute (s : Statement)
  | query (s : Statement)
  | queryRow (s : Statement)
  | begin (tx : String)
  | inside (tx : String) (a : TxAct)
  | change (c : Change)

/-- What a session gives back for a step. -/
inductive Answer where
  | outcome (r : Except Error Outcome)
  | rows (r : Except Error (List Row))
  | row (r : Except Error Row)
  | unit (r : Except Error Unit)
  | done
  /-- There is no open transaction of the name. -/
  | missing

def Fleet.change (f : Fleet) : Change → Fleet
  | .setPolicy name p => f.setPolicy name p
  | .arm ledger operation n =>
    f.modifyLedger ledger fun l => { l with faults := l.faults.arm operation n }
  | .delay ledger ms =>
    f.modifyLedger ledger fun l => { l with faults := { l.faults with latency := ms } }
  | .setRows ledger sql rows =>
    f.modifyLedger ledger fun l => { l with answers := l.answers.put sql rows }

/-- Does something in a transaction. What is left of the transaction is nothing if it has ended. -/
def Transaction.perform (t : Transaction) (f : Fleet) :
    TxAct → Answer × Option Transaction × Fleet
  | .execute s =>
    let (r, t, f) := t.execute s f
    (.outcome r, some t, f)
  | .query s =>
    let (r, f) := t.query s f
    (.rows r, some t, f)
  | .queryRow s =>
    let (r, f) := t.queryRow s f
    (.row r, some t, f)
  | .commit =>
    let (r, f) := t.commit f
    (.unit r, none, f)
  | .rollBack =>
    let (r, f) := t.rollBack f
    (.unit r, none, f)
  | .drop => (.done, none, t.drop f)

/-- A fleet and the transactions that are open over it, by name. -/
structure Session where
  fleet : Fleet := {}
  transactions : Assoc String Transaction := {}
  deriving Inhabited

namespace Session

/-- What becomes of the transaction of a name. -/
def keep (s : Session) (tx : String) : Option Transaction → Session
  | some t => { s with transactions := s.transactions.put tx t }
  | none => { s with transactions := s.transactions.erase tx }

/-- Does something in the transaction of a name. -/
def inside (s : Session) (tx : String) (a : TxAct) : Answer × Session :=
  match s.transactions.get? tx with
  | none => (.missing, s)
  | some t =>
    let (answer, left, fleet) := t.perform s.fleet a
    (answer, { s with fleet }.keep tx left)

/-- A step on a pool. -/
def perform (p : Pool) (s : Session) : Act → Answer × Session
  | .execute statement =>
    let (r, fleet) := p.execute statement s.fleet
    (.outcome r, { s with fleet })
  | .query statement =>
    let (r, fleet) := p.query statement s.fleet
    (.rows r, { s with fleet })
  | .queryRow statement =>
    let (r, fleet) := p.queryRow statement s.fleet
    (.row r, { s with fleet })
  | .begin tx =>
    match p.begin s.fleet with
    | (.error e, fleet) => (.unit (.error e), { s with fleet })
    | (.ok t, fleet) => (.unit (.ok ()), ({ s with fleet }.inside tx .drop).2.keep tx (some t))
  | .inside tx a => s.inside tx a
  | .change c => (.done, { s with fleet := s.fleet.change c })

/-- Steps on a pool one after the other, with what each of them gives back. -/
def run (p : Pool) (s : Session) : List Act → List Answer × Session
  | [] => ([], s)
  | a :: rest =>
    let (answer, s) := s.perform p a
    let (answers, s) := s.run p rest
    (answer :: answers, s)

end Session

end Cutover.Traffic
