import Cutover.Migration.Await

/-!
# Operations on migrations

What can be asked of a running migration from outside. An operation that may have to wait gives no
answer when nothing is left to happen that could bring it. Validation and repair are refused under
an unusable configuration.
-/

namespace Cutover.Migration

variable {ρ : Type} [Entity ρ]

/-- The clock moves on by some milliseconds, and everything due by then happens. -/
def advance (m : Migration ρ) (ms : Nat) : Migration ρ := m.advanceTo (m.now + ms)

/-! ## Stores -/

/-- A call to a store, without a limit. -/
def call (m : Migration ρ) (side : Side) (c : Call ρ) :
    Option (Except Error c.Answer) × Migration ρ :=
  m.await (.ofCall fun now d f => d.call now none side c f) none

def setStore (m : Migration ρ) (s : Store ρ) (side : Side) : Migration ρ :=
  { m with site := m.site.setStore s side }

/-! ## Jobs -/

def obey (m : Migration ρ) (o : Order) : Except Error (Option Nat × Migration ρ) := do
  m.config.validate
  let (answer, policy, scheduler) ← m.scheduler.run m.config m.site.policy o
  pure (answer, { m with site := { m.site with policy }, scheduler })

def routeNamed (m : Migration ρ) (name : String) : Except Error (Policy × Migration ρ) := do
  m.config.validate
  let p ← Policy.parse name
  let (_, m) ← m.obey (.route p)
  pure (p, m)

def stopJob (m : Migration ρ) (n : Nat) : Migration ρ :=
  { m with scheduler := m.scheduler.stopJob n }

/-- Whether a job ends within some milliseconds. -/
def awaitJob (m : Migration ρ) (n limit : Nat) : Option Bool × Migration ρ :=
  m.await
    (.ofTasksUntil (m.now + limit) false fun m =>
      if (m.scheduler.jobs[n]?).all Job.isFinished then some true else none)
    ()

/-! ## The broker -/

def setBroker (m : Migration ρ) (broker : Broker) : Migration ρ :=
  { m with site := { m.site with broker } }

def publish (m : Migration ρ) (topic : String) (payload : Bytes) :
    Option (Except Error Unit) × Migration ρ :=
  m.await (.ofCall fun now d f => d.publish now none topic payload f) none

/-- Publishes messages one after the other, up to the first that is refused. -/
def publishAll (m : Migration ρ) (topic : String) :
    List Bytes → Option (Except Error Unit) × Migration ρ
  | [] => (some (.ok ()), m)
  | payload :: rest =>
    match m.publish topic payload with
    | (some (.ok ()), m) => m.publishAll topic rest
    | refused => refused

/-- Publishes a message some milliseconds later. -/
def publishLater (m : Migration ρ) (topic : String) (payload : Bytes) (ms : Nat) : Migration ρ :=
  { m with posts := m.posts ++ [{ topic, payload, due := m.now + ms }] }

def report (m : Migration ρ) (r : Report) : Option (Except Error Unit) × Migration ρ :=
  m.publish m.config.inconsistencyTopic r.encode

/-- The outcome of a call that can be refused before it reaches the broker. -/
def refusable {α : Type} (m : Migration ρ) (op : BrokerOp) (call : Broker → α × Broker) :
    Except Error α × Migration ρ :=
  match m.site.broker.scripted op with
  | (some e, broker) => (.error e, m.setBroker broker)
  | (none, broker) =>
    let (a, broker) := call broker
    (.ok a, m.setBroker broker)

def subscribe (m : Migration ρ) (group topic : String) : Except Error Subscription × Migration ρ :=
  m.refusable .subscribe fun b => (b.subscribe group topic, b)

/-- What a member of a group finds within some milliseconds. -/
def receive (m : Migration ρ) (s : Subscription) (limit : Nat) :
    Option (Except Error Broker.Poll) × Migration ρ :=
  match m.refusable .next fun b => ((), b) with
  | (.error e, m) => (some (.error e), m)
  | (.ok (), m) =>
    m.await
      (.ofTasksUntil (m.now + limit) (.ok .nothing) fun m =>
        match m.site.broker.poll s with
        | .nothing => none
        | found => some (.ok found))
      ()

/-- Commits the offset after a message for the group of a member. -/
def acknowledge (m : Migration ρ) (s : Subscription) (offset : Nat) :
    Except Error Unit × Migration ρ :=
  m.refusable .ack fun b => ((), b.ack s offset)

def rewind (m : Migration ρ) (s : Subscription) (offset : Nat) :
    Except Error Subscription × Migration ρ :=
  m.refusable .rewind fun b => (s.rewind offset, b)

/-! ## Consumers -/

def startConsumer (m : Migration ρ) (handler : Handler) (group topic : String)
    (limit backoff : Nat) (stopped : Bool) : Except Error Nat × Migration ρ :=
  match m.subscribe group topic with
  | (.error e, m) => (.error e, m)
  | (.ok subscription, m) =>
    let c : Consumer ρ := { subscription, handler, limit, backoff, stopped }
    (.ok m.consumers.length, { m with consumers := m.consumers ++ [c] })

/-- Starts a consumer with the limits of the configuration. -/
def startConfigured (m : Migration ρ) (handler : Handler) (group topic : String) (stopped : Bool) :
    Except Error Nat × Migration ρ :=
  match m.config.validate with
  | .error e => (.error e, m)
  | .ok () =>
    m.startConsumer handler group topic m.config.fixTimeout.ticks m.config.redeliveryBackoff.ticks
      stopped

def startFixer (m : Migration ρ) (stopped : Bool) : Except Error Nat × Migration ρ :=
  m.startConfigured .fixer m.config.fixGroup m.config.inconsistencyTopic stopped

def startListener (m : Migration ρ) (stopped : Bool) : Except Error Nat × Migration ρ :=
  m.startConfigured (.listener m.config) m.config.changeGroup m.config.changeTopic stopped

def modifyConsumer (m : Migration ρ) (n : Nat) (f : Consumer ρ → Consumer ρ) : Migration ρ :=
  { m with consumers := m.consumers.modify n f }

def stopConsumer (m : Migration ρ) (n : Nat) : Migration ρ := m.modifyConsumer n Consumer.stop

/-- Asks a consumer to stop, and waits until it has. -/
def joinConsumer (m : Migration ρ) (n : Nat) : Option Unit × Migration ρ :=
  (m.stopConsumer n).await
    (.ofTasks fun m => if (m.consumers[n]?).all Consumer.isDone then some () else none) ()

def abortConsumer (m : Migration ρ) (n : Nat) : Migration ρ := m.modifyConsumer n Consumer.abort

/-! ## Repair and validation -/

/-- Makes the row of an id in the other store what it is in the store of a side. -/
def mend (m : Migration ρ) (base : Side) (id : Int) : Option (Except Error Unit) × Migration ρ :=
  let r : Repair ρ := { base, id }
  m.await (.ofWork false Repair.step Repair.result? Repair.wake?) r

/-- Gives the error of an unusable configuration, or goes on. -/
def configured {α : Type} (m : Migration ρ)
    (go : Migration ρ → Option (Except Error α) × Migration ρ) :
    Option (Except Error α) × Migration ρ :=
  match m.config.validate with
  | .error e => (some (.error e), m)
  | .ok () => go m

def fix (m : Migration ρ) (r : Report) : Option (Except Error Unit) × Migration ρ :=
  m.configured (·.mend r.base r.id)

/-- Checks the row of an id, with the store of a side as the base. -/
def check (m : Migration ρ) (base : Side) (id : Int) (stopped : Bool) :
    Option (Except Error Unit) × Migration ρ :=
  m.configured fun m =>
    let c : RowCheck ρ := { comparison := .ofSide m.config base, id }
    m.await (.ofWork stopped RowCheck.step RowCheck.result? RowCheck.wake?) c

/-- Checks the row of an id, with the store that serves reads as the base. -/
def checkPrimary (m : Migration ρ) (id : Int) (stopped : Bool) :
    Option (Except Error Unit) × Migration ρ := m.check m.site.policy.primary id stopped

/-- A scan with the store of a side as the base, which goes on for ever if it is given a pause. -/
def planScan (m : Migration ρ) (base : Side) (since : Option Int) (poll : Option Nat) :
    Except Error (Scan ρ) := do
  m.config.validate
  let mode ← poll.elim (pure .oneShot) Scan.Mode.every
  pure { plan := .ofSide m.config base since mode }

/-- Goes through a scan to its end, where it may have no result. -/
def scan (m : Migration ρ) (s : Scan ρ) (stopped : Bool) :
    Option (Option (Except Error Unit)) × Migration ρ :=
  m.await (.ofWork stopped Scan.step Scan.end? Scan.wake?) s

def startRun (m : Migration ρ) (scan : Scan ρ) (stopped : Bool) : Nat × Migration ρ :=
  (m.runs.length, { m with runs := m.runs ++ [{ scan, stopped }] })

def stopRun (m : Migration ρ) (n : Nat) : Migration ρ := { m with runs := m.runs.modify n Run.stop }

/-- The end that a scan comes to within some milliseconds, if it does. -/
def awaitRun (m : Migration ρ) (n limit : Nat) :
    Option (Option (Option (Except Error Unit))) × Migration ρ :=
  m.await
    (.ofTasksUntil (m.now + limit) none fun m => ((m.runs[n]?).bind (·.scan.end?)).map some)
    ()

end Cutover.Migration
