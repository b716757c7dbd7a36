import Cutover.Repair
import Cutover.RowCheck

/-!
# Consumers

A consumer is a member of a group that handles messages one after the other. A message is
acknowledged when its handling succeeds, or when it cannot be read at all; when its handling fails
or takes too long, the consumer goes back to it and leaves it alone for a while. A consumer ends
when it is asked to, when the broker is closed, or when its handler says that it was cancelled. Main
definition: `Consumer.step`; what each answer makes of a consumer is said by `onMessage` and
`onOutcome`.
-/

namespace Cutover

variable {ρ : Type} [Entity ρ]

/-! ## Handlers -/

/-- What a consumer does with its messages. -/
inductive Handler where
  /-- Repairs the row of each report, from the side that was the base. -/
  | fixer
  /-- Checks the row of each change notice, from the side that serves reads. -/
  | listener (config : Config)
  /-- Takes some milliseconds for each message that it can read and then ends as planned, or
  succeeds at once when nothing more is planned. What is read of a message is the id it is about. -/
  | scripted (read : Bytes → Option Int) (outcomes : List (Nat × Except Error Unit))

/-- A handler of change notices that ends as planned. -/
def Handler.planned (outcomes : List (Nat × Except Error Unit)) : Handler :=
  .scripted (fun payload => (Change.decode? payload).map Change.id) outcomes

inductive Handling (ρ : Type) where
  | repair (r : Repair ρ)
  | check (c : RowCheck ρ)
  /-- Lets time pass and ends as planned. -/
  | wait (ms : Nat) (outcome : Except Error Unit) (flight : Option Flight)
  | ended (outcome : Except Error Unit)

namespace Handling

def result? : Handling ρ → Option (Except Error Unit)
  | repair r => r.result?
  | check c => c.result?
  | wait .. => none
  | ended outcome => some outcome

/-- What the passing of time makes of a planned handling. -/
def afterWait (ms : Nat) (outcome : Except Error Unit) : Progress Unit → Handling ρ
  | .underway f => wait ms outcome (some f)
  | .answered (.ok ()) => ended outcome
  | .answered (.error e) => ended (.error e)

/-- The next move of the handling, or nothing if it has to wait or has ended. -/
def step (m : Moment) (d : Deployment ρ) : Handling ρ → Option (Deployment ρ × Handling ρ)
  | repair r => (r.step m d).map fun (d, r) => (d, repair r)
  | check c => (c.step m d).map fun (d, c) => (d, check c)
  | wait ms outcome flight =>
    (Flight.pause m ms flight).map fun p => (d, afterWait ms outcome p)
  | ended _ => none

def wake? : Handling ρ → Option Nat
  | repair r => r.wake?
  | check c => c.wake?
  | wait _ _ flight => flight.map Flight.wake
  | ended _ => none

end Handling

/-- A message that was read: the id it is about and the handling that starts with it, or nothing if
it cannot be read; and the handler for the messages after it. -/
def Handler.begin (d : Deployment ρ) (payload : Bytes) :
    Handler → Option (Int × Handling ρ × Handler)
  | fixer =>
    (Report.decode? payload).map fun r => (r.id, .repair { base := r.base, id := r.id }, fixer)
  | listener config =>
    (Change.decode? payload).map fun c =>
      (c.id, .check { comparison := .ofSide config d.policy.primary, id := c.id }, listener config)
  | scripted read outcomes =>
    (read payload).map fun id =>
      match outcomes with
      | [] => (id, .ended (.ok ()), scripted read [])
      | (ms, outcome) :: rest => (id, .wait ms outcome none, scripted read rest)

/-! ## Consumers -/

inductive Consumer.Phase (ρ : Type) where
  | asking
  | waiting
  /-- Handling a message, until a moment at most. -/
  | handling (message : Delivery) (work : Handling ρ) (due : Nat)
  /-- Leaving the next message alone. -/
  | resting (flight : Option Flight)
  | done

/-- The beginning of the handling of a message. -/
structure HandlerCall where
  id : Int
  offset : Nat
  time : Nat
  deriving DecidableEq, Repr

/-- A member of a consumer group that handles messages. -/
structure Consumer (ρ : Type) where
  subscription : Subscription
  handler : Handler
  /-- How long the handling of one message may take. -/
  limit : Nat
  /-- How long a message that could not be handled is left alone. -/
  backoff : Nat
  stopped : Bool := false
  phase : Consumer.Phase ρ := .asking
  /-- The handlings that have begun, the latest first. -/
  log : List HandlerCall := []

namespace Consumer

def isDone (c : Consumer ρ) : Bool :=
  match c.phase with
  | .done => true
  | _ => false

def history (c : Consumer ρ) : List HandlerCall := c.log.reverse

def stop (c : Consumer ρ) : Consumer ρ := { c with stopped := true }

/-- Ends a consumer where it is. -/
def abort (c : Consumer ρ) : Consumer ρ := { c with stopped := true, phase := .done }

/-- Commits the offset after a message. A broker that refuses is not asked again. -/
def acknowledge (d : Deployment ρ) (c : Consumer ρ) (message : Delivery) : Deployment ρ :=
  match d.broker.scripted .ack with
  | (some _, broker) => { d with broker }
  | (none, broker) => { d with broker := broker.ack c.subscription message.offset }

/-- Goes back to a message. A broker that refuses is not asked again. -/
def goBack (d : Deployment ρ) (c : Consumer ρ) (message : Delivery) : Deployment ρ × Consumer ρ :=
  match d.broker.scripted .rewind with
  | (some _, broker) => ({ d with broker }, c)
  | (none, broker) =>
    ({ d with broker }, { c with subscription := c.subscription.rewind message.offset })

/-- What a message makes of a consumer: its handling begins, or it is passed by as unreadable. -/
def onMessage (now : Nat) (d : Deployment ρ) (c : Consumer ρ) (message : Delivery) :
    Deployment ρ × Consumer ρ :=
  match c.handler.begin d message.payload with
  | none => (acknowledge d c message, { c with phase := .asking })
  | some (id, work, handler) =>
    (d,
      { c with
        handler
        phase := .handling message work (now + c.limit)
        log := ⟨id, message.offset, now⟩ :: c.log })

/-- What the outcome of its handling makes of a message and a consumer. -/
def onOutcome (d : Deployment ρ) (c : Consumer ρ) (message : Delivery) :
    Except Error Unit → Deployment ρ × Consumer ρ
  | .ok () => (acknowledge d c message, { c with phase := .asking })
  | .error .cancelled => (d, { c with phase := .done })
  | .error _ =>
    let (d, c) := goBack d c message
    (d, { c with phase := .resting none })

/-- The next move of a consumer that was not asked to stop. -/
def proceed (now : Nat) (d : Deployment ρ) (c : Consumer ρ) :
    Option (Deployment ρ × Consumer ρ) :=
  match c.phase with
  | .asking =>
    match d.broker.scripted .next with
    | (some _, broker) => some ({ d with broker }, { c with phase := .resting none })
    | (none, broker) => some ({ d with broker }, { c with phase := .waiting })
  | .waiting =>
    match d.broker.poll c.subscription with
    | .closed => some (d, { c with phase := .done })
    | .message message subscription => some (onMessage now d { c with subscription } message)
    | .nothing => none
  | .handling message work due =>
    match work.result? with
    | some outcome => some (onOutcome d c message outcome)
    | none =>
      match work.step ⟨now, false⟩ d with
      | some (d, work) => some (d, { c with phase := .handling message work due })
      | none =>
        if due ≤ now then some (onOutcome d c message (.error .deadlineExceeded)) else none
  | .resting flight =>
    (Flight.pause ⟨now, false⟩ c.backoff flight).map fun
      | .underway f => (d, { c with phase := .resting (some f) })
      | .answered _ => (d, { c with phase := .asking })
  | .done => none

/-- The next move of a consumer, or nothing if it has to wait or has ended. -/
def step (now : Nat) (d : Deployment ρ) (c : Consumer ρ) : Option (Deployment ρ × Consumer ρ) :=
  if c.isDone then none
  else if c.stopped then some (d, { c with phase := .done })
  else c.proceed now d

/-- When a consumer has to move next, if no message comes. -/
def wake? (c : Consumer ρ) : Option Nat :=
  match c.phase with
  | .handling _ work due => [work.wake?, some due].reduceOption.min?
  | .resting flight => flight.map Flight.wake
  | _ => none

end Consumer

end Cutover
