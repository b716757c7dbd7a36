import Cutover.Bytes
import Cutover.Fault
import Cutover.Store

/-!
# The message broker

A topic is a log of payloads. A group of consumers has one committed offset per topic; a member of
the group reads on from a cursor of its own, which starts at the committed offset. Main statements:
what publishing does to each log (`Broker.log_append`) and acknowledging to each committed offset
(`Broker.committedOffset_ack`).
-/

namespace Cutover

/-- A message handed to a consumer. -/
structure Delivery where
  topic : String
  partition : Nat := 0
  offset : Nat
  payload : Bytes
  deriving DecidableEq, Repr, Inhabited

/-- A member of a consumer group. -/
structure Subscription where
  group : String
  topic : String
  /-- The offset that is read next. -/
  cursor : Nat
  deriving DecidableEq, Repr, Inhabited

/-- The calls that can be refused before they reach the broker. -/
inductive BrokerOp where
  | publish
  | subscribe
  | next
  | ack
  | rewind
  deriving DecidableEq, Repr

/-- The logs and committed offsets. -/
structure Broker where
  topics : Assoc String (List Bytes) := {}
  /-- The committed offset of a group in a topic. -/
  committed : Assoc (String × String) Nat := {}
  closed : Bool := false
  faults : FaultPlan := {}
  /-- The errors with which the next calls of an operation are refused before they reach the logs;
  an absent error lets a call pass. -/
  script : Assoc BrokerOp (List (Option Error)) := {}
  deriving Inhabited

namespace Broker

/-- The payloads of a topic in order. -/
def log (b : Broker) (topic : String) : List Bytes := b.topics.getD topic []

/-- The offset from which new members of a group read a topic. -/
def committedOffset (b : Broker) (group topic : String) : Nat := b.committed.getD (group, topic) 0

/-- Ends all subscriptions and refuses what is published from now on. -/
def close (b : Broker) : Broker := { b with closed := true }

def setScript (b : Broker) (op : BrokerOp) (errors : List (Option Error)) : Broker :=
  { b with script := b.script.put op errors }

/-- Takes the next scripted error of an operation. -/
def scripted (b : Broker) (op : BrokerOp) : Option Error × Broker :=
  match b.script.getD op [] with
  | [] => (none, b)
  | e :: rest => (e, { b with script := b.script.put op rest })

/-! ## Publishing -/

def append (b : Broker) (topic : String) (payload : Bytes) : Broker :=
  { b with topics := b.topics.put topic (b.log topic ++ [payload]) }

def startPublish (b : Broker) : Broker × Opening :=
  match b.scripted .publish with
  | (some e, b) => (b, ⟨0, some e⟩)
  | (none, b) => ({ b with faults := b.faults.start }, ⟨b.faults.latency, none⟩)

/-- A publishing call ends that was not refused when it started. -/
def finishPublish (b : Broker) (topic : String) (payload : Bytes) : Except Error Unit × Broker :=
  match b.faults.refusal? "publish" with
  | some faults =>
    (.error (.broker (FaultPlan.refusal topic "publish").message), { b with faults })
  | none =>
    if b.closed then (.error (.broker "broker is closed"), b) else (.ok (), b.append topic payload)

theorem log_append (b : Broker) (topic t : String) (payload : Bytes) :
    (b.append topic payload).log t = if t = topic then b.log topic ++ [payload] else b.log t := by
  simp only [append, log, Assoc.getD_put]

/-! ## Consuming -/

def subscribe (b : Broker) (group topic : String) : Subscription :=
  ⟨group, topic, b.committedOffset group topic⟩

/-- What a member finds at its cursor. -/
inductive Poll where
  | closed
  /-- A message, and the member that has read past it. -/
  | message (d : Delivery) (s : Subscription)
  | nothing
  deriving DecidableEq, Repr

def poll (b : Broker) (s : Subscription) : Poll :=
  if b.closed then .closed
  else
    match (b.log s.topic)[s.cursor]? with
    | some payload =>
      .message { topic := s.topic, offset := s.cursor, payload } { s with cursor := s.cursor + 1 }
    | none => .nothing

/-- The offset after another one. Offsets have 64 bits. -/
def nextOffset (offset : Nat) : Nat := (offset + 1) % UInt64.size

/-- Commits the offset after a message for the group of a member, unless a later one is
committed. -/
def ack (b : Broker) (s : Subscription) (offset : Nat) : Broker :=
  { b with
    committed :=
      b.committed.put (s.group, s.topic)
        (max (b.committedOffset s.group s.topic) (nextOffset offset)) }

theorem committedOffset_ack (b : Broker) (s : Subscription) (offset : Nat) (group topic : String) :
    (b.ack s offset).committedOffset group topic =
      if (group, topic) = (s.group, s.topic) then
        max (b.committedOffset group topic) (nextOffset offset)
      else b.committedOffset group topic := by
  unfold ack committedOffset
  rw [Assoc.getD_put]
  split
  · next h => obtain ⟨rfl, rfl⟩ := Prod.mk.inj h; rfl
  · rfl

@[simp] theorem log_ack (b : Broker) (s : Subscription) (offset : Nat) (topic : String) :
    (b.ack s offset).log topic = b.log topic := rfl

end Broker

/-- Goes back to a message, if it is before the cursor. -/
def Subscription.rewind (s : Subscription) (offset : Nat) : Subscription :=
  { s with cursor := min s.cursor offset }

end Cutover
