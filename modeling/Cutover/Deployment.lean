import Cutover.Broker
import Cutover.Flight
import Cutover.Side

/-!
# Deployments

What the parts of a migration share: the two stores, the broker and the policy in force. Calls go
through here, so that a task names a side or a topic and not a collaborator.
-/

namespace Cutover

/-- The shared parts of a migration. -/
structure Deployment (ρ : Type) [Entity ρ] where
  src : Store ρ
  dst : Store ρ
  broker : Broker := {}
  policy : Policy := .srcOnly
  deriving Inhabited

namespace Deployment

variable {ρ : Type} [Entity ρ]

def store (d : Deployment ρ) : Side → Store ρ
  | .src => d.src
  | .dst => d.dst

def setStore (d : Deployment ρ) (s : Store ρ) : Side → Deployment ρ
  | .src => { d with src := s }
  | .dst => { d with dst := s }

/-- The next move of a task that waits for a call to a store. -/
def call (d : Deployment ρ) (m : Moment) (limit : Option Nat) (side : Side) (c : Call ρ)
    (flight : Option Flight) : Option (Deployment ρ × Progress c.Answer) :=
  (Flight.step m limit (Store.start · c) (Store.finish · c) flight (d.store side)).map
    fun (s, p) => (d.setStore s side, p)

/-- The next move of a task that waits for a message to be published. -/
def publish (d : Deployment ρ) (m : Moment) (limit : Option Nat) (topic : String) (payload : Bytes)
    (flight : Option Flight) : Option (Deployment ρ × Progress Unit) :=
  (Flight.step m limit Broker.startPublish (Broker.finishPublish · topic payload) flight
    d.broker).map fun (broker, p) => ({ d with broker }, p)

@[simp] theorem store_setStore (d : Deployment ρ) (s : Store ρ) (side other : Side) :
    (d.setStore s side).store other = if other = side then s else d.store other := by
  cases side <;> cases other <;> rfl

@[simp] theorem broker_setStore (d : Deployment ρ) (s : Store ρ) (side : Side) :
    (d.setStore s side).broker = d.broker := by cases side <;> rfl

@[simp] theorem policy_setStore (d : Deployment ρ) (s : Store ρ) (side : Side) :
    (d.setStore s side).policy = d.policy := by cases side <;> rfl

end Deployment

end Cutover
