import Cutover.Migration.Operations
import Cutover.Control.Answer
import Cutover.Control.MediaType

/-!
# The control surface

Requests switch the policy, start and stop jobs, and ask for the state of both. What a request asks
for is decided from the request alone (`Request.ask`); the response carries out at most one order
(`Migration.respond`). Main statement: a request that is not answered with success changes nothing
(`Migration.respond_unchanged`).
-/

namespace Cutover.Control

structure Request where
  method : String
  /-- The path with everything that follows it. -/
  target : String
  /-- The type that the body is said to have. -/
  contentType : Option String := none
  body : Bytes := []
  deriving DecidableEq, Repr

/-! ## What is asked for -/

/-- What a path stands for. -/
inductive Route where
  | policy (p : Policy)
  | start (kind : JobKind)
  | stop (kind : JobKind)
  | status
  deriving DecidableEq, Repr

namespace Route

/-- The paths and what they stand for. -/
def table : List (String × Route) :=
  Policy.all.map (fun p => ("/" ++ p.name, policy p)) ++
    [("/full/start", start .full), ("/full/stop", stop .full),
      ("/incr/start", start .incremental), ("/incr/stop", stop .incremental),
      ("/status", status)]

/-- What a path stands for, if anything. -/
def ofPath? (path : String) : Option Route := table.lookup path

/-- Whether a method is used with a route. -/
def allows (method : String) : Route → Bool
  | status => method == "GET" || method == "HEAD"
  | _ => method == "POST"

end Route

/-- The path of a request target, without a query. -/
def pathOf (target : String) : String :=
  String.ofList (target.toList.takeWhile fun c => c != '?' && c != '#')

structure StartBody where
  since : Int
  pause : Int
  deriving DecidableEq, Repr

def StartBody.record : Json.Record StartBody where
  fields :=
    [.of "update_time" true .int64 fun since b => { b with since },
      (Json.Field.of "interval_ms" true .int64 fun pause b => { b with pause }).orNamed "interval"]
  blank := ⟨0, 0⟩

/-- What a request asks for. -/
inductive Ask where
  /-- An order, with the text of the answer when it has been carried out. -/
  | order (o : Order) (done : String)
  | status
  | refused (r : Refusal)
  | unknown
  | wrongMethod
  deriving DecidableEq, Repr

namespace Request

/-- The length of the longest body that is read. -/
def longestBody : Nat := 2 * 1024 * 1024

/-- The start of an incremental job that a request asks for. What follows the body's value is not
looked at. -/
def startIncremental (r : Request) : Ask :=
  if r.contentType.any MediaType.namesJson then
    if longestBody < r.body.length then .refused .tooLong
    else
      match StartBody.record.read r.body with
      | .error p => .refused (.wrongBody p)
      | .ok (b, _) =>
        if b.pause < 0 then .refused .negativePause
        else .order (.startIncremental b.since b.pause.toNat) "incremental validation started"
  else .refused .wrongType

/-- What a request asks for. -/
def ask (r : Request) : Ask :=
  match Route.ofPath? (pathOf r.target) with
  | none => .unknown
  | some route =>
    if route.allows r.method then
      match route with
      | .policy p => .order (.route p) "OK"
      | .start .full => .order .startFull "full validation started"
      | .start .incremental => r.startIncremental
      | .stop kind => .order (.stop kind) "OK"
      | .status => .status
    else .wrongMethod

end Request

/-! ## Responses -/

/-- What the control surface knows of a migration. -/
structure Status where
  policy : Policy
  full : Option JobStatus
  incremental : Option JobStatus
  deriving DecidableEq, Repr

inductive Body where
  | empty
  | answer (a : Answer Nat)
  | status (s : Status)
  deriving DecidableEq, Repr

structure Response where
  status : Nat
  body : Body := .empty
  deriving DecidableEq, Repr

namespace Response

/-- The response with an answer, which repeats its code. -/
def ofAnswer (a : Answer Nat) : Response := ⟨a.code, .answer a⟩

/-- The response to an order that was carried out. Only the start of a job names it. -/
def ofOrder (done : String) (job : Option Nat) : Order → Response
  | .startFull | .startIncremental .. => ofAnswer (.ok done job)
  | .route _ | .stop _ => ofAnswer (.ok done none)

end Response

end Cutover.Control

namespace Cutover.Migration

open Control

variable {ρ : Type} [Entity ρ]

def status (m : Migration ρ) : Status :=
  ⟨m.site.policy, m.scheduler.status? .full, m.scheduler.status? .incremental⟩

def respond (m : Migration ρ) (r : Request) : Response × Migration ρ :=
  match r.ask with
  | .unknown => (⟨404, .empty⟩, m)
  | .wrongMethod => (⟨405, .empty⟩, m)
  | .refused refusal => (.ofAnswer refusal.answer, m)
  | .status => (⟨Answer.okCode, if r.method == "HEAD" then .empty else .status m.status⟩, m)
  | .order o done =>
    match m.obey o with
    | .error e => (.ofAnswer (Refusal.failed e).answer, m)
    | .ok (job, m) => (.ofOrder done job o, m)

/-- Responds to a request, if the configuration can be used. -/
def request (m : Migration ρ) (r : Request) : Except Error (Response × Migration ρ) := do
  m.config.validate
  pure (m.respond r)

/-- The policy and the current jobs, if the configuration can be used. -/
def reportStatus (m : Migration ρ) : Except Error Status := do
  m.config.validate
  pure m.status

theorem ofOrder_status (done : String) (job : Option Nat) (o : Order) :
    (Response.ofOrder done job o).status = Answer.okCode := by
  cases o <;> rfl

/-- A request that is not answered with success changes nothing. -/
theorem respond_unchanged {m : Migration ρ} {r : Request}
    (h : (m.respond r).1.status ≠ Answer.okCode) : (m.respond r).2 = m := by
  unfold respond at h ⊢
  split at h
  · rfl
  · rfl
  · rfl
  · rfl
  · next o done heq =>
    split
    · rfl
    · next hok =>
      simp only [hok] at h
      exact absurd (ofOrder_status ..) h

end Cutover.Migration
