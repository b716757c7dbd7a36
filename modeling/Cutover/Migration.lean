import Cutover.Consumer
import Cutover.Scheduler

/-!
# Migrations

A migration has a clock and tasks that run side by side over one deployment: jobs, consumers, scans
of their own, and messages to be published later. A task moves in small steps, and a `Turn` says
whose step is next, so that an order of turns is an interleaving of the tasks. `Migration.settle`
gives turns until every task has to wait, and `Migration.advanceTo` lets time pass, stopping
wherever a task has something to do. Main statement: a settled migration has no turn left
(`Migration.next?_eq_none_iff`).
-/

namespace Cutover

/-! ## Tasks -/

/-- A scan of its own. -/
structure Run (ρ : Type) where
  scan : Scan ρ
  stopped : Bool := false

namespace Run

variable {ρ : Type} [Entity ρ]

def stop (r : Run ρ) : Run ρ := { r with stopped := true }

def step (way : Scan.Way) (now : Nat) (d : Deployment ρ) (r : Run ρ) :
    Option (Deployment ρ × Run ρ) :=
  (r.scan.stepWay way ⟨now, r.stopped⟩ d).map fun (d, scan) => (d, { r with scan })

end Run

/-- A message to be published later. -/
structure Post where
  topic : String
  payload : Bytes
  due : Nat
  /-- The call that publishes the message, once it has started. -/
  flight : Option Flight := none
  sent : Bool := false

namespace Post

variable {ρ : Type} [Entity ρ]

/-- What progress with its call makes of a post. A message that could not be published is given
up. -/
def after (p : Post) : Progress Unit → Post
  | .underway f => { p with flight := some f }
  | .answered _ => { p with flight := none, sent := true }

/-- The next move of a post, or nothing if it has to wait or has ended. -/
def step (now : Nat) (d : Deployment ρ) (p : Post) : Option (Deployment ρ × Post) :=
  if p.sent ∨ now < p.due then none
  else
    (d.publish ⟨now, false⟩ none p.topic p.payload p.flight).map fun (d, progress) =>
      (d, p.after progress)

def wake? (p : Post) : Option Nat :=
  if p.sent then none else some ((p.flight.map Flight.wake).getD p.due)

end Post

/-! ## Migrations -/

structure Migration (ρ : Type) [Entity ρ] where
  /-- The time, in milliseconds from the start. -/
  now : Nat := 0
  config : Config := {}
  site : Deployment ρ
  scheduler : Scheduler ρ := {}
  consumers : List (Consumer ρ) := []
  runs : List (Run ρ) := []
  posts : List Post := []

/-- Whose step is next. Tasks of a kind are numbered in the order in which they were started. -/
inductive Turn where
  | job (n : Nat) (way : Scan.Way)
  | consumer (n : Nat)
  | run (n : Nat) (way : Scan.Way)
  | post (n : Nat)
  deriving DecidableEq, Repr

namespace Migration

variable {ρ : Type} [Entity ρ]

instance : Inhabited (Migration ρ) := ⟨{ site := default }⟩

/-- The migration after a turn, or nothing if the task whose turn it is cannot move. -/
def move (m : Migration ρ) : Turn → Option (Migration ρ)
  | .job n way => do
    let j ← m.scheduler.jobs[n]?
    let (site, j) ← j.step way m.now m.scheduler.jobs m.site
    pure { m with site, scheduler := { m.scheduler with jobs := m.scheduler.jobs.set n j } }
  | .consumer n => do
    let c ← m.consumers[n]?
    let (site, c) ← c.step m.now m.site
    pure { m with site, consumers := m.consumers.set n c }
  | .run n way => do
    let r ← m.runs[n]?
    let (site, r) ← r.step way m.now m.site
    pure { m with site, runs := m.runs.set n r }
  | .post n => do
    let p ← m.posts[n]?
    let (site, p) ← p.step m.now m.site
    pure { m with site, posts := m.posts.set n p }

/-- The turns that the tasks could be given, the base side of a scan before the other. -/
def turns (m : Migration ρ) : List Turn :=
  let ways (turn : Scan.Way → Turn) : List Turn := [turn .baseToTarget, turn .targetToBase]
  (List.range m.scheduler.jobs.length).flatMap (fun n => ways (.job n)) ++
    (List.range m.consumers.length).map .consumer ++
    (List.range m.runs.length).flatMap (fun n => ways (.run n)) ++
    (List.range m.posts.length).map .post

/-- The migration after the first turn that lets a task move, or nothing if all have to wait. -/
def next? (m : Migration ρ) : Option (Migration ρ) := m.turns.findSome? m.move

theorem mem_turns_of_move {m m' : Migration ρ} {t : Turn} (h : m.move t = some m') :
    t ∈ m.turns := by
  have lt {α : Type} {l : List α} {n : Nat} {a : α} (h : l[n]? = some a) : n < l.length :=
    (List.getElem?_eq_some_iff.1 h).1
  cases t with
  | job n way =>
    obtain ⟨j, hj, -⟩ := Option.bind_eq_some_iff.1 h
    cases way <;> simp [turns, lt hj]
  | consumer n =>
    obtain ⟨c, hc, -⟩ := Option.bind_eq_some_iff.1 h
    simp [turns, lt hc]
  | run n way =>
    obtain ⟨r, hr, -⟩ := Option.bind_eq_some_iff.1 h
    cases way <;> simp [turns, lt hr]
  | post n =>
    obtain ⟨p, hp, -⟩ := Option.bind_eq_some_iff.1 h
    simp [turns, lt hp]

/-- All tasks have to wait if and only if no turn lets one move. -/
theorem next?_eq_none_iff {m : Migration ρ} : m.next? = none ↔ ∀ t, m.move t = none := by
  unfold next?
  rw [List.findSome?_eq_none_iff]
  constructor
  · intro h t
    cases ht : m.move t with
    | none => rfl
    | some m' => exact absurd (h t (mem_turns_of_move ht)) (by simp [ht])
  · exact fun h t _ => h t

/-- How many turns are given in a row before the tasks are taken not to come to rest. -/
def patience : Nat := 1000000

/-- Gives up to `fuel` turns. -/
def giveTurns : Nat → Migration ρ → Migration ρ
  | 0, m => m
  | fuel + 1, m =>
    match m.next? with
    | none => m
    | some m' => giveTurns fuel m'

/-- Gives turns until every task has to wait. -/
def settle (m : Migration ρ) : Migration ρ := m.giveTurns patience

/-- When a task has something to do next, once every task has to wait. -/
def wake? (m : Migration ρ) : Option Nat :=
  (m.scheduler.jobs.map (·.wake? m.scheduler.jobs) ++ m.consumers.map Consumer.wake? ++
    m.runs.map (·.scan.wake?) ++ m.posts.map Post.wake?).reduceOption.min?

def setNow (m : Migration ρ) (time : Nat) : Migration ρ := { m with now := max m.now time }

/-- Lets time pass, with up to `fuel` stops on the way. -/
def passTime (target : Nat) : Nat → Migration ρ → Migration ρ
  | 0, m => m
  | fuel + 1, m =>
    let m := m.settle
    match m.wake? with
    | none => m.setNow target
    | some t => if t ≤ target then passTime target fuel (m.setNow t) else m.setNow target

/-- Lets time pass up to a moment, and everything due by then happen. A stop is at a later time than
the one before it, so there are no more stops than milliseconds. -/
def advanceTo (m : Migration ρ) (target : Nat) : Migration ρ :=
  m.passTime target (target - m.now + 2)

end Migration

end Cutover
