import Cutover.Migration

/-!
# Waiting for an answer

Whoever asks something of a running migration may have to wait for the answer, and the tasks run in
the meantime. What is waited for has its own small steps, which go before those of the tasks at
every moment. Main definition: `Migration.await`. Main statement: what can be answered at once is
answered before any task moves (`Migration.await_of_answer`).
-/

namespace Cutover

variable {ρ : Type} [Entity ρ]

/-- Something that is waited for, in a state of type `σ`, and that is answered with an `α`. -/
structure Wait (ρ σ α : Type) [Entity ρ] where
  /-- The answer, once there is one. -/
  answer? : Migration ρ → σ → Option α
  /-- The next move, or nothing while there is nothing to do. -/
  step : Migration ρ → σ → Option (Migration ρ × σ)
  /-- When there is something to do next, if that is a matter of time. -/
  wake? : σ → Option Nat

namespace Wait

variable {σ α : Type}

/-- Work over the deployment that moves, ends and wakes as given. -/
def ofWork (stopped : Bool) (step : Moment → Deployment ρ → σ → Option (Deployment ρ × σ))
    (result? : σ → Option α) (wake? : σ → Option Nat) : Wait ρ σ α where
  answer? _ s := result? s
  step m s := (step ⟨m.now, stopped⟩ m.site s).map fun (site, s) => ({ m with site }, s)
  wake?

/-- A call, which is in its state once it has started. -/
def ofCall (step : Moment → Deployment ρ → Option Flight → Option (Deployment ρ × Progress α)) :
    Wait ρ (Option (Progress α)) (Except Error α) :=
  ofWork false
    (fun m d s =>
      match s with
      | none => (step m d none).map fun (d, p) => (d, some p)
      | some (.underway f) => (step m d (some f)).map fun (d, p) => (d, some p)
      | some (.answered _) => none)
    (fun
      | some (.answered r) => some r
      | _ => none)
    (fun
      | some (.underway f) => some f.wake
      | _ => none)

/-- Something that the tasks bring about. -/
def ofTasks (answer? : Migration ρ → Option α) : Wait ρ Unit α where
  answer? m _ := answer? m
  step _ _ := none
  wake? _ := none

/-- Something that the tasks bring about, or `late` if they have not by some moment. -/
def ofTasksUntil (time : Nat) (late : α) (answer? : Migration ρ → Option α) : Wait ρ Unit α where
  answer? m _ := answer? m <|> if time ≤ m.now then some late else none
  step _ _ := none
  wake? _ := some time

end Wait

namespace Migration

variable {σ α : Type}

/-- Waits for an answer, in up to `fuel` rounds. In each round what is waited for moves; or, if it
cannot, all tasks do; or, if they cannot either, time passes until one of them can. -/
def awaitGo (k : Wait ρ σ α) : Nat → Migration ρ → σ → Option α × Migration ρ
  | 0, m, _ => (none, m)
  | fuel + 1, m, s =>
    match k.answer? m s with
    | some a => (some a, m)
    | none =>
      match k.step m s with
      | some (m, s) => awaitGo k fuel m s
      | none =>
        if m.next?.isSome then awaitGo k fuel m.settle s
        else
          match [k.wake? s, m.wake?].reduceOption.min? with
          | none => (none, m)
          | some t => awaitGo k fuel (m.setNow t) s

/-- Waits for an answer, which does not come if nothing is left to happen. -/
def await (m : Migration ρ) (k : Wait ρ σ α) (s : σ) : Option α × Migration ρ :=
  awaitGo k patience m s

theorem await_of_answer {m : Migration ρ} {k : Wait ρ σ α} {s : σ} {a : α}
    (h : k.answer? m s = some a) : m.await k s = (some a, m) := by
  simp [await, patience, awaitGo, h]

end Migration

end Cutover
