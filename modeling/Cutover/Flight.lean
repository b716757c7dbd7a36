import Cutover.Store

/-!
# Calls under way

A task waits for one call at a time. The call starts at some moment, is ready when its delay is
over, and is cut off when its limit is over and it is not ready; a task that is asked to stop stops
waiting at once. Work that is ready exactly at its limit is still done. Main statements:
`Flight.step_stopped`, `Flight.step_ready`, and `Flight.step_eq_none_iff`, which says when a task
has to go on waiting.
-/

namespace Cutover

/-- What a task sees of the moment in which it moves. Time is counted in milliseconds. -/
structure Moment where
  now : Nat
  stopped : Bool := false
  deriving DecidableEq, Repr

/-- A call under way. -/
structure Flight where
  /-- When the delay of the call is over. -/
  ready : Nat
  /-- When the call is cut off, if ever. -/
  due : Option Nat := none
  /-- The error that the call was refused with when it started. -/
  refused : Option Error := none
  deriving DecidableEq, Repr

/-- What a move does for the call that a task waits for. -/
inductive Progress (α : Type) where
  | underway (f : Flight)
  | answered (r : Except Error α)

namespace Flight

/-- When a task that waits for the call has to look at it next. -/
def wake (f : Flight) : Nat :=
  match f.due with
  | none => f.ready
  | some t => min f.ready t

def isOverdue (f : Flight) (now : Nat) : Bool :=
  match f.due with
  | none => false
  | some t => decide (t ≤ now)

variable {σ α : Type}

/-- The next move of a task that waits for a call on a collaborator `s`, or nothing if it has to
wait on. -/
def step (m : Moment) (limit : Option Nat) (start : σ → σ × Opening)
    (finish : σ → Except Error α × σ) (flight : Option Flight) (s : σ) : Option (σ × Progress α) :=
  if m.stopped then some (s, .answered (.error .cancelled))
  else
    match flight with
    | none =>
      let (s, o) := start s
      some (s, .underway ⟨m.now + o.delay, limit.map (m.now + ·), o.refused⟩)
    | some f =>
      if f.ready ≤ m.now then
        match f.refused with
        | some e => some (s, .answered (.error e))
        | none =>
          let (r, s) := finish s
          some (s, .answered r)
      else if f.isOverdue m.now then some (s, .answered (.error .deadlineExceeded))
      else none

/-- The next move of a task that only lets time pass. -/
def pause (m : Moment) (ms : Nat) (flight : Option Flight) : Option (Progress Unit) :=
  (step m none (fun u : Unit => (u, ⟨ms, none⟩)) (fun u => (.ok (), u)) flight ()).map Prod.snd

variable {m : Moment} {limit : Option Nat} {start : σ → σ × Opening}
  {finish : σ → Except Error α × σ} {s : σ}

theorem step_stopped (h : m.stopped = true) (flight : Option Flight) :
    step m limit start finish flight s = some (s, .answered (.error .cancelled)) := by
  simp [step, h]

theorem step_ready {f : Flight} (h : m.stopped = false) (hr : f.ready ≤ m.now)
    (hf : f.refused = none) :
    step m limit start finish (some f) s = some ((finish s).2, .answered (finish s).1) := by
  simp [step, h, hr, hf]

/-- A task waits on while its call is neither ready nor overdue and nobody asks it to stop. -/
theorem step_eq_none_iff {flight : Option Flight} :
    step m limit start finish flight s = none ↔
      m.stopped = false ∧ ∃ f, flight = some f ∧ m.now < f.ready ∧ f.isOverdue m.now = false := by
  unfold step
  by_cases h : m.stopped = true
  · simp [h]
  · simp only [h, Bool.false_eq_true, if_false]
    cases flight with
    | none => simp
    | some f =>
      by_cases hr : f.ready ≤ m.now
      · cases hf : f.refused <;> simp [hr, hf, Nat.not_lt.2 hr]
      · cases hd : f.isOverdue m.now <;> simp [hr, hd, Nat.not_le.1 hr]

end Flight

end Cutover
