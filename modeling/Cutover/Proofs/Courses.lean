import Cutover.Traffic.Session

/-!
# Courses

What is done in a transaction takes a while, and others may write policies in its midst. A `Course`
is an operation as the single things that it does to a fleet, one after the other, so that something
can come between any two of them. Main definitions: `Course.runAmid`, and `Transaction.course` with
the course of each thing that can be done in a transaction. Main statement: where nothing comes
between, the course of an operation is the operation (`Transaction.run_course`).
-/

namespace Cutover.Traffic

/-- Policies that are written, by name. -/
abbrev Writes := List (String × Policy)

def Fleet.write (f : Fleet) (writes : Writes) : Fleet :=
  writes.foldl (fun f w => f.setPolicy w.1 w.2) f

/-- An operation as the single things that it does, each of which may depend on what the ones before
it have given back. -/
inductive Course (α : Type) : Type 1 where
  | done (a : α)
  | next {β : Type} (act : Fleet → β × Fleet) (rest : β → Course α)

namespace Course

variable {α β : Type}

protected def bind : Course α → (α → Course β) → Course β
  | done a, k => k a
  | next act rest, k => next act fun b => (rest b).bind k

instance : Monad Course where
  pure := done
  bind := Course.bind

/-- A single thing. -/
def one (act : Fleet → α × Fleet) : Course α := next act done

/-- A single thing that gives nothing back. -/
def change (act : Fleet → Fleet) : Course Unit := one fun f => ((), act f)

/-- Runs an operation while policies are written in its midst: before each single thing the next of
some writes, and what is left of them at the end. -/
def runAmid : Course α → List Writes → Fleet → α × Fleet
  | done a, amid, f => (a, f.write amid.flatten)
  | next act rest, amid, f =>
    let (b, f) := act (f.write (amid.headD []))
    (rest b).runAmid amid.tail f

/-- Runs an operation while nothing comes between. -/
def run (c : Course α) (f : Fleet) : α × Fleet := c.runAmid [] f

@[simp] theorem run_pure (a : α) (f : Fleet) : (pure a : Course α).run f = (a, f) := rfl

@[simp] theorem run_one (act : Fleet → α × Fleet) (f : Fleet) : (one act).run f = act f := rfl

@[simp] theorem run_change (act : Fleet → Fleet) (f : Fleet) : (change act).run f = ((), act f) :=
  rfl

@[simp] theorem run_bind (c : Course α) (k : α → Course β) (f : Fleet) :
    (c >>= k).run f = (k (c.run f).1).run (c.run f).2 := by
  induction c generalizing f with
  | done a => rfl
  | next act rest ih => exact ih _ _

end Course

/-! ## Transactions -/

namespace Transaction

/-- The failure of a store that is written second is noted, and an answer is given back. -/
def passOverCourse {α β : Type} (pool store operation : String) (s : Option Statement)
    (result : Except Error β) (answer : α) : Course α := do
  Course.change (passOver pool store operation s result)
  return answer

def executeCourse (s : Statement) : Transaction → Course (Except Error Outcome × Transaction)
  | .ledger name pending => do
    match ← Course.one (·.reach name "tx_execute") with
    | .error e => return (.error e, .ledger name pending)
    | .ok () => return (.ok {}, .ledger name (pending ++ [s]))
  | .single r primary => do
    let (result, primary) ← primary.executeCourse s
    return (result, .single r primary)
  | .dual r primary secondaryName secondary => do
    match ← primary.executeCourse s with
    | (.error e, primary) => return (.error e, .dual r primary secondaryName secondary)
    | (.ok outcome, primary) =>
      let (result, secondary) ← secondary.executeCourse s
      passOverCourse r.pool secondaryName "tx_execute" (some s) result
        (.ok outcome, .dual r primary secondaryName secondary)

def queryCourse (s : Statement) : Transaction → Course (Except Error (List Row))
  | .ledger name _ => do
    match ← Course.one (·.reach name "tx_query") with
    | .error e => return .error e
    | .ok () => return .ok ((← Course.one fun f => (f.ledger name, f)).answer s)
  | .single _ primary => primary.queryCourse s
  | .dual _ primary _ _ => primary.queryCourse s

def dropCourse : Transaction → Course Unit
  | .ledger name _ => Course.change (·.modifyLedger name Ledger.rollBackOne)
  | .single _ primary => primary.dropCourse
  | .dual _ primary _ secondary => do
    primary.dropCourse
    secondary.dropCourse

/-- The end of a transaction over two stores: if the first one fails to end its transaction, the
second one gives its own up. -/
def endCourse (r : Routed) (secondaryName operation : String) (secondary : Transaction)
    (first second : Course (Except Error Unit)) : Course (Except Error Unit) := do
  match ← first with
  | .error e =>
    secondary.dropCourse
    return .error e
  | .ok () => passOverCourse r.pool secondaryName operation none (← second) (.ok ())

def commitCourse : Transaction → Course (Except Error Unit)
  | .ledger name pending => do
    match ← Course.one (·.reach name "commit") with
    | .error e =>
      Course.change (·.modifyLedger name Ledger.rollBackOne)
      return .error e
    | .ok () =>
      Course.change (·.modifyLedger name (·.commitOne pending))
      return .ok ()
  | .single _ primary => primary.commitCourse
  | .dual r primary secondaryName secondary =>
    endCourse r secondaryName "commit" secondary primary.commitCourse secondary.commitCourse

def rollBackCourse : Transaction → Course (Except Error Unit)
  | .ledger name _ => do
    let result ← Course.one (·.reach name "rollback")
    Course.change (·.modifyLedger name Ledger.rollBackOne)
    return result
  | .single _ primary => primary.rollBackCourse
  | .dual r primary secondaryName secondary =>
    endCourse r secondaryName "rollback" secondary primary.rollBackCourse secondary.rollBackCourse

/-- The course of something that is done in a transaction. It gives back the answer and what is left
of the transaction. -/
def course (t : Transaction) : TxAct → Course (Answer × Option Transaction)
  | .execute s => do
    let (r, t) ← t.executeCourse s
    return (.outcome r, some t)
  | .query s => do return (.rows (← t.queryCourse s), some t)
  | .queryRow s => do return (.row (firstRow (← t.queryCourse s)), some t)
  | .commit => do return (.unit (← t.commitCourse), none)
  | .rollBack => do return (.unit (← t.rollBackCourse), none)
  | .drop => do
    t.dropCourse
    return (.done, none)

/-! ## Where nothing comes between -/

@[simp] theorem run_passOverCourse {α β : Type} (pool store operation : String)
    (s : Option Statement) (result : Except Error β) (answer : α) (f : Fleet) :
    (passOverCourse pool store operation s result answer).run f =
      (answer, passOver pool store operation s result f) := rfl

theorem run_executeCourse (s : Statement) (t : Transaction) (f : Fleet) :
    (t.executeCourse s).run f =
      (((t.execute s f).1, (t.execute s f).2.1), (t.execute s f).2.2) := by
  induction t generalizing f with
  | ledger name pending =>
    simp only [executeCourse, Course.run_bind, Course.run_one, execute]
    rcases f.reach name "tx_execute" with ⟨_ | _, _⟩ <;> rfl
  | single r primary ih =>
    simp only [executeCourse, Course.run_bind, ih, execute]
    rfl
  | dual r primary secondaryName secondary ih₁ ih₂ =>
    simp only [executeCourse, Course.run_bind, ih₁, execute]
    rcases primary.execute s f with ⟨_ | _, _, _⟩
    · rfl
    · simp only [Course.run_bind, ih₂]
      rfl

theorem run_queryCourse (s : Statement) (t : Transaction) (f : Fleet) :
    (t.queryCourse s).run f = t.query s f := by
  induction t with
  | ledger name pending =>
    simp only [queryCourse, Course.run_bind, Course.run_one, query]
    rcases f.reach name "tx_query" with ⟨_ | _, _⟩ <;> rfl
  | single r primary ih => exact ih
  | dual r primary secondaryName secondary ih => exact ih

theorem run_dropCourse (t : Transaction) (f : Fleet) : t.dropCourse.run f = ((), t.drop f) := by
  induction t generalizing f with
  | ledger name pending => rfl
  | single r primary ih => exact ih f
  | dual r primary secondaryName secondary ih₁ ih₂ =>
    simp only [dropCourse, Course.run_bind, ih₁, ih₂, drop]

theorem run_endCourse (r : Routed) (secondaryName operation : String) (secondary : Transaction)
    (first second : Course (Except Error Unit)) (f : Fleet) :
    (endCourse r secondaryName operation secondary first second).run f =
      match first.run f with
      | (.error e, f) => (.error e, secondary.drop f)
      | (.ok (), f) =>
        let (result, f) := second.run f
        (.ok (), passOver r.pool secondaryName operation none result f) := by
  simp only [endCourse, Course.run_bind]
  rcases first.run f with ⟨_ | _, _⟩
  · simp only [Course.run_bind, run_dropCourse, Course.run_pure]
  · simp only [Course.run_bind, run_passOverCourse]

theorem run_commitCourse (t : Transaction) (f : Fleet) : t.commitCourse.run f = t.commit f := by
  induction t generalizing f with
  | ledger name pending =>
    simp only [commitCourse, Course.run_bind, Course.run_one, commit]
    rcases f.reach name "commit" with ⟨_ | _, _⟩ <;> rfl
  | single r primary ih => exact ih f
  | dual r primary secondaryName secondary ih₁ ih₂ =>
    simp only [commitCourse, run_endCourse, ih₁, ih₂]
    rfl

theorem run_rollBackCourse (t : Transaction) (f : Fleet) :
    t.rollBackCourse.run f = t.rollBack f := by
  induction t generalizing f with
  | ledger name pending => rfl
  | single r primary ih => exact ih f
  | dual r primary secondaryName secondary ih₁ ih₂ =>
    simp only [rollBackCourse, run_endCourse, ih₁, ih₂]
    rfl

/-- The course of something that is done in a transaction does just that. -/
theorem run_course (t : Transaction) (a : TxAct) (f : Fleet) :
    (t.course a).run f = (((t.perform f a).1, (t.perform f a).2.1), (t.perform f a).2.2) := by
  cases a with
  | execute s => simp only [course, Course.run_bind, run_executeCourse]; rfl
  | query s => simp only [course, Course.run_bind, run_queryCourse]; rfl
  | queryRow s => simp only [course, Course.run_bind, run_queryCourse]; rfl
  | commit => simp only [course, Course.run_bind, run_commitCourse]; rfl
  | rollBack => simp only [course, Course.run_bind, run_rollBackCourse]; rfl
  | drop => simp only [course, Course.run_bind, run_dropCourse]; rfl

end Transaction

end Cutover.Traffic
