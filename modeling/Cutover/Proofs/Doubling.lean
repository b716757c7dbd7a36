import Cutover.Proofs.Locality

/-!
# Double pools

A routing pool over two ledgers whose policy doubles every write calls the ledger that is written
first, and then the second one, whose failures it passes over. Main statements: what an execution
and what the begin of a transaction bring to the two ledgers, by whether the second one refuses its
call (`DoublePool.execute_cases`, `DoublePool.begin_cases`).
-/

namespace Cutover.Traffic

/-! ## Calls of a ledger -/

namespace Fleet

/-- Whether a ledger refuses the next call of an operation. -/
def refuses (f : Fleet) (name op : String) : Bool :=
  ((f.ledger name).faults.start.refusal? op).isSome

theorem reach_fst (f : Fleet) (name op : String) :
    (f.reach name op).1 =
      if f.refuses name op then .error (FaultPlan.refusal name op) else .ok () := by
  unfold reach refuses
  dsimp only
  cases (f.ledger name).faults.start.refusal? op <;> rfl

theorem failures_reach (f : Fleet) (name op : String) :
    (f.reach name op).2.failures = f.failures := by
  unfold reach
  dsimp only
  split <;> rfl

theorem calls_reach (f : Fleet) (name op : String) :
    ((f.reach name op).2.ledger name).faults.calls = (f.ledger name).faults.calls + 1 := by
  unfold reach
  dsimp only
  split
  · next faults h =>
    rw [ledger_setLedger, if_pos rfl]
    exact congrArg FaultPlan.calls (FaultPlan.eq_of_refusal? h)
  · rw [ledger_setLedger, if_pos rfl]
    rfl

end Fleet

/-! ## Double pools -/

/-- A routing pool over two ledgers, with a policy under which every write is doubled. -/
structure DoublePool where
  pool : String
  cell : String
  src : String
  dst : String
  policy : Policy
  ne : src ≠ dst
  isDualWrite : policy.isDualWrite = true

namespace DoublePool

def toPool (d : DoublePool) : Pool := .routed d.pool d.cell (.ledger d.src) (.ledger d.dst)

/-- The ledger that is written first. -/
def first (d : DoublePool) : String := Pool.pick d.src d.dst d.policy.primary

/-- The ledger that is written second. -/
def second (d : DoublePool) : String := Pool.pick d.src d.dst d.policy.primary.other

theorem second_ne_first (d : DoublePool) : d.second ≠ d.first := by
  unfold first second
  cases d.policy.primary
  · exact d.ne.symm
  · exact d.ne

theorem secondary_eq (d : DoublePool) : d.policy.secondary = some d.policy.primary.other := by
  obtain ⟨side, hside⟩ := Option.isSome_iff_exists.mp d.isDualWrite
  rw [hside, Policy.secondary_eq_other hside]

theorem pick_ledger (d : DoublePool) (side : Side) :
    Pool.pick (Pool.ledger d.src) (.ledger d.dst) side = .ledger (Pool.pick d.src d.dst side) := by
  cases side <;> rfl

theorem pick_first (d : DoublePool) :
    Pool.pick (Pool.ledger d.src) (.ledger d.dst) d.policy.primary = .ledger d.first :=
  d.pick_ledger _

theorem pick_second (d : DoublePool) :
    Pool.pick (Pool.ledger d.src) (.ledger d.dst) d.policy.primary.other = .ledger d.second :=
  d.pick_ledger _

end DoublePool

/-! ## What a step makes of the two ledgers -/

/-- What comes to the statements of the two ledgers, to the calls of the second one, and to the
failures that are passed over. -/
structure Fleet.Shift (d : DoublePool) (new new' : List Statement) (calls failures : Nat)
    (f f' : Fleet) : Prop where
  policy : f'.policy d.cell = f.policy d.cell
  first : (f'.ledger d.first).committed = (f.ledger d.first).committed ++ new
  second : (f'.ledger d.second).committed = (f.ledger d.second).committed ++ new'
  calls : (f'.ledger d.second).faults.calls = (f.ledger d.second).faults.calls + calls
  failures : (f'.failureLog d.pool).count = (f.failureLog d.pool).count + failures

namespace Fleet

variable {d : DoublePool} {f f' f'' : Fleet}

theorem Shift.refl (d : DoublePool) (f : Fleet) : f.Shift d [] [] 0 0 f :=
  ⟨rfl, by simp, by simp, rfl, rfl⟩

theorem Shift.trans {new new' more more' : List Statement} {calls failures calls' failures' : Nat}
    (h : f.Shift d new new' calls failures f') (h' : f'.Shift d more more' calls' failures' f'') :
    f.Shift d (new ++ more) (new' ++ more') (calls + calls') (failures + failures') f'' where
  policy := h'.policy.trans h.policy
  first := by rw [h'.first, h.first, List.append_assoc]
  second := by rw [h'.second, h.second, List.append_assoc]
  calls := by rw [h'.calls, h.calls, Nat.add_assoc]
  failures := by rw [h'.failures, h.failures, Nat.add_assoc]

theorem committed_reach (f : Fleet) (name op other : String) :
    ((f.reach name op).2.ledger other).committed = (f.ledger other).committed := by
  rw [ledger_reach]

theorem policy_reach (f : Fleet) (name op cell : String) :
    (f.reach name op).2.policy cell = f.policy cell :=
  ((local_reach (List.mem_singleton_self name) op).within f).policy cell

theorem shift_reach_first (d : DoublePool) (f : Fleet) (op : String) :
    f.Shift d [] [] 0 0 (f.reach d.first op).2 where
  policy := f.policy_reach _ _ _
  first := by rw [committed_reach, List.append_nil]
  second := by rw [committed_reach, List.append_nil]
  calls := by
    have hwithin := (local_reach (List.mem_singleton_self d.first) op).within f
    rw [hwithin.ledger d.second (by simpa using d.second_ne_first)]
    rfl
  failures := by rw [failureLog, failures_reach]; rfl

theorem shift_reach_second (d : DoublePool) (f : Fleet) (op : String) :
    f.Shift d [] [] 1 0 (f.reach d.second op).2 where
  policy := f.policy_reach _ _ _
  first := by rw [committed_reach, List.append_nil]
  second := by rw [committed_reach, List.append_nil]
  calls := f.calls_reach d.second op
  failures := by rw [failureLog, failures_reach]; rfl

/-- A change of a ledger that adds statements to it. -/
theorem shift_modifyLedger (d : DoublePool) (f : Fleet) (name : String) {φ : Ledger → Ledger}
    {new : List Statement} (hφ : ∀ l, (φ l).committed = l.committed ++ new)
    (hcalls : ∀ l, (φ l).faults.calls = l.faults.calls) :
    f.Shift d (if d.first = name then new else []) (if d.second = name then new else []) 0 0
      (f.modifyLedger name φ) where
  policy := rfl
  first := by
    rw [modifyLedger, ledger_setLedger]
    split
    · next h => rw [hφ, h]
    · rw [List.append_nil]
  second := by
    rw [modifyLedger, ledger_setLedger]
    split
    · next h => rw [hφ, h]
    · rw [List.append_nil]
  calls := by
    rw [modifyLedger, ledger_setLedger]
    split
    · next h => rw [hcalls, h]; rfl
    · rfl
  failures := rfl

theorem shift_modify_first (d : DoublePool) (f : Fleet) {φ : Ledger → Ledger} {new : List Statement}
    (hφ : ∀ l, (φ l).committed = l.committed ++ new)
    (hcalls : ∀ l, (φ l).faults.calls = l.faults.calls) :
    f.Shift d new [] 0 0 (f.modifyLedger d.first φ) := by
  simpa [d.second_ne_first] using shift_modifyLedger d f d.first hφ hcalls

theorem shift_modify_second (d : DoublePool) (f : Fleet) {φ : Ledger → Ledger}
    {new : List Statement} (hφ : ∀ l, (φ l).committed = l.committed ++ new)
    (hcalls : ∀ l, (φ l).faults.calls = l.faults.calls) :
    f.Shift d [] new 0 0 (f.modifyLedger d.second φ) := by
  simpa [d.second_ne_first.symm] using shift_modifyLedger d f d.second hφ hcalls

/-- A change of a ledger that adds nothing to it. -/
theorem shift_of_committed_eq (d : DoublePool) (f : Fleet) (name : String) {φ : Ledger → Ledger}
    (hφ : ∀ l, (φ l).committed = l.committed) (hcalls : ∀ l, (φ l).faults.calls = l.faults.calls) :
    f.Shift d [] [] 0 0 (f.modifyLedger name φ) := by
  have h := shift_modifyLedger d f name (fun l => by rw [hφ, List.append_nil]) hcalls
  rwa [ite_self, ite_self] at h

theorem Shift.addFailure {new new' : List Statement} {calls failures : Nat} {pool : String}
    (h : f.Shift d new new' calls failures f') (hpool : pool = d.pool) (failure : Failure) :
    f.Shift d new new' calls (failures + 1) (f'.addFailure pool failure) where
  policy := h.policy
  first := h.first
  second := h.second
  calls := h.calls
  failures := by
    have hadded : ((f'.addFailure pool failure).failureLog d.pool).count =
        (f'.failureLog d.pool).count + 1 := by
      simp [Fleet.addFailure, failureLog, Assoc.getD_put, FailureLog.add, hpool]
    rw [hadded, h.failures, Nat.add_assoc]

theorem shift_rollBackOne (d : DoublePool) (f : Fleet) (name : String) :
    f.Shift d [] [] 0 0 (f.modifyLedger name Ledger.rollBackOne) :=
  shift_of_committed_eq d f name (fun _ => rfl) fun _ => rfl

/-- A call of the first ledger. -/
theorem reach_first (d : DoublePool) (f : Fleet) (op : String) :
    ∃ r f', f.reach d.first op = (r, f') ∧ f.Shift d [] [] 0 0 f' ∧
      f'.ledger d.second = f.ledger d.second := by
  refine ⟨_, _, rfl, shift_reach_first d f op, ?_⟩
  have hwithin := (local_reach (List.mem_singleton_self d.first) op).within f
  exact hwithin.ledger d.second (by simpa using d.second_ne_first)

/-- A call of the second ledger, after something that did not concern it. -/
theorem reach_second (d : DoublePool) {f₁ : Fleet} (h : f₁.ledger d.second = f.ledger d.second)
    (op : String) :
    ∃ f', f₁.reach d.second op =
        (if f.refuses d.second op then .error (FaultPlan.refusal d.second op) else .ok (), f') ∧
      f₁.Shift d [] [] 1 0 f' := by
  refine ⟨(f₁.reach d.second op).2, ?_, shift_reach_second d f₁ op⟩
  have hrefuses : f₁.refuses d.second op = f.refuses d.second op := by rw [refuses, h, refuses]
  rw [← hrefuses, ← reach_fst]

theorem ledger_second_modify_first (d : DoublePool) (f : Fleet) (φ : Ledger → Ledger) :
    (f.modifyLedger d.first φ).ledger d.second = f.ledger d.second := by
  rw [modifyLedger, ledger_setLedger, if_neg d.second_ne_first]

end Fleet

/-! ## The pool -/

namespace DoublePool

open Fleet

variable {d : DoublePool} {f : Fleet}

/-- What a ledger takes of the statements that a call brings to it. -/
def taken (refused : Bool) (new : List Statement) : List Statement := if refused then [] else new

theorem execute_cases (hpolicy : f.policy d.cell = d.policy) (s : Statement) :
    (∃ e f', d.toPool.execute s f = (.error e, f') ∧ f.Shift d [] [] 0 0 f') ∨
      ∃ f', d.toPool.execute s f = (.ok {}, f') ∧
        f.Shift d [s] (taken (f.refuses d.second "execute") [s]) 1
          (f.refuses d.second "execute").toNat f' := by
  simp only [toPool, Pool.execute_routed, hpolicy, d.pick_first, d.secondary_eq, d.pick_second]
  obtain ⟨r, f₁, hr, hshift, hsame⟩ := reach_first d f "execute"
  cases r with
  | error e => exact .inl ⟨e, f₁, by simp only [Pool.execute, hr], hshift⟩
  | ok =>
    have hfirst := shift_modify_first d f₁ (φ := (·.apply s)) (fun _ => rfl) fun _ => rfl
    obtain ⟨f₂, hr₂, hshift₂⟩ := reach_second d
      ((ledger_second_modify_first d f₁ (·.apply s)).trans hsame) "execute"
    have hboth := (hshift.trans hfirst).trans hshift₂
    simp only [Pool.execute, hr, hr₂]
    cases f.refuses d.second "execute" with
    | true => exact .inr ⟨_, rfl, hboth.addFailure rfl _⟩
    | false =>
      have hsecond := shift_modify_second d f₂ (φ := (·.apply s)) (fun _ => rfl) fun _ => rfl
      exact .inr ⟨_, rfl, hboth.trans hsecond⟩

theorem shift_query (hpolicy : f.policy d.cell = d.policy) (s : Statement) :
    f.Shift d [] [] 0 0 (d.toPool.query s f).2 := by
  simp only [toPool, Pool.query_routed, hpolicy, d.pick_first]
  obtain ⟨r, f₁, hr, hshift, -⟩ := reach_first d f "query"
  simp only [Pool.query, hr]
  cases r <;> exact hshift

theorem begin_cases (hpolicy : f.policy d.cell = d.policy) :
    (∃ e f', d.toPool.begin f = (.error e, f') ∧ f.Shift d [] [] 0 0 f') ∨
      ∃ r f', r.pool = d.pool ∧
        d.toPool.begin f =
          (.ok (if f.refuses d.second "begin" then .single r (.ledger d.first [])
            else .dual r (.ledger d.first []) d.second (.ledger d.second [])), f') ∧
        f.Shift d [] [] 1 (f.refuses d.second "begin").toNat f' := by
  simp only [toPool, Pool.begin_routed, hpolicy, d.pick_first, d.secondary_eq, d.pick_second]
  obtain ⟨r, f₁, hr, hshift, hsame⟩ := reach_first d f "begin"
  cases r with
  | error e => exact .inl ⟨e, f₁, by simp only [Pool.begin, hr], hshift⟩
  | ok =>
    have hfirst := shift_of_committed_eq d f₁ d.first (φ := Ledger.openOne)
        (fun _ => rfl) fun _ => rfl
    obtain ⟨f₂, hr₂, hshift₂⟩ := reach_second d
      ((ledger_second_modify_first d f₁ Ledger.openOne).trans hsame) "begin"
    have hboth := (hshift.trans hfirst).trans hshift₂
    simp only [Pool.begin, hr, hr₂]
    cases f.refuses d.second "begin" with
    | true => exact .inr ⟨_, _, rfl, rfl, hboth.addFailure rfl _⟩
    | false =>
      have hsecond :=
        shift_of_committed_eq d f₂ d.second (φ := Ledger.openOne) (fun _ => rfl) fun _ => rfl
      exact .inr ⟨_, _, rfl, rfl, hboth.trans hsecond⟩

end DoublePool

end Cutover.Traffic
