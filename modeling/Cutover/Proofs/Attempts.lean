import Cutover.Proofs.Sequences
import Cutover.Proofs.Wire
import Mathlib.Data.List.ReduceOption

/-!
# Attempts at a repair

A fixer that is alone with its deployment tries to repair a row as a report says: it reads the base
and writes to the target, and both together may take as long as its limit. `Migration.tick` is what
happens next when nobody interferes. Main statement: an attempt succeeds if no fault hits it and the
delays of the two calls together are within the limit; otherwise it changes nothing, and the next
attempt at the same report begins when the fixer has rested (`Migration.attempt_spec`).
-/

namespace Cutover

variable {ρ : Type} [Entity ρ]

/-! ## The course of time -/

namespace Migration

/-- What happens next when nobody interferes: a task that can move does, and otherwise time passes
until a task has something to do. -/
def tick (m : Migration ρ) : Migration ρ :=
  match m.next? with
  | some m' => m'
  | none => (m.wake?.map m.setNow).getD m

/-- A migration comes to another, when nobody interferes, and all on the way are as `Q` says, the
last one included. -/
inductive Leads (Q : Migration ρ → Prop) : Migration ρ → Migration ρ → Prop where
  | refl {m} : Q m → Leads Q m m
  | tick {m m'} : Q m → Leads Q m.tick m' → Leads Q m m'

theorem Leads.next {Q : Migration ρ → Prop} {m m₁ m' : Migration ρ} (hm : Q m) (htick : m.tick = m₁)
    (h : Leads Q m₁ m') : Leads Q m m' :=
  .tick hm (htick ▸ h)

theorem Leads.trans {Q : Migration ρ → Prop} {m m' m'' : Migration ρ} (h : Leads Q m m')
    (h' : Leads Q m' m'') : Leads Q m m'' := by
  induction h with
  | refl => exact h'
  | tick hm _ ih => exact .tick hm (ih h')

/-- A migration in which nobody but consumers is at work. -/
structure Bare (m : Migration ρ) : Prop where
  jobs : m.scheduler.jobs = []
  runs : m.runs = []
  posts : m.posts = []

/-- The migration at a moment, with a deployment and one consumer. -/
def stage (m : Migration ρ) (now : Nat) (d : Deployment ρ) (c : Consumer ρ) : Migration ρ :=
  { m with now, site := d, consumers := [c] }

section Stage

variable {m : Migration ρ} {now : Nat} {d d' : Deployment ρ} {c c' : Consumer ρ}

theorem next?_stage (h : m.Bare) :
    (m.stage now d c).next? = (c.step now d).map fun (d', c') => m.stage now d' c' := by
  have hturns : (m.stage now d c).turns = [.consumer 0] := by
    simp [turns, stage, h.jobs, h.runs, h.posts]
  rw [next?, hturns, List.findSome?_singleton]
  cases hstep : c.step now d with
  | none => simp [move, stage, hstep]
  | some next => simp [move, stage, hstep]

theorem wake?_stage (h : m.Bare) : (m.stage now d c).wake? = c.wake? := by
  simp only [wake?, stage, h.jobs, h.runs, h.posts]
  cases hw : c.wake? <;> simp [hw]

theorem tick_of_step (h : m.Bare) (hstep : c.step now d = some (d', c')) :
    (m.stage now d c).tick = m.stage now d' c' := by
  rw [tick, next?_stage h, hstep]
  rfl

theorem tick_of_wake (h : m.Bare) (hstep : c.step now d = none) {t : Nat} (hwake : c.wake? = some t)
    (ht : now ≤ t) : (m.stage now d c).tick = m.stage t d c := by
  rw [tick, next?_stage h, hstep, wake?_stage h, hwake]
  simp only [Option.map_none, Option.map_some, Option.getD_some, setNow, stage, Nat.max_eq_right ht]

end Stage

/-- The only consumer handles a message. -/
def Attends (message : Delivery) (m : Migration ρ) : Prop :=
  ∃ c work due, m.consumers = [c] ∧ c.phase = .handling message work due

/-- The only consumer handles no message. -/
def Pauses (m : Migration ρ) : Prop := ∃ c, m.consumers = [c] ∧ ¬ c.IsHandling

/-! ## The handling of a message -/

section Handling

variable {m : Migration ρ} {c : Consumer ρ} {message : Delivery} {due : Nat} {t t' : Nat}
  {d d' : Deployment ρ} {w w' : Handling ρ}

/-- A consumer at work on a message. -/
def atWork (c : Consumer ρ) (message : Delivery) (due : Nat) (w : Handling ρ) : Consumer ρ :=
  { c with phase := .handling message w due }

theorem attends_atWork : (m.stage t d (atWork c message due w)).Attends message :=
  ⟨_, w, due, rfl, rfl⟩

theorem tick_atWork (h : m.Bare) (hc : c.stopped = false) (hres : w.result? = none)
    (hstep : w.step ⟨t, false⟩ d = some (d', w')) :
    (m.stage t d (atWork c message due w)).tick = m.stage t d' (atWork c message due w') := by
  refine tick_of_step h ?_
  simp [Consumer.step, Consumer.isDone, Consumer.proceed, atWork, hc, hres, hstep]

/-- A handling that has nothing to do until some time waits for it, or until the message is due. -/
theorem leads_wait (h : m.Bare) (hc : c.stopped = false) (hres : w.result? = none) {ready : Nat}
    (hwake : w.wake? = some ready) (hstep : ∀ u < ready, w.step ⟨u, false⟩ d = none)
    (ht : t ≤ due) :
    Leads (Attends message) (m.stage t d (atWork c message due w))
      (m.stage (min (max t ready) due) d (atWork c message due w)) := by
  by_cases hready : t < ready ∧ t < due
  · obtain ⟨hready, hdue⟩ := hready
    have htick : (m.stage t d (atWork c message due w)).tick =
        m.stage (min ready due) d (atWork c message due w) := by
      refine tick_of_wake h ?_ ?_ (by omega)
      · simp [Consumer.step, Consumer.isDone, Consumer.proceed, atWork, hc, hres, hstep t hready,
          hdue]
      · simp [Consumer.wake?, atWork, hwake]
    refine .next attends_atWork htick ?_
    rw [Nat.max_eq_right (by omega)]
    exact .refl attends_atWork
  · have hsame : min (max t ready) due = t := by omega
    rw [hsame]
    exact .refl attends_atWork

/-- How a handling ends that has nothing to do when the message is due. -/
theorem step_due (hc : c.stopped = false) (hres : w.result? = none)
    (hstep : w.step ⟨due, false⟩ d = none) :
    (atWork c message due w).step due d =
      some (Consumer.onOutcome d (atWork c message due w) message (.error .deadlineExceeded)) := by
  simp [Consumer.step, Consumer.isDone, Consumer.proceed, atWork, hc, hres, hstep]

/-- How a handling ends that has a result. -/
theorem step_result {outcome : Except Error Unit} (hc : c.stopped = false)
    (hres : w.result? = some outcome) :
    (atWork c message due w).step t d =
      some (Consumer.onOutcome d (atWork c message due w) message outcome) := by
  simp [Consumer.step, Consumer.isDone, Consumer.proceed, atWork, hc, hres]

end Handling

end Migration

/-! ## Calls of a repair -/

namespace Deployment

variable {d : Deployment ρ} {side : Side} {c : Call ρ} {t : Nat}

/-- A deployment with the same broker, whose stores have the same rows. -/
structure Level (d d' : Deployment ρ) : Prop where
  broker : d'.broker = d.broker
  contents : ∀ side, (d'.store side).contents = (d.store side).contents

theorem Level.trans {d d' d'' : Deployment ρ} (h : d.Level d') (h' : d'.Level d'') : d.Level d'' :=
  ⟨h'.broker.trans h.broker, fun side => (h'.contents side).trans (h.contents side)⟩

theorem Level.setStore {s : Store ρ} (h : s.contents = (d.store side).contents) :
    d.Level (d.setStore s side) := by
  refine ⟨broker_setStore .., fun other => ?_⟩
  rw [store_setStore]
  split
  · next heq => rw [h, heq]
  · rfl

/-- The call that has just begun. -/
theorem call_begun (h : (d.store side).Plain) :
    d.call ⟨t, false⟩ none side c none =
      some (d.setStore ((d.store side).start c).1 side,
        .underway ⟨t + (d.store side).faults.latency, none, none⟩) := by
  have hs := h c.op
  simp [call, Flight.step, Store.start, hs]

theorem call_waits {ready u : Nat} (h : u < ready) :
    d.call ⟨u, false⟩ none side c (some ⟨ready, none, none⟩) = none := by
  simp [call, Flight.step, Nat.not_le.mpr h, Flight.isOverdue]

theorem call_ends {ready u : Nat} (h : ready ≤ u) :
    d.call ⟨u, false⟩ none side c (some ⟨ready, none, none⟩) =
      some (d.setStore ((d.store side).finish c).2 side,
        .answered ((d.store side).finish c).1) := by
  simp [call, Flight.step, h]

end Deployment

/-! ## Attempts -/

/-- A member that goes back to the message that it has read is where it was. -/
theorem Broker.rewind_of_poll {b : Broker} {s s' : Subscription} {message : Delivery}
    (h : b.poll s = .message message s') : s'.rewind message.offset = s := by
  obtain ⟨hmessage, -, rfl⟩ := Consumer.poll_eq_message h
  rw [hmessage]
  simp [Subscription.rewind]

namespace Deployment

/-- The write with which a row is repaired as a report says. -/
def mending (d : Deployment ρ) (r : Report) : Call ρ :=
  match Rows.first? r.id (d.store r.base).rows with
  | some row => .upsert row
  | none => .delete r.id

/-- No fault is going to hit a repair as a report says. -/
def Permits (d : Deployment ρ) (r : Report) : Prop :=
  (d.store r.base).faults.refusal? (Call.first r.id : Call ρ).op = none ∧
    (d.store r.base.other).faults.refusal? (d.mending r).op = none

end Deployment

namespace Migration

/-- From a moment on, the handling of a message comes to its end with an outcome, at a later moment
and with a deployment that it leaves. -/
def Concludes (m : Migration ρ) (c : Consumer ρ) (message : Delivery) (due t : Nat)
    (d : Deployment ρ) (w : Handling ρ) (t' : Nat) (d' : Deployment ρ)
    (outcome : Except Error Unit) : Prop :=
  ∃ w', Leads (Attends message) (m.stage t d (atWork c message due w))
      (m.stage t' d' (atWork c message due w')) ∧
    (w'.result? = some outcome ∨ w'.result? = none ∧ outcome = .error .deadlineExceeded) ∧
    (atWork c message due w').step t' d' =
      some (Consumer.onOutcome d' (atWork c message due w') message outcome)

section Concludes

variable {m : Migration ρ} {c : Consumer ρ} {message : Delivery} {due t t' : Nat}
  {d d' : Deployment ρ} {w : Handling ρ} {outcome : Except Error Unit}

theorem concludes_of_result (hc : c.stopped = false) (hres : w.result? = some outcome) :
    m.Concludes c message due t d w t d outcome :=
  ⟨w, .refl attends_atWork, .inl hres, step_result hc hres⟩

/-- A repair that is about to begin with a call waits for its answer, or until the message is
due. -/
theorem concludes_call (r : Repair ρ) {side : Side} {call : Call ρ}
    {answer : Except Error call.Answer → Repair ρ} (h : m.Bare) (hc : c.stopped = false)
    (hlive : r.result? = none) (hflight : r.flight = none)
    (hasks : ∀ (x : Moment) d f, ({ r with flight := f } : Repair ρ).step x d =
      (d.call x none side call f).map fun (d, p) => (d, r.after answer p))
    (hplain : (d.store side).Plain) (message : Delivery) (ht : t ≤ due) :
    (due < t + (d.store side).faults.latency →
        m.Concludes c message due t d (.repair r) due
          (d.setStore ((d.store side).start call).1 side)
          (.error .deadlineExceeded)) ∧
      (t + (d.store side).faults.latency ≤ due →
        ∀ t' d' outcome, m.Concludes c message due (t + (d.store side).faults.latency)
          ((d.setStore ((d.store side).start call).1 side).setStore
            (((d.store side).start call).1.finish call).2 side)
          (.repair (answer (((d.store side).start call).1.finish call).1)) t' d' outcome →
        m.Concludes c message due t d (.repair r) t' d' outcome) := by
  obtain ⟨base, id, phase, flight⟩ := r
  subst hflight
  set ready := t + (d.store side).faults.latency with hready
  set d₁ := d.setStore ((d.store side).start call).1 side with hd₁
  have hstore : d₁.store side = ((d.store side).start call).1 := by
    rw [hd₁, Deployment.store_setStore, if_pos rfl]
  -- the call has begun, and the repair waits for its answer
  set r₁ : Repair ρ := ⟨base, id, phase, some ⟨ready, none, none⟩⟩ with hr₁
  have hlive₀ : (Handling.repair ⟨base, id, phase, none⟩ : Handling ρ).result? = none := hlive
  have hlive₁ : (Handling.repair r₁).result? = none := hlive
  have hbegun : Leads (Attends message)
      (m.stage t d (atWork c message due (.repair ⟨base, id, phase, none⟩)))
      (m.stage (min (max t ready) due) d₁ (atWork c message due (.repair r₁))) := by
    have hstep : (Handling.repair ⟨base, id, phase, none⟩).step ⟨t, false⟩ d =
        some (d₁, .repair r₁) := by
      rw [Handling.step, hasks, Deployment.call_begun hplain]
      rfl
    refine .next attends_atWork (tick_atWork h hc hlive₀ hstep) ?_
    refine leads_wait h hc hlive₁ rfl (fun u hu => ?_) ht
    rw [Handling.step, hasks, Deployment.call_waits hu]
    rfl
  constructor
  · intro hlate
    have hnow : min (max t ready) due = due := by omega
    rw [hnow] at hbegun
    have hwaits : (Handling.repair r₁).step ⟨due, false⟩ d₁ = none := by
      rw [Handling.step, hasks, Deployment.call_waits hlate]
      rfl
    exact ⟨_, hbegun, .inr ⟨hlive₁, rfl⟩, step_due hc hlive₁ hwaits⟩
  · rintro hle t' d' outcome ⟨w', hleads, hres, hend⟩
    have hnow : min (max t ready) due = ready := by omega
    rw [hnow] at hbegun
    have hstep : (Handling.repair r₁).step ⟨ready, false⟩ d₁ = some
        (d₁.setStore (((d.store side).start call).1.finish call).2 side,
          .repair (answer (((d.store side).start call).1.finish call).1)) := by
      rw [Handling.step, hasks, Deployment.call_ends (Nat.le_refl _), hstore]
      rfl
    exact ⟨w', hbegun.trans (.next attends_atWork (tick_atWork h hc hlive₁ hstep) hleads), hres,
      hend⟩

/-- What becomes of a handling: it succeeds, and the row in the target is written, if the conditions
are met; otherwise it fails, but not as cancelled, and changes nothing. -/
structure Comes (d : Deployment ρ) (side : Side) (call : Call ρ) (met : Prop) (d' : Deployment ρ)
    (outcome : Except Error Unit) : Prop where
  iff : outcome = .ok () ↔ met
  succeeded : outcome = .ok () → d'.broker = d.broker ∧ ∀ other, (d'.store other).contents =
    if other = side then ((d.store side).contents.run call).2 else (d.store other).contents
  failed : outcome ≠ .ok () → d.Level d' ∧ outcome ≠ .error .cancelled

theorem comes_failed {side : Side} {call : Call ρ} {met : Prop} {e : Error} (hmet : ¬ met)
    (hlevel : d.Level d') (he : e ≠ .cancelled) : Comes d side call met d' (.error e) := by
  refine ⟨by simpa using hmet, by simp, fun _ => ⟨hlevel, ?_⟩⟩
  simpa using he

/-- What came before with the same rows does not matter. -/
theorem Comes.level {d₂ : Deployment ρ} {side : Side} {call : Call ρ} {met met' : Prop}
    (h : Comes d₂ side call met d' outcome) (hlevel : d.Level d₂) (hmet : met ↔ met') :
    Comes d side call met' d' outcome := by
  refine ⟨h.iff.trans hmet, fun hok => ?_, fun hfail => ?_⟩
  · obtain ⟨hbroker, hcontents⟩ := h.succeeded hok
    refine ⟨hbroker.trans hlevel.broker, fun other => (hcontents other).trans ?_⟩
    rw [hlevel.contents, hlevel.contents]
  · obtain ⟨hlevel', hcancelled⟩ := h.failed hfail
    exact ⟨hlevel.trans hlevel', hcancelled⟩

/-- How the write of a repair ends. -/
theorem concludes_write (r : Repair ρ) {call : Call ρ} (h : m.Bare) (hc : c.stopped = false)
    (hlive : r.result? = none) (hflight : r.flight = none)
    (hasks : ∀ (x : Moment) d f, ({ r with flight := f } : Repair ρ).step x d =
      (d.call x none r.base.other call f).map fun (d, p) => (d, r.after r.afterWrite p))
    (hanswer : ∀ s : Contents ρ, ∃ a, (s.run call).1 = .ok a)
    (hplain : (d.store r.base.other).Plain) (ht : t ≤ due) :
    ∃ t' d' outcome, m.Concludes c message due t d (.repair r) t' d' outcome ∧
      Comes d r.base.other call ((d.store r.base.other).faults.refusal? call.op = none ∧
        t + (d.store r.base.other).faults.latency ≤ due) d' outcome := by
  obtain ⟨hlate, hends⟩ := concludes_call r h hc hlive hflight hasks hplain message ht
  have hstart : d.Level (d.setStore ((d.store r.base.other).start call).1 r.base.other) :=
    .setStore (Store.contents_start ..)
  rcases Nat.lt_or_ge due (t + (d.store r.base.other).faults.latency) with hlt | hle
  · exact ⟨_, _, _, hlate hlt,
      comes_failed (fun hmet => absurd hmet.2 (Nat.not_le.mpr hlt)) hstart (by simp)⟩
  by_cases hr : (d.store r.base.other).faults.refusal? call.op = none
  · obtain ⟨hans, hcontents⟩ := Store.finish_permitted hplain hr
    obtain ⟨a, ha⟩ := hanswer (d.store r.base.other).contents
    refine ⟨_, _, .ok (), hends hle _ _ _ (concludes_of_result hc ?_),
      ⟨?_, fun _ => ⟨?_, fun other => ?_⟩, ?_⟩⟩
    · rw [hans, ha]
      rfl
    · simp [hr, hle]
    · rw [Deployment.broker_setStore, Deployment.broker_setStore]
    · rw [Deployment.store_setStore]
      split
      · exact hcontents
      · next hne => rw [Deployment.store_setStore, if_neg hne]
    · simp
  · obtain ⟨hans, hcontents⟩ := Store.finish_refused hplain hr
    refine ⟨_, _, .error (FaultPlan.refusal (d.store r.base.other).name call.op),
      hends hle _ _ _ (concludes_of_result hc ?_),
      comes_failed (fun hmet => hr hmet.1) (hstart.trans (.setStore ?_))
        (by simp [FaultPlan.refusal])⟩
    · rw [hans]
      rfl
    · rw [hcontents, Deployment.store_setStore, if_pos rfl, Store.contents_start]

/-- How the repair of a row ends. -/
theorem concludes_repair (r : Report) (message : Delivery) (t limit : Nat) (h : m.Bare)
    (hc : c.stopped = false) (hplain : ∀ side, (d.store side).Plain) :
    ∃ t' d' outcome,
      m.Concludes c message (t + limit) t d (.repair { base := r.base, id := r.id }) t' d' outcome ∧
      Comes d r.base.other (d.mending r)
        (d.Permits r ∧
          (d.store r.base).faults.latency + (d.store r.base.other).faults.latency ≤ limit)
        d' outcome := by
  have hother : r.base.other ≠ r.base := Side.other_ne _
  have hasks (x : Moment) (d : Deployment ρ) (f : Option Flight) :
      Repair.step x d { base := r.base, id := r.id, flight := f } =
        (d.call x none r.base (.first r.id) f).map fun (d, p) =>
          (d, Repair.after { base := r.base, id := r.id }
            (Repair.afterRead { base := r.base, id := r.id }) p) := rfl
  have ht : t ≤ t + limit := Nat.le_add_right ..
  obtain ⟨hlate, hends⟩ :=
    concludes_call { base := r.base, id := r.id } h hc rfl rfl hasks (hplain r.base) message ht
  have hstart : d.Level (d.setStore ((d.store r.base).start (.first r.id)).1 r.base) :=
    .setStore (Store.contents_start ..)
  rcases Nat.lt_or_ge limit (d.store r.base).faults.latency with hlt | hle
  · exact ⟨_, _, _, hlate (by omega), comes_failed (fun hmet => by omega) hstart (by simp)⟩
  have hends := hends (by omega)
  -- the target is as it was when the base has answered
  generalize hd₂ : (d.setStore ((d.store r.base).start (.first r.id)).1 r.base).setStore
    (((d.store r.base).start (.first r.id)).1.finish (.first r.id)).2 r.base = d₂ at hends
  have htarget : d₂.store r.base.other = d.store r.base.other := by
    rw [← hd₂, Deployment.store_setStore, if_neg hother, Deployment.store_setStore, if_neg hother]
  have hplain₂ : (d₂.store r.base.other).Plain := htarget ▸ hplain r.base.other
  have hlevel
      (hcontents : (((d.store r.base).start (.first r.id)).1.finish (.first r.id)).2.contents =
        (d.store r.base).contents) :
      d.Level d₂ := by
    rw [← hd₂]
    refine hstart.trans (.setStore ?_)
    rw [hcontents, Deployment.store_setStore, if_pos rfl, Store.contents_start]
  by_cases hr : (d.store r.base).faults.refusal? (Call.first r.id : Call ρ).op = none
  · obtain ⟨hans, hcontents⟩ := Store.finish_permitted (hplain r.base) hr
    rw [hans] at hends
    cases hf : Rows.first? r.id (d.store r.base).rows with
    | some row =>
      rw [Contents.run_first_some hf] at hends hcontents
      have hmending : d.mending r = .upsert row := by simp only [Deployment.mending, hf]
      have hanswer (s : Contents ρ) : ∃ a, (s.run (.upsert row)).1 = .ok a := ⟨_, rfl⟩
      obtain ⟨t', d', outcome, hconcludes, hcomes⟩ := concludes_write
        { base := r.base, id := r.id, phase := .writing row } h hc rfl rfl (fun _ _ _ => rfl)
        hanswer hplain₂
        (Nat.add_le_add_left hle t)
      refine ⟨t', d', outcome, hends _ _ _ hconcludes,
        hmending ▸ hcomes.level (hlevel hcontents) ?_⟩
      simp only [Deployment.Permits, hmending, hr, htarget, true_and]
      exact and_congr_right fun _ => by omega
    | none =>
      rw [Contents.run_first_none hf] at hends hcontents
      have hmending : d.mending r = .delete r.id := by simp only [Deployment.mending, hf]
      have hanswer (s : Contents ρ) : ∃ a, (s.run (.delete r.id)).1 = .ok a := ⟨_, rfl⟩
      obtain ⟨t', d', outcome, hconcludes, hcomes⟩ := concludes_write
        { base := r.base, id := r.id, phase := .removing } h hc rfl rfl (fun _ _ _ => rfl)
        hanswer hplain₂
        (Nat.add_le_add_left hle t)
      refine ⟨t', d', outcome, hends _ _ _ hconcludes,
        hmending ▸ hcomes.level (hlevel hcontents) ?_⟩
      simp only [Deployment.Permits, hmending, hr, htarget, true_and]
      exact and_congr_right fun _ => by omega
  · obtain ⟨hans, hcontents⟩ := Store.finish_refused (hplain r.base) hr
    rw [hans] at hends
    refine ⟨_, _, _, hends _ _ (.error (FaultPlan.refusal (d.store r.base).name "first"))
      (concludes_of_result hc rfl), ?_⟩
    exact comes_failed (fun hmet => hr hmet.1.1) (hlevel hcontents) (by simp [FaultPlan.refusal])

end Concludes

/-! ## Between two attempts -/

section Rests

variable {m : Migration ρ} {c : Consumer ρ} {t : Nat} {d : Deployment ρ}

theorem pauses_stage {phase : Consumer.Phase ρ}
    (hph : ∀ message work due, phase ≠ .handling message work due) :
    (m.stage t d { c with phase }).Pauses :=
  ⟨_, rfl, fun ⟨message, work, due, h⟩ => hph message work due h⟩

/-- A consumer that rests asks for a message again when its backoff is over, and looks for it. -/
theorem leads_rest (h : m.Bare) (hc : c.stopped = false) (hb : d.broker.Obliging) :
    Leads Pauses (m.stage t d { c with phase := .resting none })
      (m.stage (t + c.backoff) d { c with phase := .waiting }) := by
  have hnext : d.broker.scripted .next = (none, d.broker) := hb.scripted (by decide)
  have hbegun : (m.stage t d { c with phase := .resting none }).tick =
      m.stage t d { c with phase := .resting (some ⟨t + c.backoff, none, none⟩) } := by
    refine tick_of_step h ?_
    simp [Consumer.step, Consumer.isDone, Consumer.proceed, hc, Flight.pause, Flight.step]
  have hrested : (m.stage (t + c.backoff) d
      { c with phase := .resting (some ⟨t + c.backoff, none, none⟩) }).tick =
      m.stage (t + c.backoff) d { c with phase := .asking } := by
    refine tick_of_step h ?_
    simp [Consumer.step, Consumer.isDone, Consumer.proceed, hc, Flight.pause, Flight.step]
  have hasked : (m.stage (t + c.backoff) d { c with phase := .asking }).tick =
      m.stage (t + c.backoff) d { c with phase := .waiting } := by
    refine tick_of_step h ?_
    simp [Consumer.step, Consumer.isDone, Consumer.proceed, hc, hnext]
  have hwaits : Leads Pauses (m.stage t d
      { c with phase := .resting (some ⟨t + c.backoff, none, none⟩) })
      (m.stage (t + c.backoff) d
        { c with phase := .resting (some ⟨t + c.backoff, none, none⟩) }) := by
    rcases Nat.eq_zero_or_pos c.backoff with hzero | hpos
    · have hnow : t + c.backoff = t := by omega
      rw [hnow]
      exact .refl (pauses_stage (by simp))
    · have hlt : ¬ t + c.backoff ≤ t := by omega
      have hstep : Consumer.step t d
          { c with phase := .resting (some ⟨t + c.backoff, none, none⟩) } =
          none := by
        simp [Consumer.step, Consumer.isDone, Consumer.proceed, hc, Flight.pause, Flight.step, hlt,
          Flight.isOverdue]
      exact .next (pauses_stage (by simp)) (tick_of_wake h hstep rfl (Nat.le_add_right ..))
        (.refl (pauses_stage (by simp)))
  refine .next (pauses_stage (by simp)) hbegun (hwaits.trans ?_)
  refine .next (pauses_stage (by simp)) hrested ?_
  exact .next (pauses_stage (by simp)) hasked (.refl (pauses_stage (by simp)))

/-- A fixer that finds a report begins to repair its row. -/
theorem tick_report {message : Delivery} {s : Subscription} {r : Report} (h : m.Bare)
    (hhandler : c.handler = .fixer) (hc : c.stopped = false) (hph : c.phase = .waiting)
    (hpoll : d.broker.poll c.subscription = .message message s)
    (hr : Report.decode? message.payload = some r) :
    (m.stage t d c).tick = m.stage t d
      (atWork { c with subscription := s, log := ⟨r.id, message.offset, t⟩ :: c.log } message
        (t + c.limit)
        (.repair { base := r.base, id := r.id })) := by
  refine tick_of_step h ?_
  simp [Consumer.step, Consumer.isDone, Consumer.proceed, hph, hc, hpoll,
    Consumer.onMessage, Handler.begin,
    hhandler, hr, atWork]

end Rests

/-- A consumer that fails to handle a message goes back to it and rests. -/
theorem onOutcome_failed {d : Deployment ρ} (hb : d.broker.Obliging) (c : Consumer ρ)
    (message : Delivery) {outcome : Except Error Unit} (hfailed : outcome ≠ .ok ())
    (hcancelled : outcome ≠ .error .cancelled) :
    Consumer.onOutcome d c message outcome = (d,
      { c with subscription := c.subscription.rewind message.offset, phase := .resting none }) := by
  unfold Consumer.onOutcome
  split
  · exact absurd rfl hfailed
  · exact absurd rfl hcancelled
  · rw [Consumer.goBack_of_obliging hb]

/-- The only consumer has just handled a message with success. -/
def Succeeds (message : Delivery) (m : Migration ρ) : Prop :=
  ∃ c, m.consumers = [c] ∧ c.Succeeds message

/-- An attempt at a repair by a fixer that is alone. The fixer handles the report without a break
until the attempt ends. It succeeds if and only if no fault hits it and the delays of its two calls
are together no longer than the limit. If it succeeds the row is written and the report
acknowledged; otherwise the broker and the rows are as they were before, and the next message that
is handled is this one, when the backoff is over. -/
theorem attempt_spec {m : Migration ρ} {c : Consumer ρ} {message : Delivery} {s : Subscription}
    {r : Report} (hbare : m.Bare) (hc : m.consumers = [c]) (hhandler : c.handler = .fixer)
    (hasked : c.stopped = false) (hph : c.phase = .waiting)
    (hpoll : m.site.broker.poll c.subscription = .message message s)
    (hr : Report.decode? message.payload = some r) (hplain : ∀ side, (m.site.store side).Plain)
    (hobliging : m.site.broker.Obliging) :
    ∃ m' : Migration ρ, Leads (Attends message) m.tick m' ∧
      (m'.Succeeds message ↔ m.site.Permits r ∧
        (m.site.store r.base).faults.latency + (m.site.store r.base.other).faults.latency ≤
          c.limit) ∧
      (m'.Succeeds message → m'.tick.Pauses ∧
        m'.tick.site.broker = m.site.broker.ack s message.offset ∧
        ∀ side, (m'.tick.site.store side).contents =
          if side = r.base.other then
            ((m.site.store r.base.other).contents.run (m.site.mending r)).2
          else (m.site.store side).contents) ∧
      (¬ m'.Succeeds message → m.site.Level m'.tick.site ∧
        ∃ m'', Leads Pauses m'.tick m'' ∧ m''.tick.Attends message ∧
          m''.tick.now = m'.now + c.backoff ∧ m.site.Level m''.tick.site) := by
  have hm : m = m.stage m.now m.site c := by
    rw [stage, ← hc]
  have htick := tick_report (t := m.now) hbare hhandler hasked hph hpoll hr
  rw [← hm] at htick
  set c₁ : Consumer ρ := { c with subscription := s, log := ⟨r.id, message.offset, m.now⟩ :: c.log }
    with hc₁
  have hasked₁ : c₁.stopped = false := hasked
  obtain ⟨t, d, outcome, ⟨w, hleads, hres, hstep⟩, hcomes⟩ :=
    concludes_repair r message m.now c.limit hbare hasked₁ hplain
  set x := atWork c₁ message (m.now + c.limit) w with hx
  have hend : (m.stage t d x).tick = m.stage t (Consumer.onOutcome d x message outcome).1
      (Consumer.onOutcome d x message outcome).2 := tick_of_step hbare hstep
  have hsucceeds : (m.stage t d x).Succeeds message ↔ outcome = .ok () := by
    refine Iff.trans (b := w.result? = some (.ok ())) ⟨?_, fun h => ⟨_, rfl, w, _, rfl, h⟩⟩ ?_
    · rintro ⟨y, hy, w', due, hph', hres'⟩
      cases hy
      cases hph'
      exact hres'
    · rcases hres with hres | ⟨hres, rfl⟩
      · rw [hres, Option.some_inj]
      · simp [hres]
  have hback : m.site.broker.poll (s.rewind message.offset) = .message message s := by
    rw [Broker.rewind_of_poll hpoll]
    exact hpoll
  rw [htick]
  refine ⟨_, hleads, hsucceeds.trans hcomes.iff, fun hok => ?_, fun hfail => ?_⟩
  · obtain rfl := hsucceeds.mp hok
    obtain ⟨hbroker, hcontents⟩ := hcomes.succeeded rfl
    have hack : Consumer.acknowledge d x message =
        { d with broker := d.broker.ack s message.offset } :=
      Consumer.acknowledge_of_obliging (hbroker ▸ hobliging) x message
    rw [hend]
    change Pauses (m.stage t (Consumer.acknowledge d x message) { x with phase := .asking }) ∧
      (Consumer.acknowledge d x message).broker = _ ∧
      ∀ side, ((Consumer.acknowledge d x message).store side).contents = _
    rw [hack, ← hbroker]
    refine ⟨pauses_stage (by simp), rfl, fun side => ?_⟩
    rw [Deployment.store_withBroker, hcontents]
  · rw [hsucceeds] at hfail
    obtain ⟨hlevel, hcancelled⟩ := hcomes.failed hfail
    have hobliging' : d.broker.Obliging := hlevel.broker ▸ hobliging
    rw [onOutcome_failed hobliging' x message hfail hcancelled] at hend
    rw [hend]
    set c₂ : Consumer ρ := { x with subscription := x.subscription.rewind message.offset } with hc₂
    have hrests : Leads Pauses (m.stage t d { c₂ with phase := .resting none })
        (m.stage (t + c₂.backoff) d { c₂ with phase := .waiting }) :=
          leads_rest hbare hasked hobliging'
    refine ⟨hlevel, _, hrests, ?_⟩
    -- the fixer has gone back to the message, and finds it again
    have hpoll' : d.broker.poll (s.rewind message.offset) = .message message s := by
      rw [hlevel.broker]
      exact hback
    rw [tick_report (c := { c₂ with phase := .waiting }) hbare hhandler hasked rfl hpoll' hr]
    exact ⟨attends_atWork, rfl, hlevel⟩

/-- A row that only the source has, and a report of it. -/
def sampleReport : Report := ⟨1, .src, .targetMissing⟩

/-- A fixer that looks for a message. The source takes 2 milliseconds for a call and the target
3. -/
def sampleAttempt (limit : Nat) : Migration Account where
  site :=
    { src := { Store.ofTable "src" [⟨1, "ann", 10, 5⟩] with faults := { latency := 2 } }
      dst := { Store.ofTable "dst" [] with faults := { latency := 3 } }
      broker := ({} : Broker).append "migrator_inconsistent" sampleReport.encode }
  consumers := [{
    subscription := ⟨"migrator-fix", "migrator_inconsistent", 0⟩
    handler := .fixer
    limit
    backoff := 100
    phase := .waiting }]

theorem attempt_spec_sample :
    let message : Delivery :=
      { topic := "migrator_inconsistent", offset := 0, payload := sampleReport.encode }
    (∃ m', Leads (Attends message) (sampleAttempt 5).tick m' ∧ m'.Succeeds message) ∧
      ∃ m', Leads (Attends message) (sampleAttempt 4).tick m' ∧ ¬ m'.Succeeds message := by
  intro message
  have hpoll (limit : Nat) :
      (sampleAttempt limit).site.broker.poll ⟨"migrator-fix", "migrator_inconsistent", 0⟩ =
        .message message ⟨"migrator-fix", "migrator_inconsistent", 1⟩ := rfl
  have h (limit : Nat) := attempt_spec (m := sampleAttempt limit) ⟨rfl, rfl, rfl⟩ rfl rfl rfl rfl
    (hpoll limit) (Report.decode?_encode (by decide))
    (fun side => by cases side <;> exact fun _ => rfl) (fun _ _ => rfl)
  constructor
  · obtain ⟨m', hleads, hiff, -⟩ := h 5
    exact ⟨m', hleads, hiff.mpr ⟨⟨rfl, rfl⟩, by decide⟩⟩
  · obtain ⟨m', hleads, hiff, -⟩ := h 4
    exact ⟨m', hleads, fun hs => absurd (hiff.mp hs).2 (by decide)⟩

end Migration

end Cutover
