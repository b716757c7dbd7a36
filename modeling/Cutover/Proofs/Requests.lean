import Cutover.Proofs.Histories
import Cutover.Control.Surface

/-!
# Requests and orders

The control surface does nothing by itself: a request that is answered with success carries out the
order of its route (`Control.Request.operation?`), and any other request leaves everything as it is.
What the tasks do in the meantime changes neither the policy nor what the scheduler knows of its
jobs, apart from how far they have come (`Scheduler.atStart`). Main statement: after any requests,
whatever else happens between them, the policy and the jobs are those that the orders alone would
have left (`Migration.surface_refines`).
-/

namespace Cutover

variable {ρ : Type}

/-! ## What a request asks for -/

namespace Control

/-- The order that a `POST` on a route is for, with what the body says. -/
def Route.operation? (body : Bytes) : Route → Option Order
  | policy p => some (.route p)
  | start .full => some .startFull
  | start .incremental =>
    match StartBody.record.read body with
    | .ok (b, _) => some (.startIncremental b.since b.pause.toNat)
    | .error _ => none
  | stop kind => some (.stop kind)
  | status => none

namespace Request

/-- The route of a request that may ask for an order. -/
def orderRoute? (r : Request) : Option Route :=
  (Route.ofPath? (pathOf r.target)).filter fun route => route != .status && r.method == "POST"

/-- The order that a request is for. -/
def operation? (r : Request) : Option Order := r.orderRoute?.bind (Route.operation? r.body)

variable {r : Request}

theorem startIncremental_cases (r : Request) :
    (∃ refusal, r.startIncremental = .refused refusal) ∨ ∃ o done,
      r.startIncremental = .order o done ∧
        (Route.start .incremental).operation? r.body = some o := by
  unfold startIncremental
  split
  · split
    · exact .inl ⟨_, rfl⟩
    · split
      · exact .inl ⟨_, rfl⟩
      · next b _ hbody =>
        split
        · exact .inl ⟨_, rfl⟩
        · exact .inr ⟨_, _, rfl, by rw [Route.operation?, hbody]⟩
  · exact .inl ⟨_, rfl⟩

/-- A request on a route for orders is refused, or asks for the order that it is for. -/
theorem ask_of_orderRoute {route : Route} (h : r.orderRoute? = some route) :
    (∃ refusal, r.ask = .refused refusal) ∨ ∃ o done, r.ask = .order o done ∧
    r.operation? = some o := by
  have hoperation : r.operation? = route.operation? r.body := by rw [operation?, h]; rfl
  obtain ⟨hpath, hroute⟩ := Option.filter_eq_some_iff.mp h
  obtain ⟨hstatus, hmethod⟩ : route ≠ .status ∧ r.method = "POST" := by simpa using hroute
  have hallows : route.allows r.method = true := by
    cases route <;> simp_all [Route.allows]
  rw [hoperation, ask, hpath]
  simp only [hallows, if_true]
  cases route with
  | policy | stop => exact .inr ⟨_, _, rfl, rfl⟩
  | status => exact absurd rfl hstatus
  | start kind =>
    cases kind with
    | full => exact .inr ⟨_, _, rfl, rfl⟩
    | incremental => exact r.startIncremental_cases

/-- Any other request asks for no order. -/
theorem ask_of_no_orderRoute (h : r.orderRoute? = none) :
    r.ask = .unknown ∨ r.ask = .wrongMethod ∨ r.ask = .status := by
  unfold ask
  cases hpath : Route.ofPath? (pathOf r.target) with
  | none => exact .inl rfl
  | some route =>
    refine .inr ?_
    simp only [orderRoute?, hpath, Option.filter_some] at h
    by_cases hallows : route.allows r.method = true
    · cases route with
      | status => exact .inr (by simp [hallows])
      | policy | start | stop => simp_all [Route.allows]
    · exact .inl (by simp [hallows])

end Request

end Control

namespace Migration

open Control

variable [Entity ρ] {r : Request}

/-- A request on a route for orders: it is answered with success and its order is carried out, or it
changes nothing. The answer repeats the status. -/
theorem respond_of_orderRoute {route : Route} (m : Migration ρ) (h : r.orderRoute? = some route) :
    (∃ a, (m.respond r).1.body = .answer a ∧ a.code = (m.respond r).1.status) ∧
      ((m.respond r).1.status = Answer.okCode → ∃ o job, r.operation? = some o ∧
        m.obey o = .ok (job, (m.respond r).2)) := by
  unfold respond
  rcases Request.ask_of_orderRoute h with ⟨refusal, hask⟩ | ⟨o, done, hask, hoperation⟩
  · rw [hask]
    exact ⟨⟨_, rfl, rfl⟩, fun hok => absurd hok refusal.code_ne_okCode⟩
  · rw [hask]
    dsimp only
    cases hobey : m.obey o with
    | error e => exact ⟨⟨_, rfl, rfl⟩, fun hok => absurd hok (Refusal.code_ne_okCode _)⟩
    | ok x =>
      refine ⟨?_, fun _ => ⟨o, x.1, hoperation, hobey⟩⟩
      cases o <;> exact ⟨_, rfl, rfl⟩

theorem respond_of_no_orderRoute (m : Migration ρ) (h : r.orderRoute? = none) :
    (m.respond r).2 = m := by
  unfold respond
  rcases Request.ask_of_no_orderRoute h with hask | hask | hask <;> rw [hask]

end Migration

/-! ## What the scheduler knows of its jobs -/

/-- The job as it was when it was started, except that it may have been asked to stop. -/
def Job.atStart (j : Job ρ) : Job ρ := { j with scan := { plan := j.scan.plan } }

namespace Scheduler

variable {s : Scheduler ρ}

/-- The scheduler before any of its jobs has moved. -/
def atStart (s : Scheduler ρ) : Scheduler ρ := { s with jobs := s.jobs.map Job.atStart }

@[simp] theorem current_atStart (s : Scheduler ρ) (kind : JobKind) :
    s.atStart.current kind = s.current kind := by cases kind <;> rfl

theorem atStart_stopJob (s : Scheduler ρ) (n : Nat) :
    (s.stopJob n).atStart = s.atStart.stopJob n := by
  simp only [atStart, stopJob, mk.injEq, and_true]
  apply List.ext_getElem?
  intro i
  rw [List.getElem?_map, List.getElem?_modify, List.getElem?_modify, List.getElem?_map]
  cases s.jobs[i]? with
  | none => rfl
  | some j =>
    by_cases hi : n = i
    · simp [hi, Job.stop, Job.atStart]
    · simp [hi]

theorem atStart_stopCurrent (s : Scheduler ρ) (kind : JobKind) :
    (s.stopCurrent kind).atStart = s.atStart.stopCurrent kind := by
  unfold stopCurrent
  rw [current_atStart]
  cases s.current kind with
  | none => rfl
  | some n => exact s.atStart_stopJob n

theorem atStart_launch (config : Config) (s : Scheduler ρ) (kind : JobKind) (plan : Scan.Plan) :
    (s.launch config kind plan).atStart = s.atStart.launch config kind plan := by
  have hjobs : (s.stopCurrent kind).jobs.map Job.atStart = (s.atStart.stopCurrent kind).jobs := by
    rw [← atStart_stopCurrent]
    rfl
  unfold launch
  rw [current_atStart, ← hjobs]
  cases kind <;> simp [atStart, setCurrent, Job.atStart]

/-- What an order does has nothing to do with how far the jobs have come. -/
theorem run_atStart (config : Config) (policy : Policy) (s : Scheduler ρ) (o : Order) :
    s.atStart.run config policy o =
      (s.run config policy o).map fun (job, policy, s) => (job, policy, s.atStart) := by
  have hlength : s.atStart.jobs.length = s.jobs.length := List.length_map ..
  cases o with
  | route p => rfl
  | startFull => simp only [run, atStart_launch, hlength, Except.map]
  | startIncremental since poll =>
    simp only [run]
    cases Scan.Mode.every poll with
    | error e => rfl
    | ok mode => simp only [Except.map, atStart_launch, hlength]
  | stop kind => simp only [run, atStart_stopCurrent, current_atStart, Except.map]

theorem atStart_set {n : Nat} {j : Job ρ} (hj : s.jobs[n]? = some j) (p : Scan.Pass ρ)
    (way : Scan.Way) :
    ({ s with jobs := s.jobs.set n { j with scan := j.scan.setPass p way } } :
      Scheduler ρ).atStart = s.atStart := by
  simp only [atStart, mk.injEq, and_true, List.map_set]
  apply List.ext_getElem?
  intro i
  rw [List.getElem?_set]
  split
  · next hi =>
    subst hi
    obtain ⟨hlt, rfl⟩ := List.getElem?_eq_some_iff.mp hj
    simp [hlt, Job.atStart]
  · rfl

end Scheduler

/-! ## Migrations alike to the control surface -/

namespace Migration

open Control

variable [Entity ρ] {m m' m'' : Migration ρ}

/-- Two migrations with the same policy and the same jobs, which may have come differently far. -/
structure Tallies (m m' : Migration ρ) : Prop where
  config : m'.config = m.config
  policy : m'.site.policy = m.site.policy
  scheduler : m'.scheduler.atStart = m.scheduler.atStart

theorem Tallies.refl (m : Migration ρ) : m.Tallies m := ⟨rfl, rfl, rfl⟩

theorem Tallies.trans (h : m.Tallies m') (h' : m'.Tallies m'') : m.Tallies m'' :=
  ⟨h'.config.trans h.config, h'.policy.trans h.policy, h'.scheduler.trans h.scheduler⟩

theorem perform_order_eq (m : Migration ρ) (o : Order) :
    m.perform (.order o) =
      match m.config.validate, m.scheduler.run m.config m.site.policy o with
      | .ok _, .ok (_, policy, scheduler) => { m with site := { m.site with policy }, scheduler }
      | _, _ => m := by
  simp only [perform, obey]
  cases m.config.validate with
  | error e => rfl
  | ok _ => cases m.scheduler.run m.config m.site.policy o <;> rfl

/-- An order does the same to both. -/
theorem Tallies.order (h : m.Tallies m') (o : Order) :
    (m.perform (.order o)).Tallies (m'.perform (.order o)) := by
  have hrun : (m.scheduler.run m.config m.site.policy o).map
        (fun (job, policy, s) => (job, policy, s.atStart)) =
      (m'.scheduler.run m'.config m'.site.policy o).map
        (fun (job, policy, s) => (job, policy, s.atStart)) := by
    rw [← Scheduler.run_atStart, ← Scheduler.run_atStart, h.scheduler, h.config, h.policy]
  have hvalid : m'.config.validate = m.config.validate := by rw [h.config]
  rw [perform_order_eq, perform_order_eq, hvalid]
  cases m.config.validate with
  | error e => exact h
  | ok _ =>
    generalize m.scheduler.run m.config m.site.policy o = x at hrun
    generalize m'.scheduler.run m'.config m'.site.policy o = x' at hrun
    cases x with
    | error e =>
      cases x' with
      | error e' => exact h
      | ok x' => cases hrun
    | ok x =>
      cases x' with
      | error e' => cases hrun
      | ok x' =>
        obtain ⟨-, hpolicy, hscheduler⟩ := by simpa [Except.map] using hrun
        exact ⟨h.config, hpolicy.symm, hscheduler.symm⟩

theorem tallies_turn (m : Migration ρ) (t : Turn) : m.Tallies (m.perform (.turn t)) := by
  rcases m.perform_turn t with heq | ⟨m', heq, hmoved⟩
  · rw [heq]
    exact .refl m
  · rw [heq]
    cases hmoved with
    | job hj _ _ hp => exact ⟨rfl, hp.policy, Scheduler.atStart_set hj _ _⟩
    | consumer _ hmove => exact ⟨rfl, hmove.policy, rfl⟩
    | run _ hp => exact ⟨rfl, hp.policy, rfl⟩
    | post _ hp => exact ⟨rfl, Deployment.frames_policy.post hp, rfl⟩

end Migration

/-- Whether somebody gives an order or stops a job, without a request. -/
def Happening.IsControl [Entity ρ] : Happening ρ → Prop
  | .order _ | .stopJob _ => True
  | _ => False

namespace Migration

open Control

variable [Entity ρ] {m m' m'' : Migration ρ}

/-- Whatever else happens changes neither the policy nor the jobs, apart from how far they have
come. -/
theorem tallies_perform (m : Migration ρ) {x : Happening ρ} (hx : ¬ x.IsControl) :
    m.Tallies (m.perform x) := by
  cases x with
  | turn t => exact m.tallies_turn t
  | order | stopJob => exact absurd trivial hx
  | join handler group topic limit backoff stopped =>
    obtain ⟨b, -, heq | heq⟩ := m.startConsumer_cases handler group topic limit backoff stopped
    · rw [perform, heq]
      exact ⟨rfl, rfl, rfl⟩
    · rw [perform, heq]
      exact ⟨rfl, rfl, rfl⟩
  | plan side faults => exact ⟨rfl, Deployment.policy_setStore .., rfl⟩
  | edit side store => exact ⟨rfl, Deployment.policy_setStore .., rfl⟩
  | time | stop | abort | startRun | stopRun | post | planBroker | close => exact ⟨rfl, rfl, rfl⟩

end Migration

/-! ## A migration that is asked -/

/-- What comes to a migration with a control surface: a request, or something that happens. -/
inductive Arrival (ρ : Type) [Entity ρ] where
  | request (r : Control.Request)
  | meanwhile (x : Happening ρ)

namespace Migration

open Control

variable [Entity ρ] {m m' : Migration ρ}

def take (m : Migration ρ) : Arrival ρ → Migration ρ
  | .request r => (m.respond r).2
  | .meanwhile x => m.perform x

/-- The migration after it has been asked and things have happened. -/
def serve (m : Migration ρ) (arrivals : List (Arrival ρ)) : Migration ρ :=
  arrivals.foldl take m

/-- The order that is carried out for a request: that of its route, if the request is answered with
success. -/
def carriedOut (m : Migration ρ) (r : Request) : Option Order :=
  if (m.respond r).1.status = Answer.okCode then r.operation? else none

/-- The orders that are carried out for requests, in their order. -/
def operations (m : Migration ρ) : List (Arrival ρ) → List Order
  | [] => []
  | .request r :: rest => (m.carriedOut r).toList ++ (m.respond r).2.operations rest
  | .meanwhile x :: rest => (m.perform x).operations rest

/-- A response carries out the order that it stands for, and does nothing else. -/
theorem respond_eq (m : Migration ρ) (r : Request) :
    (m.respond r).2 = m.after ((m.carriedOut r).toList.map .order) := by
  unfold carriedOut
  by_cases hok : (m.respond r).1.status = Answer.okCode
  · rw [if_pos hok]
    cases hroute : r.orderRoute? with
    | none =>
      rw [respond_of_no_orderRoute m hroute, Request.operation?, hroute]
      rfl
    | some route =>
      obtain ⟨o, job, hoperation, hobey⟩ := (respond_of_orderRoute m hroute).2 hok
      rw [hoperation]
      change (m.respond r).2 = m.perform (.order o)
      rw [perform, hobey]
  · rw [if_neg hok, respond_unchanged hok]
    rfl

theorem Tallies.after (h : m.Tallies m') (orders : List Order) :
    (m.after (orders.map .order)).Tallies (m'.after (orders.map .order)) := by
  induction orders generalizing m m' with
  | nil => exact h
  | cons o rest ih => exact ih (h.order o)

/-- Requests and what happens in between leave what the orders alone would have left. -/
theorem Tallies.serve (h : m.Tallies m') {arrivals : List (Arrival ρ)}
    (hcontrol : ∀ x, .meanwhile x ∈ arrivals → ¬ x.IsControl) :
    (m.after ((m'.operations arrivals).map .order)).Tallies (m'.serve arrivals) := by
  induction arrivals generalizing m m' with
  | nil => exact h
  | cons a rest ih =>
    have hrest : ∀ x, .meanwhile x ∈ rest → ¬ x.IsControl :=
      fun x hx => hcontrol x (List.mem_cons_of_mem _ hx)
    cases a with
    | request r =>
      have hnow : (m.after ((m'.carriedOut r).toList.map .order)).Tallies (m'.respond r).2 := by
        rw [respond_eq]
        exact h.after _
      rw [operations, List.map_append, after_append]
      exact ih hnow hrest
    | meanwhile x =>
      exact ih (h.trans (m'.tallies_perform (hcontrol x List.mem_cons_self))) hrest

/-- The control surface does what the orders do. -/
theorem surface_refines (m : Migration ρ) (arrivals : List (Arrival ρ))
    (hcontrol : ∀ x, .meanwhile x ∈ arrivals → ¬ x.IsControl) :
    let asked := m.serve arrivals
    let ordered := m.after ((m.operations arrivals).map .order)
    (asked.site.policy = ordered.site.policy ∧
      (∀ kind, asked.scheduler.current kind = ordered.scheduler.current kind) ∧
      asked.scheduler.jobs.map (fun j => (j.kind, j.scan.plan, j.stopped)) =
        ordered.scheduler.jobs.map fun j => (j.kind, j.scan.plan, j.stopped)) ∧
    ∀ past r rest, arrivals = past ++ .request r :: rest →
      let before := m.serve past
      let (response, after) := before.respond r
      (response.status ≠ Answer.okCode → after = before) ∧
      (r.orderRoute?.isSome → (∃ a, response.body = .answer a ∧ a.code = response.status) ∧
        (response.status = Answer.okCode →
          ∃ o job, r.operation? = some o ∧ before.obey o = .ok (job, after))) := by
  intro asked ordered
  have h : ordered.Tallies asked := (Tallies.refl m).serve hcontrol
  refine ⟨⟨h.policy, fun kind => ?_, ?_⟩,
    fun past r rest _ => ⟨fun hstatus => ?_, fun hroute => ?_⟩⟩
  · simpa using congrArg (·.current kind) h.scheduler
  · have := congrArg (·.jobs.map fun j => (j.kind, j.scan.plan, j.stopped)) h.scheduler
    simpa [Scheduler.atStart, Job.atStart, Function.comp_def] using this
  · exact respond_unchanged hstatus
  · obtain ⟨route, hroute⟩ := Option.isSome_iff_exists.mp hroute
    exact respond_of_orderRoute _ hroute

/-- A request to start an incremental job. -/
def sampleStart (contentType : Option String) (body : String) : Arrival Account :=
  .request { method := "POST", target := "/incr/start", contentType, body := Bytes.ofText body }

/-- Requests of which three are answered with success and are on routes for orders. In between the
job that was started moves. -/
def sampleArrivals : List (Arrival Account) :=
  [.request { method := "POST", target := "/dst_first" },
    sampleStart (some "application/json") "\x7b\"update_time\":5,\"interval\":10\x7d",
    .meanwhile (.turn (.job 0 .baseToTarget)),
    sampleStart none "\x7b\"update_time\":6,\"interval\":10\x7d",
    sampleStart (some "application/json") "\x7b\"update_time\":6,\"interval_ms\":0\x7d",
    sampleStart (some "application/json") "\x7b\"update_time\":6,\"interval_ms\":-1\x7d",
    .meanwhile (.turn (.job 0 .baseToTarget)),
    .request { method := "GET", target := "/status" },
    .request { method := "POST", target := "/incr/stop?at=once" },
    .request { method := "GET", target := "/full/start" }]

theorem surface_refines_sample :
    let m : Migration Account := { site := .ofRows [] [] .srcOnly }
    let ordered := m.after ([Order.route .dstFirst, .startIncremental 5 10, .stop .incremental].map
      .order)
    ordered.scheduler.jobs.map (fun j => (j.kind, j.stopped)) = [(.incremental, true)] ∧
      (m.serve sampleArrivals).site.policy = ordered.site.policy ∧
      (m.serve sampleArrivals).scheduler.jobs.map (fun j => (j.kind, j.scan.plan, j.stopped)) =
        ordered.scheduler.jobs.map fun j => (j.kind, j.scan.plan, j.stopped) := by
  intro m ordered
  have hcontrol : ∀ x, .meanwhile x ∈ sampleArrivals → ¬ x.IsControl := by
    intro x hx
    simp [sampleArrivals, sampleStart] at hx
    rcases hx with rfl
    exact id
  have hoperations : m.operations sampleArrivals =
      [.route .dstFirst, .startIncremental 5 10, .stop .incremental] := by decide +kernel
  obtain ⟨⟨hpolicy, -, hjobs⟩, -⟩ := surface_refines m sampleArrivals hcontrol
  rw [hoperations] at hpolicy hjobs
  exact ⟨by decide +kernel, hpolicy, hjobs⟩

end Migration

end Cutover
