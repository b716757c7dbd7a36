import Cutover.Proofs.Agreement

/-!
# What passes do

Each move of a pass calls a store, has tried to publish a report, or does nothing that others see
(`Scan.Pass.act`). `Scan.Pass.Acted` names these cases for a pass whose calls to stores are answered
in time. Whatever becomes of its reports, such a pass fails only if it is told that one was
cancelled (`Scan.Pass.Acted.onTime`). Main statement: passes that are as far as one another, over
stores that agree on the calls of their direction, do the same and are again as far as one another
when both have moved (`Scan.Pass.Like.step`).
-/

namespace Cutover

variable {ρ : Type} [Entity ρ]

/-! ## What becomes of a message -/

/-- What a move makes of a broker and of a message that is to be published. -/
inductive Broker.Takes (b : Broker) (topic : String) (payload : Bytes) :
    Option Flight → Broker → Progress Unit → Prop where
  | begun {b' f} : b.Alike b' → Takes b topic payload none b' (.underway f)
  | taken {f} : Takes b topic payload (some f) (b.append topic payload) (.answered (.ok ()))
  | lost {f b' e} : b.Alike b' → Takes b topic payload (some f) b' (.answered (.error e))

theorem Broker.Takes.started {b b' : Broker} {topic : String} {payload : Bytes}
    {flight : Option Flight} {p : Progress Unit} (h : b.Takes topic payload flight b' p) :
    flight.isSome = false ∧ (∃ f, p = .underway f) ∨ flight.isSome = true ∧ ∃ r,
      p = .answered r := by
  cases h with
  | begun => exact .inl ⟨rfl, _, rfl⟩
  | taken | lost => exact .inr ⟨rfl, _, rfl⟩

theorem Deployment.takes_of_publish {d d' : Deployment ρ} {m : Moment} {limit : Option Nat}
    {topic : String}
    {payload : Bytes} {flight : Option Flight} {p : Progress Unit} (hstop : m.stopped = false)
    (h : d.publish m limit topic payload flight = some (d', p)) :
    ∃ b, d' = { d with broker := b } ∧ d.broker.Takes topic payload flight b p := by
  cases flight with
  | none =>
    simp only [publish, Flight.step, hstop, Bool.false_eq_true, if_false, Option.map_some,
      Option.some_inj] at h
    cases h
    exact ⟨_, rfl, .begun (Broker.alike_startPublish _)⟩
  | some f =>
    cases posted_of_publish h with
    | answered => exact ⟨_, rfl, .taken⟩
    | failed ha => exact ⟨_, rfl, .lost ha⟩

namespace Scan

/-- What a move of a pass does for others to see. -/
inductive Act (ρ : Type) where
  /-- It calls a store. -/
  | asks (side : Side) (c : Call ρ)
  /-- It has tried to publish a report. -/
  | reports (r : Report) (outcome : Except Error Unit)
  /-- It has been answered, or waits for something else. -/
  | goesOn
  deriving DecidableEq

namespace Act

/-- What would have been done if the broker had published what it was given. -/
def planned : Act ρ → Act ρ
  | reports r _ => reports r (.ok ())
  | a => a

def call? : Act ρ → Option (Side × Call ρ)
  | asks side c => some (side, c)
  | _ => none

/-- The report that was tried to publish. -/
def report? : Act ρ → Option Report
  | reports r _ => some r
  | _ => none

/-- The report that was published. -/
def published? : Act ρ → Option Report
  | reports r (.ok ()) => some r
  | _ => none

/-- Whether a report was refused with a word of cancellation. -/
def IsCancelled (a : Act ρ) : Prop := ∃ r, a = reports r (.error .cancelled)

instance : DecidablePred (IsCancelled : Act ρ → Prop)
  | reports r outcome => decidable_of_iff (outcome = .error .cancelled) (by simp [IsCancelled])
  | asks _ _ | goesOn => isFalse (by simp [IsCancelled])

end Act

namespace Pass

/-- What the next move of a pass does. -/
def act (plan : Plan) (m : Moment) (d : Deployment ρ) (p : Pass ρ) : Act ρ :=
  match p.phase, p.flight with
  | .reading, none => .asks (p.pageSide plan) (.findPage (p.pageQuery plan))
  | .comparing _ page, none =>
    match p.way with
    | .baseToTarget => .asks plan.target (.findByIds (page.map Entity.id))
    | .targetToBase => .asks plan.base (.findIds (page.map Entity.id))
  | .reporting _ id kind _, some f =>
    match d.publish m (some plan.callLimit) plan.topic (plan.report id kind).encode (some f) with
    | some (_, .answered outcome) => .reports (plan.report id kind) outcome
    | _ => .goesOn
  | _, _ => .goesOn

/-- Whether a pass gets on with a call. It gets on with whatever becomes of a report. -/
def Awaits (p : Pass ρ) (f : Flight) : Prop :=
  match p.phase with
  | .reading | .comparing _ _ => f.Mild
  | .pausing => f.Prompt
  | .reporting _ _ _ _ | .done _ => True

/-- A pass that has not failed but by a word of cancellation, and whose calls to stores are answered
in time. -/
structure OnTime (p : Pass ρ) : Prop where
  flight : ∀ f ∈ p.flight, p.Awaits f
  failed : ∀ e, p.phase = .done (.error e) → e = .cancelled

/-- What a move makes of a deployment and of a pass whose calls to stores are answered in time. -/
inductive Acted (plan : Plan) (d : Deployment ρ) (p : Pass ρ) :
    Act ρ → Deployment ρ → Pass ρ → Prop where
  | asked {side c answer s f} : p.Asks plan side c answer → p.flight = none →
      (d.store side).Served c none s (.underway f) →
      Acted plan d p (.asks side c) (d.setStore s side) { p with flight := some f }
  | answered {side c answer s f r} : p.Asks plan side c answer → p.flight = some f →
      (d.store side).Served c (some f) s (.answered r) →
      Acted plan d p .goesOn (d.setStore s side) (answer r)
  | posted {fetched id kind rest b f} : p.phase = .reporting fetched id kind rest →
      p.flight = none →
      d.broker.Takes plan.topic (plan.report id kind).encode none b (.underway f) →
      Acted plan d p .goesOn { d with broker := b } { p with flight := some f }
  | reported {fetched id kind rest b f r} : p.phase = .reporting fetched id kind rest →
      p.flight = some f →
      d.broker.Takes plan.topic (plan.report id kind).encode (some f) b (.answered r) →
      Acted plan d p (.reports (plan.report id kind) r) { d with broker := b }
        (p.afterReport plan fetched rest r)
  | paused {f} : p.phase = .pausing → p.flight = none → f.Prompt →
      Acted plan d p .goesOn d { p with flight := some f }
  | rested {f} : p.phase = .pausing → p.flight = some f →
      Acted plan d p .goesOn d (p.afterPause (.ok ()))

variable {plan : Plan} {m : Moment} {d d' : Deployment ρ} {p p' q : Pass ρ}

theorem Asks.act {side : Side} {c : Call ρ} {answer : Except Error c.Answer → Pass ρ}
    (h : p.Asks plan side c answer) (m : Moment) (d : Deployment ρ) :
    p.act plan m d = if p.flight.isNone then .asks side c else .goesOn := by
  unfold Pass.act
  cases hfl : p.flight with
  | none =>
    cases h with
    | page hph => simp [hph]
    | rows hph hway | ids hph hway => simp [hph, hway]
  | some f =>
    cases h with
    | page hph => simp [hph]
    | rows hph | ids hph => simp [hph]

theorem OnTime.mild (hp : p.OnTime) {side : Side} {c : Call ρ}
    {answer : Except Error c.Answer → Pass ρ}
    (h : p.Asks plan side c answer) : ∀ f ∈ p.flight, f.Mild := by
  intro f hf
  have hawaits := hp.flight f hf
  rcases h.phase with hph | ⟨fetched, page, hph⟩
  · rwa [Awaits, hph] at hawaits
  · rwa [Awaits, hph] at hawaits

theorem Asks.served {side : Side} {c : Call ρ} {answer : Except Error c.Answer → Pass ρ}
    (hasks : p.Asks plan side c answer) (hd : d.Regular plan.callLimit) (hp : p.OnTime)
    (hstop : m.stopped = false) (h : p.step plan m d = some (d', p')) :
    ∃ s progress, d' = d.setStore s side ∧ p' = p.after answer progress ∧
      (d.store side).Served c p.flight s progress := by
  rw [hasks.step] at h
  obtain ⟨⟨e, progress⟩, hc, heq⟩ := Option.map_eq_some_iff.mp h
  cases heq
  obtain ⟨s, rfl, hserved⟩ := hd.served hstop (hp.mild hasks) hc
  exact ⟨s, progress, rfl, rfl, hserved⟩

/-- What a move of a pass that reports makes of the broker and of the pass, and what it does. -/
theorem takes_of_step {fetched : Nat} {id : Int} {kind : Mismatch} {rest : List (Int × Mismatch)}
    (hph : p.phase = .reporting fetched id kind rest) (hstop : m.stopped = false)
    (h : p.step plan m d = some (d', p')) :
    ∃ b progress, d' = { d with broker := b } ∧
      p' = p.after (p.afterReport plan fetched rest) progress ∧
      d.broker.Takes plan.topic (plan.report id kind).encode p.flight b progress ∧
      p.act plan m d = match progress with
        | .answered r => .reports (plan.report id kind) r
        | .underway _ => .goesOn := by
  rw [step_reporting hph] at h
  obtain ⟨⟨e, progress⟩, hc, heq⟩ := Option.map_eq_some_iff.mp h
  cases heq
  obtain ⟨b, rfl, htakes⟩ := Deployment.takes_of_publish hstop hc
  refine ⟨b, progress, rfl, rfl, htakes, ?_⟩
  unfold Pass.act
  simp only [hph]
  generalize p.flight = flight at hc htakes
  cases htakes with
  | begun => rfl
  | taken | lost => simp only [hc]

/-- What a move of a pass that rests makes of it. -/
theorem rests_of_step (hph : p.phase = .pausing) (hp : p.OnTime) (hstop : m.stopped = false)
    (h : p.step plan m d = some (d', p')) :
    d' = d ∧ p.act plan m d = .goesOn ∧
      (p.flight = none ∧ (∃ f : Flight, f.Prompt ∧ p' = { p with flight := some f }) ∨
        p.flight.isSome ∧ p' = p.afterPause (.ok ())) := by
  rw [step_pausing hph] at h
  obtain ⟨progress, hc, heq⟩ := Option.map_eq_some_iff.mp h
  cases heq
  obtain ⟨⟨_, q⟩, hstep, rfl⟩ := Option.map_eq_some_iff.mp hc
  have hprompt (f : Flight) (hf : f ∈ p.flight) : f.Prompt := by
    have hawaits := hp.flight f hf
    rwa [Awaits, hph] at hawaits
  refine ⟨rfl, by simp only [Pass.act, hph], ?_⟩
  generalize p.flight = flight at hstep hprompt
  cases Flight.moved_of_step hstep with
  | stopped hstopped =>
    rw [hstop] at hstopped
    cases hstopped
  | started =>
    refine .inl ⟨rfl, _, ⟨rfl, fun t ht => ?_⟩, rfl⟩
    cases ht
  | @refused f e _ _ hf =>
    rw [(hprompt f rfl).1] at hf
    cases hf
  | late _ hr hdue =>
    rw [(hprompt _ rfl).not_late hr] at hdue
    cases hdue
  | finished => exact .inr ⟨rfl, rfl⟩

theorem acted_of_step (hd : d.Regular plan.callLimit) (hp : p.OnTime) (hstop : m.stopped = false)
    (h : p.step plan m d = some (d', p')) : p.Acted plan d (p.act plan m d) d' p' := by
  rcases p.asks_cases plan with ⟨side, c, answer, hasks⟩ | ⟨fetched, id, kind, rest, hph⟩ | hph |
    ⟨r, hph⟩
  · obtain ⟨s, progress, rfl, rfl, hserved⟩ := hasks.served hd hp hstop h
    rw [hasks.act]
    generalize hfl : p.flight = flight at hserved
    cases hserved with
    | begun hf hr => exact .asked hasks hfl (.begun hf hr)
    | refused hf => exact .answered hasks hfl (.refused hf)
    | finished hf => exact .answered hasks hfl (.finished hf)
  · obtain ⟨b, progress, rfl, rfl, htakes, hact⟩ := takes_of_step hph hstop h
    rw [hact]
    generalize hfl : p.flight = flight at htakes
    cases htakes with
    | begun ha => exact .posted hph hfl (.begun ha)
    | taken => exact .reported hph hfl .taken
    | lost ha => exact .reported hph hfl (.lost ha)
  · obtain ⟨rfl, hact, ⟨hfl, f, hf, rfl⟩ | ⟨hfl, rfl⟩⟩ := rests_of_step hph hp hstop h
    · exact hact ▸ .paused hph hfl hf
    · obtain ⟨f, hfl⟩ := Option.isSome_iff_exists.mp hfl
      exact hact ▸ .rested hph hfl
  · rw [step_done hph] at h
    cases h

section Acted

variable {a : Act ρ}

theorem Acted.regular (h : p.Acted plan d a d' p') (hd : d.Regular plan.callLimit) :
    d'.Regular plan.callLimit := by
  cases h with
  | asked _ _ hs | answered _ _ hs => exact hd.setStore (hs.regular (hd _)) _
  | posted | reported => exact hd.withBroker _
  | paused | rested => exact hd

/-- What a direction does does not show in the calls of the other one. -/
theorem Acted.agreeOn (h : p.Acted plan d a d' p') (hd : d.Regular plan.callLimit) {other : Way}
    (hother : other ≠ p.way) : plan.AgreeOn other d d' := by
  have hserved {side : Side} {c : Call ρ} {answer : Except Error c.Answer → Pass ρ} {s : Store ρ}
      {progress : Progress c.Answer} (hasks : p.Asks plan side c answer)
      (hs : (d.store side).Served c p.flight s progress) :
      plan.AgreeOn other d (d.setStore s side) := by
    intro x
    rw [Deployment.store_setStore]
    split
    · next hx =>
      subst hx
      exact hs.agreeOn (hd x) (hasks.op ▸ Way.op_ne hother x) (hasks.read _)
    · exact .refl ..
  cases h with
  | asked hasks hfl hs | answered hasks hfl hs => exact hserved hasks (hfl ▸ hs)
  | posted | reported => exact (Plan.AgreeOn.refl plan other d).withBroker _
  | paused | rested => exact Plan.AgreeOn.refl plan other d

omit [Entity ρ] in
theorem Bears.onTime (h : p.Bears) : p.OnTime := by
  refine ⟨fun f hf => ?_, fun e he => absurd he (h.unfailed e)⟩
  have hcopes := h.flight f hf
  unfold Copes at hcopes
  unfold Awaits
  cases hph : p.phase with
  | reading | comparing | pausing => rwa [hph] at hcopes
  | reporting | done => trivial

omit [Entity ρ] in
theorem OnTime.withFlight (h : p.OnTime) {f : Flight} (hf : p.Awaits f) :
    ({ p with flight := some f } : Pass ρ).OnTime := by
  refine ⟨fun g hg => ?_, h.failed⟩
  cases hg
  exact hf

/-- A pass whose report was not published goes on, or was told that it was cancelled. -/
theorem Acted.onTime (h : p.Acted plan d a d' p') (hd : d.Regular plan.callLimit) (hp : p.OnTime) :
    p'.OnTime := by
  cases h with
  | asked hasks _ hs =>
    refine hp.withFlight ?_
    cases hs with
    | begun hf =>
      unfold Awaits
      rcases hasks.phase with hph | ⟨fetched, page, hph⟩
      · rwa [hph]
      · rwa [hph]
  | answered hasks hfl hs =>
    refine (hasks.bears fun e he => ?_).onTime
    exact hs.isCancellation (hd _) (hfl ▸ hp.mild hasks) (congrArg _ he)
  | posted hph => exact hp.withFlight (by rw [Awaits, hph]; trivial)
  | reported =>
    unfold afterReport
    split
    · refine ⟨by simp [enter], fun e he => ?_⟩
      cases he
      rfl
    · exact (bears_reportAll ..).onTime
  | paused hph _ hf => exact hp.withFlight (by rwa [Awaits, hph])
  | rested => exact (bears_enter p (by simp)).onTime

/-- A pass that is told that its report was cancelled fails. -/
theorem Acted.failed (h : p.Acted plan d a d' p') (ha : a.IsCancelled) :
    p'.result? = some (.error .cancelled) := by
  obtain ⟨r, rfl⟩ := ha
  cases h with
  | reported => rfl

end Acted

/-- A direction publishes what it has to report, or nothing. -/
theorem Acted.log {a : Act ρ} (h : p.Acted plan d a d' p') {way : Way}
    (hcarries : p.Carries (fun _ => True) fun x => x.2.way = way) :
    a.published? = none ∧ d'.broker.log plan.topic = d.broker.log plan.topic ∨
      ∃ id kind, kind.way = way ∧ a.published? = some (plan.report id kind) ∧
        d'.broker.log plan.topic = d.broker.log plan.topic ++ [(plan.report id kind).encode] := by
  cases h with
  | asked | answered => exact .inl ⟨rfl, by rw [Deployment.broker_setStore]⟩
  | posted _ _ hb =>
    cases hb with
    | begun ha => exact .inl ⟨rfl, ha.log _⟩
  | reported hph _ hb =>
    rw [Carries, hph] at hcarries
    cases hb with
    | taken => exact .inr ⟨_, _, hcarries.1, rfl, (Broker.log_append ..).trans (if_pos rfl)⟩
    | lost ha => exact .inl ⟨rfl, ha.log _⟩
  | paused | rested => exact .inl ⟨rfl, rfl⟩

/-- A pass whose call is under way does not make another one. -/
theorem call?_act_of_flight {f : Flight} (hfl : p.flight = some f) (plan : Plan) (m : Moment)
    (d : Deployment ρ) : (p.act plan m d).call? = none := by
  unfold Pass.act
  rw [hfl]
  cases p.phase with
  | reading | comparing | pausing | done => rfl
  | reporting =>
    dsimp only
    split <;> rfl

/-- A pass that has no call under way begins one. -/
theorem begun_of_step (hstop : m.stopped = false) (hfl : p.flight = none)
    (h : p.step plan m d = some (d', p')) : ∃ f, p' = { p with flight := some f } := by
  rcases p.asks_cases plan with ⟨side, c, answer, hasks⟩ | ⟨fetched, id, kind, rest, hph⟩ | hph |
    ⟨r, hph⟩
  · rw [hasks.step, hfl] at h
    simp only [Deployment.call, Flight.step, hstop, Bool.false_eq_true, if_false, Option.map_some,
      Option.some_inj, Prod.mk.injEq] at h
    exact ⟨_, h.2.symm⟩
  · obtain ⟨b, progress, -, rfl, htakes, -⟩ := takes_of_step hph hstop h
    rcases htakes.started with ⟨-, f, rfl⟩ | ⟨hsome, -⟩
    · exact ⟨f, rfl⟩
    · simp [hfl] at hsome
  · rw [step_pausing hph, hfl] at h
    simp only [Flight.pause, Flight.step, hstop, Bool.false_eq_true, if_false, Option.map_some,
      Option.some_inj, Prod.mk.injEq] at h
    exact ⟨_, h.2.symm⟩
  · rw [step_done hph] at h
    cases h

/-- A store has seen what a direction calls it for, and nothing else. -/
theorem history_of_step (hstop : m.stopped = false) (h : p.step plan m d = some (d', p'))
    (side : Side) :
    (d'.store side).history =
        (d.store side).history ++
          ((p.act plan m d).call?.toList.filter (·.1 = side)).map Prod.snd ∧
      ∀ x ∈ (p.act plan m d).call?, x.2.op = p.way.op plan x.1 := by
  rcases p.asks_cases plan with ⟨other, c, answer, hasks⟩ | ⟨fetched, id, kind, rest, hph⟩ | hph |
    ⟨r, hph⟩
  · rw [hasks.step] at h
    rw [hasks.act]
    obtain ⟨⟨e, progress⟩, hc, heq⟩ := Option.map_eq_some_iff.mp h
    cases heq
    obtain ⟨⟨s, q⟩, hstep, heq⟩ := Option.map_eq_some_iff.mp hc
    cases heq
    have hlog : s.log =
        if p.flight.isNone then c :: (d.store other).log else (d.store other).log := by
      generalize p.flight = flight at hstep
      cases Flight.moved_of_step hstep with
      | stopped hstopped =>
        rw [hstop] at hstopped
        cases hstopped
      | started => exact Store.log_start ..
      | refused | late => rfl
      | finished => exact Store.log_finish ..
    rw [Deployment.store_setStore]
    cases hfl : p.flight with
    | none =>
      rw [hfl] at hlog
      refine ⟨?_, fun x hx => ?_⟩
      · split
        · next hside =>
          subst hside
          simp [Act.call?, Store.history, hlog]
        · next hside => simp [Act.call?, Ne.symm hside]
      · cases hx
        exact hasks.op
    | some f =>
      rw [hfl] at hlog
      refine ⟨?_, by simp [Act.call?]⟩
      split
      · next hside =>
        subst hside
        simp [Act.call?, Store.history, hlog]
      · simp [Act.call?]
  · obtain ⟨b, progress, rfl, -, -, hact⟩ := takes_of_step hph hstop h
    rw [hact]
    cases progress with
    | underway | answered => simp [Act.call?]
  · rw [step_pausing hph] at h
    obtain ⟨progress, -, heq⟩ := Option.map_eq_some_iff.mp h
    cases heq
    simp [Pass.act, hph, Act.call?]
  · rw [step_done hph] at h
    cases h

/-! ### Passes that are as far as one another -/

/-- Passes that differ only in when their calls were made, and in how a report is going to be
refused. -/
structure Like (plan : Plan) (p q : Pass ρ) : Prop where
  rest : q = { p with flight := q.flight }
  started : q.flight.isSome = p.flight.isSome
  refused : ∀ {side c answer}, p.Asks plan side c answer →
    q.flight.map Flight.refused = p.flight.map Flight.refused

theorem Like.refl (plan : Plan) (p : Pass ρ) : p.Like plan p := ⟨rfl, rfl, fun _ => rfl⟩

theorem Like.asks (h : p.Like plan q) {side : Side} {c : Call ρ}
    {answer : Except Error c.Answer → Pass ρ}
    (hasks : p.Asks plan side c answer) : q.Asks plan side c answer := by
  rw [h.rest]
  exact hasks.withFlight _

theorem Like.phase (h : p.Like plan q) : q.phase = p.phase := by rw [h.rest]

theorem Like.offset (h : p.Like plan q) : q.offset = p.offset := by rw [h.rest]

theorem Like.way (h : p.Like plan q) : q.way = p.way := by rw [h.rest]

omit [Entity ρ] in
theorem afterReport_of_not_isCancelled {r : Report} {outcome : Except Error Unit}
    (h : ¬ (Act.reports r outcome : Act ρ).IsCancelled) (plan : Plan) (p : Pass ρ) (fetched : Nat)
    (rest : List (Int × Mismatch)) :
    p.afterReport plan fetched rest outcome = p.reportAll plan fetched rest := by
  unfold afterReport
  split
  · exact absurd ⟨r, rfl⟩ h
  · rfl

/-- Calls that started for passes alike leave them alike. -/
theorem Like.underway (h : p.Like plan q) {f g : Flight}
    (hfg : ∀ {side c answer}, p.Asks plan side c answer → g.refused = f.refused) :
    ({ p with flight := some f } : Pass ρ).Like plan { q with flight := some g } := by
  refine ⟨by rw [h.rest], rfl, fun hasks => ?_⟩
  have := hfg (hasks.withFlight p.flight)
  simp [this]

/-- Passes alike that both move are alike again and have done the same, unless one of them is told
that its report was cancelled. -/
theorem Like.step (h : p.Like plan q) {e e' : Deployment ρ} {q' : Pass ρ} {m' : Moment}
    (hde : plan.AgreeOn p.way d e) (hd : d.Regular plan.callLimit) (he : e.Regular plan.callLimit)
    (hp : p.OnTime) (hq : q.OnTime) (hstop : m.stopped = false) (hstop' : m'.stopped = false)
    (hstep : p.step plan m d = some (d', p')) (hstep' : q.step plan m' e = some (e', q'))
    (hact : ¬ (p.act plan m d).IsCancelled) (hact' : ¬ (q.act plan m' e).IsCancelled) :
    p'.Like plan q' ∧ plan.AgreeOn p.way d' e' ∧
      (q.act plan m' e).planned = (p.act plan m d).planned := by
  rcases p.asks_cases plan with ⟨side, c, answer, hasks⟩ | ⟨fetched, id, kind, rest, hph⟩ | hph |
    ⟨r, hph⟩
  · -- both stores give the same answer, but not at the same time
    have hasks' := h.asks hasks
    obtain ⟨s, progress, rfl, rfl, hs⟩ := hasks.served hd hp hstop hstep
    obtain ⟨t, progress', rfl, rfl, ht⟩ := hasks'.served he hq hstop' hstep'
    obtain ⟨hst, hsame⟩ := hs.same ht (hasks.op ▸ hde side) (hd side) (he side) (h.refused hasks)
    refine ⟨?_, hde.setStore (hasks.op ▸ hst), ?_⟩
    · cases hsame with
      | underway hf => exact h.underway fun _ => hf
      | answered => exact .refl plan _
    · rw [hasks.act, hasks'.act, ← Option.not_isSome, ← Option.not_isSome, h.started]
  · -- the brokers may give different answers, but the passes drop them
    obtain ⟨b, progress, rfl, rfl, hb, heq⟩ := takes_of_step hph hstop hstep
    obtain ⟨b', progress', rfl, rfl, hb', heq'⟩ := takes_of_step (h.phase.trans hph) hstop' hstep'
    refine and_left_comm.mpr ⟨(hde.symm.withBroker b).symm.withBroker b', ?_⟩
    have hstarted := h.started
    rcases hb.started with ⟨hnone, f, rfl⟩ | ⟨hsome, r, rfl⟩
    · rcases hb'.started with ⟨-, f', rfl⟩ | ⟨hsome', -⟩
      · refine ⟨h.underway fun hasks => ?_, by rw [heq, heq']⟩
        simpa [hph] using hasks.phase
      · simp [hnone, hsome'] at hstarted
    · rcases hb'.started with ⟨hnone', -⟩ | ⟨-, r', rfl⟩
      · simp [hsome, hnone'] at hstarted
      · rw [heq] at hact
        rw [heq'] at hact'
        refine ⟨?_, by rw [heq, heq']; rfl⟩
        have hsame : q.reportAll plan fetched rest = p.reportAll plan fetched rest := by
          rw [h.rest, reportAll_withFlight]
        simp only [after, afterReport_of_not_isCancelled hact, afterReport_of_not_isCancelled hact',
          hsame]
        exact .refl plan _
  · obtain ⟨rfl, heq, hcases⟩ := rests_of_step hph hp hstop hstep
    obtain ⟨rfl, heq', hcases'⟩ := rests_of_step (h.phase.trans hph) hq hstop' hstep'
    refine ⟨?_, hde, by rw [heq, heq']⟩
    have hstarted := h.started
    rcases hcases with ⟨hnone, f, -, rfl⟩ | ⟨hsome, rfl⟩
    · rcases hcases' with ⟨-, f', -, rfl⟩ | ⟨hsome', -⟩
      · exact h.underway fun hasks => by simpa [hph] using hasks.phase
      · simp [hnone, hsome'] at hstarted
    · rcases hcases' with ⟨hnone', -⟩ | ⟨-, rfl⟩
      · simp [hsome, hnone'] at hstarted
      · rw [h.rest]
        exact .refl plan _
  · rw [step_done hph] at hstep
    cases hstep

/-- What the next move of a pass does, if it does not have to wait. -/
def act? (plan : Plan) (m : Moment) (d : Deployment ρ) (p : Pass ρ) : Option (Act ρ) :=
  (p.step plan m d).map fun _ => p.act plan m d

/-- The moment when the call that a pass waits for is answered. -/
def due (p : Pass ρ) : Moment := ⟨(p.flight.map Flight.ready).getD 0, false⟩

theorem way_of_step (h : p.step plan m d = some (d', p')) : p'.way = p.way := by
  have hcarries : p.Carries (fun _ => True) fun _ => True := by
    unfold Carries
    split
    · exact fun _ _ => trivial
    · exact ⟨trivial, fun _ _ => trivial⟩
    · trivial
  exact (hcarries.move (fun _ _ => trivial) (fun _ _ _ _ => trivial) (moved_of_step h)).1

theorem step_due_isSome (h : ∀ r, p.phase ≠ .done r) (plan : Plan) (d : Deployment ρ) :
    (p.step plan p.due d).isSome := by
  refine step_isSome h fun f hf => ?_
  obtain hf : p.flight = some f := hf
  simp [due, hf]

end Pass

end Scan

end Cutover
