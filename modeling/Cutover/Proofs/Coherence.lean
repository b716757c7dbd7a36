import Cutover.Proofs.Cancellation
import Cutover.Proofs.Evidence
import Cutover.Proofs.Wire

/-!
# Reports and repairs under one side

A report names a side, and the row that it is about is repaired from the store of that side. So the
side has to be the one that was the base of the comparison, whatever the routing policy was switched
to in the meantime. It is fixed once for each job, when it is started, and once for each message,
when its handling begins; what is published later rests on what the stores showed since, this side
as the base. Main statement: `Migration.coherent`.
-/

namespace Cutover.Migration

variable {ρ : Type} [Entity ρ]

/-- The log of a topic grows by a report, and the others stay. -/
def Publishes (m m' : Migration ρ) (topic : String) (r : Report) : Prop :=
  ∀ t, m'.site.broker.log t = m.site.broker.log t ++ if t = topic then [r.encode] else []

/-- What the stores show when a task takes its turn in the course of a history. -/
def Saw (m : Migration ρ) (t : Turn) (history : List (Happening ρ)) (side : Side) (id : Int)
    (row : Option ρ) : Prop :=
  m.Takes t (fun m _ => m.site.Shows side id row) history

/-- What the stores answer when a task takes its turn in the course of a history. -/
def Heard (m : Migration ρ) (t : Turn) (history : List (Happening ρ)) (side : Side) (id : Int)
    (row : Option ρ) : Prop :=
  m.Takes t (fun m _ => m.site.Tells side id row) history

variable {m m' : Migration ρ} {n : Nat} {before since : List (Happening ρ)}

theorem publishes_append {site : Deployment ρ} {topic : String} {r : Report}
    (h : site = { m.site with broker := m.site.broker.append topic r.encode })
    (hm : m'.site = site) :
    m.Publishes m' topic r := by
  intro t
  rw [hm, h, Broker.log_append]
  split
  · next heq => rw [heq]
  · rw [List.append_nil]

theorem after_cons (m : Migration ρ) (before : List (Happening ρ)) (h : Happening ρ)
    (since : List (Happening ρ)) :
    m.after (before ++ h :: since) = (m.after (before ++ [h])).after since := by
  rw [← after_append, List.append_assoc]
  rfl

/-! ## Jobs -/

/-- A job that was started by an order: its base is the side that served reads at that moment, and
what it has in hand rests on what it was shown since. -/
structure Started (m : Migration ρ) (n : Nat) (before : List (Happening ρ)) (o : Order)
    (since : List (Happening ρ)) (j : Job ρ) : Prop where
  launch : (m.after before).launch? (.order o) = some (j.kind, n)
  comparison : j.scan.plan.toComparison = .ofSide m.config (m.after before).site.policy.primary
  way : ∀ way, (j.scan.pass way).way = way
  rests : ∀ way, (j.scan.pass way).Rests
    ((m.after (before ++ [.order o])).Saw (.job n way) since) j.scan.plan

theorem Started.becomes {j j' : Job ρ} {o : Order} {h : Happening ρ}
    (hs : m.Started n before o since j)
    (hb : j.Becomes (m.after (before ++ .order o :: since)) n h j') :
    m.Started n before o (since ++ [h]) j' := by
  have rests (way : Scan.Way) := (hs.rests way).mono fun _ _ _ hsaw => hsaw.concat h
  cases hb with
  | kept | stopped => exact ⟨hs.launch, hs.comparison, hs.way, rests⟩
  | @moved way p _ _ hp =>
    rw [after_cons] at hp
    obtain ⟨hway, hp⟩ := (rests way).move (fun _ _ _ hshows => takes_last hshows) hp
    refine ⟨hs.launch, by rw [Scan.plan_setPass]; exact hs.comparison, fun other => ?_,
      fun other => ?_⟩
    · rw [Scan.pass_setPass]
      split
      · next heq => rw [hway, hs.way, heq]
      · exact hs.way other
    · rw [Scan.pass_setPass, Scan.plan_setPass]
      split
      · next heq => rwa [heq]
      · exact rests other

theorem started_of_job (hs : m.scheduler = {}) {history : List (Happening ρ)} {j : Job ρ}
    (hj : (m.after history).scheduler.jobs[n]? = some j) :
    ∃ before o since, history = before ++ .order o :: since ∧ m.Started n before o since j := by
  induction history using List.reverseRecOn generalizing j with
  | nil => simp [after, hs] at hj
  | append_singleton past h ih =>
    rw [after_concat] at hj
    cases hold : (m.after past).scheduler.jobs[n]? with
    | some i =>
      obtain ⟨before, o, since, rfl, hstarted⟩ := ih hold
      obtain ⟨j', hj', hb⟩ := job_perform h hold
      cases hj.symm.trans hj'
      exact ⟨before, o, since ++ [h], by simp, hstarted.becomes hb⟩
    | none =>
      have hnew := launched_of_new hold hj
      obtain ⟨o, rfl⟩ := hnew.order
      obtain ⟨from', mode, hscan⟩ := hnew.scan
      refine ⟨past, o, [], rfl, hnew.launch, ?_, fun way => ?_, fun way => ?_⟩
      · rw [hscan, config_after]
        rfl
      · rw [hscan]
        cases way <;> rfl
      · rw [hscan]
        cases way <;> trivial

/-- What a job publishes is a report under the side that was its base from the start, and rests on
what the stores showed since. -/
theorem job_publishes (hs : m.scheduler = {}) (history : List (Happening ρ)) (n : Nat)
    (way : Scan.Way) :
    let m' := (m.after history).perform (.turn (.job n way))
    (∀ t, m'.site.broker.log t = (m.after history).site.broker.log t) ∨
      ∃ before o since kind r, history = before ++ .order o :: since ∧
        (m.after before).launch? (.order o) = some (kind, n) ∧
        (m.after history).Publishes m' m.config.inconsistencyTopic r ∧
        r.base = (m.after before).site.policy.primary ∧
        Mismatch.RestsOn ((m.after (before ++ [.order o])).Saw (.job n way) since)
          r.base r.id r.kind := by
  intro m'
  rcases (m.after history).perform_turn (.job n way) with heq | ⟨_, heq, hmoved⟩
  · exact .inl fun t => by rw [show m' = _ from heq]
  · cases hmoved with
    | @job _ _ j site p hj _ _ hp =>
      have hsite : m'.site = site := by rw [show m' = _ from heq]
      obtain ⟨before, o, since, rfl, hstarted⟩ := started_of_job hs hj
      rcases (hstarted.rests way).publishes hp with ha | ⟨id, kind, hrests, happend⟩
      · exact .inl fun t => by rw [hsite, ha.broker.log]
      · refine .inr ⟨before, o, since, j.kind, j.scan.plan.report id kind, rfl, hstarted.launch, ?_⟩
        have hcomparison := hstarted.comparison
        have hbase : j.scan.plan.base = (m.after before).site.policy.primary := by
          rw [hcomparison]
          rfl
        have htag : j.scan.plan.tag = (m.after before).site.policy.primary := by
          rw [hcomparison]
          rfl
        have htopic : j.scan.plan.topic = m.config.inconsistencyTopic := by rw [hcomparison]; rfl
        rw [htopic] at happend
        rw [hbase] at hrests
        refine ⟨publishes_append happend hsite, htag, ?_⟩
        change Mismatch.RestsOn _ j.scan.plan.tag id kind
        rwa [htag]

/-! ## Consumers -/

/-- A consumer takes up a message when it takes its turn after a history, and from then on it is at
work on that message. -/
structure Handles (m : Migration ρ) (n : Nat) (handler : Handler) (message : Delivery)
    (before since : List (Happening ρ)) : Prop where
  takes : ∃ c subscription, (m.after before).consumers[n]? = some c ∧ c.handler = handler ∧
    c.phase = .waiting ∧
    (m.after before).site.broker.poll c.subscription = .message message subscription
  works : ∀ past rest, since = past ++ rest → ∃ c work due,
    (m.after (before ++ .turn (.consumer n) :: past)).consumers[n]? = some c ∧
      c.phase = .handling message work due

theorem Handles.concat {handler : Handler} {message : Delivery} {h : Happening ρ} {c : Consumer ρ}
    {work : Handling ρ} {due : Nat} (hh : m.Handles n handler message before since)
    (hc : (m.after (before ++ .turn (.consumer n) :: (since ++ [h]))).consumers[n]? = some c)
    (hph : c.phase = .handling message work due) :
    m.Handles n handler message before (since ++ [h]) := by
  refine ⟨hh.takes, fun past rest heq => ?_⟩
  rcases List.eq_nil_or_concat rest with rfl | ⟨rest, x, rfl⟩
  · rw [List.append_nil] at heq
    subst heq
    exact ⟨c, work, due, hc, hph⟩
  · rw [List.concat_eq_append, ← List.append_assoc] at heq
    exact hh.works past rest (List.append_inj_left' heq rfl)

/-- A consumer at work on a message that it took up after a history: what it does is what the
message asks for, with the side that served reads at that moment as the base of a check. -/
theorem handles_of_consumer (hc : m.consumers = []) {history : List (Happening ρ)} {c : Consumer ρ}
    {message : Delivery} {work : Handling ρ} {due : Nat}
    (hn : (m.after history).consumers[n]? = some c) (hph : c.phase = .handling message work due) :
    ∃ before since handler, history = before ++ .turn (.consumer n) :: since ∧
      m.Handles n handler message before since ∧
      work.Of handler message.payload (m.after before).site.policy.primary
        ((m.after (before ++ [.turn (.consumer n)])).Heard (.consumer n) since) := by
  induction history using List.reverseRecOn generalizing c work due with
  | nil => simp [after, hc] at hn
  | append_singleton past h ih =>
    have hn' := hn
    rw [after_concat] at hn
    rcases consumer_perform hn with ⟨c₀, hc₀, hkept | ⟨rfl, hmoved⟩⟩ | ⟨-, hasking⟩
    · obtain ⟨-, -, hphase | hphase⟩ := hkept
      · obtain ⟨before, since, handler, rfl, hh, hof⟩ := ih hc₀ (hphase ▸ hph)
        have hconcat : before ++ .turn (.consumer n) :: since ++ [h] =
            before ++ .turn (.consumer n) :: (since ++ [h]) := by simp
        rw [hconcat] at hn'
        exact ⟨before, since ++ [h], handler, hconcat, hh.concat hn' hph,
          hof.mono fun _ _ _ hheard => hheard.concat h⟩
      · rw [hph] at hphase
        cases hphase
    · generalize ((m.after past).perform (.turn (.consumer n))).site = site at hmoved
      cases hmoved with
      | ended | skipped | succeeded | failed => cases hph
      | idled _ _ hidle => exact absurd ⟨_, _, _, hph⟩ hidle
      | began hwaiting hpoll hbegin =>
        cases hph
        refine ⟨past, [], c₀.handler, rfl, ⟨⟨c₀, _, hc₀, rfl, hwaiting, hpoll⟩, ?_⟩,
          Handling.of_begin hbegin⟩
        intro past' rest heq
        obtain ⟨rfl, rfl⟩ := List.append_eq_nil_iff.mp heq.symm
        exact ⟨_, _, _, hn', rfl⟩
      | worked hwork _ hstep =>
        cases hph
        obtain ⟨before, since, handler, rfl, hh, hof⟩ := ih hc₀ hwork
        have hconcat : before ++ .turn (.consumer n) :: since ++ [.turn (.consumer n)] =
            before ++ .turn (.consumer n) :: (since ++ [.turn (.consumer n)]) := by simp
        rw [hconcat] at hn'
        refine ⟨before, _, handler, hconcat, hh.concat hn' rfl, ?_⟩
        rw [after_cons] at hstep
        exact (hof.mono fun _ _ _ hheard => hheard.concat _).move
          (fun _ _ _ htells => takes_last htells) hstep
    · rw [hph] at hasking
      cases hasking

theorem consumer_does (hc : m.consumers = []) (history : List (Happening ρ)) (n : Nat) :
    let m' := (m.after history).perform (.turn (.consumer n))
    (∃ b, m'.site = { (m.after history).site with broker := b } ∧
      b.topics = (m.after history).site.broker.topics) ∨
      ∃ before since handler message site, history = before ++ .turn (.consumer n) :: since ∧
        m.Handles n handler message before since ∧ m'.site = site ∧
        Handling.Does handler message.payload (m.after before).site.policy.primary
          ((m.after (before ++ [.turn (.consumer n)])).Heard (.consumer n) since)
          (m.after history).site site := by
  intro m'
  rcases (m.after history).perform_turn (.consumer n) with heq | ⟨_, heq, hmoved⟩
  · exact .inl ⟨_, by rw [show m' = _ from heq], rfl⟩
  · cases hmoved with
    | consumer hn hmove =>
      rw [show m' = _ from heq]
      refine hmove.idle_or_worked.imp id ?_
      rintro ⟨message, work, due, now, work', hph, hstep⟩
      obtain ⟨before, since, handler, rfl, hh, hof⟩ := handles_of_consumer hc hn hph
      exact ⟨before, since, handler, message, _, rfl, hh, rfl, hof.does hstep⟩

/-- Reports and repairs are made from one side. After every history of a migration that starts
without jobs and consumers, whatever the policy was switched to in its course:

a job publishes nothing but reports under the side that served reads when the job was started, and
the mismatch is one between what the store of that side and the other store showed to the job since;

a consumer publishes nothing but reports, and those for the change notice that it is at work on,
under the side that served reads when it took the notice up, and the mismatch is one between what
the store of that side and the other store answered since; and it changes no store but for a report
that it is at work on, which leaves the store of the side of the report as it is and the rows of the
other store but the one that the report is about.

So does every repair for a report, whatever happens around it. -/
theorem coherent (m : Migration ρ) (hs : m.scheduler = {}) (hc : m.consumers = [])
    (history : List (Happening ρ)) :
    let now := m.after history
    (∀ n way, let next := now.perform (.turn (.job n way))
      (∀ t, next.site.broker.log t = now.site.broker.log t) ∨
        ∃ before o since kind r, history = before ++ .order o :: since ∧
          (m.after before).launch? (.order o) = some (kind, n) ∧
          now.Publishes next m.config.inconsistencyTopic r ∧
          r.base = (m.after before).site.policy.primary ∧
          Mismatch.RestsOn ((m.after (before ++ [.order o])).Saw (.job n way) since)
            r.base r.id r.kind) ∧
    (∀ n, let next := now.perform (.turn (.consumer n))
      ((∀ t, next.site.broker.log t = now.site.broker.log t) ∧
        ∀ side, (next.site.store side).contents = (now.site.store side).contents) ∨
        ∃ before since handler message, history = before ++ .turn (.consumer n) :: since ∧
          m.Handles n handler message before since ∧
          ((∃ config change r, handler = .listener config ∧
            Change.decode? message.payload = some change ∧ r.id = change.id ∧
            now.Publishes next config.inconsistencyTopic r ∧
            r.base = (m.after before).site.policy.primary ∧
            Mismatch.RestsOn
              ((m.after (before ++ [.turn (.consumer n)])).Heard (.consumer n) since)
              r.base r.id r.kind ∧
            ∀ side, (next.site.store side).contents = (now.site.store side).contents) ∨
          ∃ r, Report.decode? message.payload = some r ∧
            (∀ r' : Report, IsSmall r'.id → message.payload = r'.encode → r' = r) ∧
            (∀ t, next.site.broker.log t = now.site.broker.log t) ∧
            now.site.Spares r next.site)) ∧
    ∀ (report : Report) (r r' : Repair ρ) (moment : Moment) (d d' : Deployment ρ),
      r.Of report → r.step moment d = some (d', r') → d.Spares report d' := by
  intro now
  refine ⟨job_publishes hs history, fun n => ?_, fun report r r' moment d d' hr hstep =>
    (hr.spares hstep).2⟩
  intro next
  rcases consumer_does hc history n with ⟨b, hsite, htopics⟩ |
    ⟨before, since, handler, message, site, rfl, hh, hsite, hdoes⟩
  · have hsite : next.site = _ := hsite
    exact .inl ⟨fun t => by rw [hsite]; exact Broker.log_congr htopics t,
      fun side => by rw [hsite, Deployment.store_withBroker]⟩
  · have hsite : next.site = site := hsite
    cases hdoes with
    | nothing ha =>
      exact .inl ⟨fun t => by rw [hsite, ha.broker.log], fun side => by rw [hsite, ha.contents]⟩
    | @reports config change kind hhandler hchange hrests =>
      refine .inr ⟨before, since, handler, message, rfl, hh, .inl ⟨config, change, _, hhandler,
        hchange, rfl, publishes_append rfl hsite, rfl, hrests, fun side => ?_⟩⟩
      rw [hsite, Deployment.store_withBroker]
    | @repairs report _ hreport hbroker hspares =>
      refine .inr ⟨before, since, handler, message, rfl, hh, .inr ⟨report, hreport,
        fun r' hsmall heq => ?_, fun t => by rw [hsite, hbroker.log], hsite ▸ hspares⟩⟩
      rw [heq, Report.decode?_encode hsmall] at hreport
      exact Option.some.inj hreport

/-- A row that only the source has. -/
def sampleStray : Migration Account := { site := .ofRows [⟨1, "alice", 10, 0⟩] [] .srcOnly }

/-- A full job reads a page, and goes on when the policy was switched, up to its report. -/
def sampleSwitch : List (Happening Account) :=
  let turn : Happening Account := .turn (.job 0 .baseToTarget)
  [.order .startFull, turn, turn, .order (.route .dstOnly), turn, turn, turn]

/-- The job reports, and a consumer takes the report up and repairs the row, up to its last move. -/
def sampleRepair : List (Happening Account) :=
  let turn : Happening Account := .turn (.consumer 0)
  [.turn (.job 0 .baseToTarget), .join .fixer "fixers" "migrator_inconsistent" 1000 10 false,
    turn, turn, turn, turn, turn]

theorem coherent_sample :
    let topic := sampleStray.config.inconsistencyTopic
    let now := sampleStray.after sampleSwitch
    let next := now.perform (.turn (.job 0 .baseToTarget))
    let later := sampleStray.after (sampleSwitch ++ sampleRepair)
    let last := later.perform (.turn (.consumer 0))
    sampleStray.scheduler = {} ∧ sampleStray.consumers = [] ∧ now.site.policy = .dstOnly ∧
      (∃ before o since r, sampleSwitch = before ++ .order o :: since ∧
        r.base = (sampleStray.after before).site.policy.primary ∧
        r.encode = (⟨1, .src, .targetMissing⟩ : Report).encode ∧ now.Publishes next topic r) ∧
      (last.site.store .dst).rows ≠ (later.site.store .dst).rows ∧
      ∃ r : Report, later.site.Spares r last.site := by
  intro topic now next later last
  obtain ⟨hjob, -, -⟩ := coherent sampleStray rfl rfl sampleSwitch
  obtain ⟨-, hconsumer, -⟩ := coherent sampleStray rfl rfl (sampleSwitch ++ sampleRepair)
  have hnext : next.site.broker.log topic = [(⟨1, .src, .targetMissing⟩ : Report).encode] := by
    decide +kernel
  have hnow : now.site.broker.log topic = [] := by decide +kernel
  have hrows : (last.site.store .dst).rows ≠ (later.site.store .dst).rows := by decide +kernel
  have hcontents : ¬∀ side, (last.site.store side).contents = (later.site.store side).contents :=
    fun hsame => hrows (congrArg Contents.rows (hsame .dst))
  refine ⟨rfl, rfl, rfl, ?_, hrows, ?_⟩
  · rcases hjob 0 .baseToTarget with hsame | ⟨before, o, since, -, r, heq, -, hpublishes, hbase, -⟩
    · have := (hsame topic).symm
      rw [hnow] at this
      cases this.trans hnext
    · refine ⟨before, o, since, r, heq, hbase, ?_, hpublishes⟩
      have := hnext.symm.trans (hpublishes topic)
      rw [hnow, if_pos rfl] at this
      exact (List.singleton_injective this).symm
  · rcases hconsumer 0 with ⟨-, hsame⟩ | ⟨_, _, _, _, -, -, ⟨_, _, _, -, -, -, -, -, -, hsame⟩ |
      ⟨r, -, -, -, hspares⟩⟩
    · exact absurd hsame hcontents
    · exact absurd hsame hcontents
    · exact ⟨r, hspares⟩

end Cutover.Migration
