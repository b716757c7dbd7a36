import Cutover.Proofs.Overlap

/-!
# Stages of a schedule

A scan and one consumer whose turns are given in an order that is chosen. `Stage` says how far the
two have come, and each lemma gives the turns that lead from a stage to another one. Main
statements: a pass publishes what it has found up to a point at which it is to stop
(`Stage.Holds.run`), and the consumer repairs the row of each report (`Stage.Holds.drain`).
-/

namespace Cutover

variable {ρ : Type} [Entity ρ]

/-! ## What can come about -/

namespace Migration

/-- What can come about while a scan runs and consumers repair what it reports, without faults. -/
def Reaches (plan : Scan.Plan) (m m' : Migration ρ) : Prop :=
  ∃ history : List (Happening ρ),
    (∀ x ∈ history, x.IsRepair plan.topic ∧ x.IsPrompt plan.callLimit) ∧ m' = m.after history

variable {plan : Scan.Plan} {m m' m'' : Migration ρ}

theorem Reaches.refl (plan : Scan.Plan) (m : Migration ρ) : Reaches plan m m :=
  ⟨[], by simp, rfl⟩

theorem Reaches.trans (h : Reaches plan m m') (h' : Reaches plan m' m'') : Reaches plan m m'' := by
  obtain ⟨past, hpast, rfl⟩ := h
  obtain ⟨rest, hrest, rfl⟩ := h'
  exact ⟨past ++ rest, List.forall_mem_append.mpr ⟨hpast, hrest⟩, (m.after_append past rest).symm⟩

theorem reaches_turn (plan : Scan.Plan) {t : Turn} (h : m.move t = some m') :
    Reaches plan m m' := by
  refine ⟨[.turn t], by simp [Happening.IsRepair, Happening.IsPrompt], ?_⟩
  simp [after, perform, h]

/-- After some time has passed, whatever task can take its turn. -/
theorem reaches_later (plan : Scan.Plan) (m : Migration ρ) (time : Nat) :
    ∃ now, time ≤ now ∧
      ∀ t m', ({ m with now } : Migration ρ).move t = some m' → Reaches plan m m' := by
  have hwait : Reaches plan m { m with now := max m.now time } :=
    ⟨[.time time], by simp [Happening.IsRepair, Happening.IsPrompt], rfl⟩
  exact ⟨_, Nat.le_max_right .., fun t m' hm' => hwait.trans (reaches_turn plan hm')⟩

theorem move_consumer {c c' : Consumer ρ} {d' : Deployment ρ} (hc : m.consumers = [c])
    (hstep : c.step m.now m.site = some (d', c')) :
    m.move (.consumer 0) = some { m with site := d', consumers := [c'] } := by
  simp [move, hc, hstep]

end Migration

/-! ## Turns of a consumer -/

namespace Consumer

/-- A consumer that repairs rows, and is about to ask for the message at an offset. -/
structure Asks (group topic : String) (offset : Nat) (c : Consumer ρ) : Prop where
  fixer : c.handler = .fixer
  running : c.stopped = false
  asking : c.phase = .asking
  subscription : c.subscription = ⟨group, topic, offset⟩

variable {c : Consumer ρ} {d d' : Deployment ρ} {now due : Nat} {message : Delivery}

theorem step_asking (now : Nat) (hrunning : c.stopped = false) (hph : c.phase = .asking)
    (hscript : d.broker.script.getD .next [] = []) :
    c.step now d = some (d, { c with phase := .waiting }) := by
  simp [step, isDone, hph, hrunning, proceed, Broker.scripted, hscript]

theorem step_waiting (now : Nat) (hrunning : c.stopped = false) (hph : c.phase = .waiting)
    (hfixer : c.handler = .fixer) (hopen : d.broker.closed = false) {r : Report}
    (hr : (d.broker.log c.subscription.topic)[c.subscription.cursor]? = some r.encode)
    (hid : IsSmall r.id) :
    c.step now d = some (d, { c with
      subscription := { c.subscription with cursor := c.subscription.cursor + 1 }
      phase := .handling
        { topic := c.subscription.topic, offset := c.subscription.cursor, payload := r.encode }
        (.repair { base := r.base, id := r.id }) (now + c.limit)
      log := ⟨r.id, c.subscription.cursor, now⟩ :: c.log }) := by
  simp [step, isDone, hph, hrunning, proceed, Broker.poll, hopen, hr, onMessage, hfixer,
    Handler.begin, Report.decode?_encode hid]

theorem step_handling {w w' : Handling ρ} (hrunning : c.stopped = false)
    (hph : c.phase = .handling message w due) (hw : w.result? = none)
    (hstep : w.step ⟨now, false⟩ d = some (d', w')) :
    c.step now d = some (d', { c with phase := .handling message w' due }) := by
  simp [step, isDone, hph, hrunning, proceed, hw, hstep]

theorem step_handled (now : Nat) {w : Handling ρ} (hrunning : c.stopped = false)
    (hph : c.phase = .handling message w due) (hw : w.result? = some (.ok ()))
    (hscript : d.broker.script.getD .ack [] = []) :
    c.step now d =
      some ({ d with broker := d.broker.ack c.subscription message.offset },
        { c with phase := .asking }) := by
  simp [step, isDone, hph, hrunning, proceed, hw, onOutcome, acknowledge, Broker.scripted, hscript]

end Consumer

/-- A consumer asks for the next message, and begins to handle it. -/
theorem Migration.reaches_begin (plan : Scan.Plan) {m : Migration ρ} {c : Consumer ρ}
    {group topic : String} {n : Nat} (hc : m.consumers = [c]) (hasks : c.Asks group topic n)
    (hscript : m.site.broker.script.getD .next [] = []) (hopen : m.site.broker.closed = false)
    {r : Report} (hr : (m.site.broker.log topic)[n]? = some r.encode) (hid : IsSmall r.id) :
    ∃ c' due, m.Reaches plan { m with consumers := [c'] } ∧ c'.handler = .fixer ∧
      c'.stopped = false ∧ c'.subscription = ⟨group, topic, n + 1⟩ ∧
      c'.phase = .handling { topic, offset := n, payload := r.encode }
        (.repair { base := r.base, id := r.id }) due := by
  obtain ⟨hfixer, hrunning, hasking, hsub⟩ := hasks
  have hwaits : m.Reaches plan { m with consumers := [{ c with phase := .waiting }] } :=
    reaches_turn plan (move_consumer hc (Consumer.step_asking _ hrunning hasking hscript))
  have hstep := Consumer.step_waiting (c := { c with phase := .waiting }) m.now hrunning rfl hfixer
    hopen (by simpa [hsub] using hr) hid
  have hbegins := reaches_turn plan
    (move_consumer (m := { m with consumers := [{ c with phase := .waiting }] }) rfl hstep)
  exact ⟨_, m.now + c.limit, hwaits.trans hbegins, hfixer, hrunning, by simp [hsub], by simp [hsub]⟩

/-- A consumer that handles a report moves once the delay of a call of the repair is over. -/
theorem Migration.reaches_repair (plan : Scan.Plan) {m : Migration ρ} {c : Consumer ρ}
    {message : Delivery} {due : Nat} {r : Repair ρ} (hc : m.consumers = [c])
    (hrunning : c.stopped = false) (hph : c.phase = .handling message (.repair r) due)
    (hres : r.result? = none) :
    ∃ now d' r', r.step ⟨now, false⟩ m.site = some (d', r') ∧ m.Reaches plan { m with
      now
      site := d'
      consumers := [{ c with phase := .handling message (.repair r') due }] } := by
  obtain ⟨now, hnow, hreaches⟩ := reaches_later plan m ((r.flight.map Flight.ready).getD 0)
  obtain ⟨⟨d', r'⟩, hstep⟩ := Option.isSome_iff_exists.mp
    (Repair.step_isSome (d := m.site) (m := ⟨now, false⟩) hres fun f hf => by
      rw [Option.mem_def.mp hf] at hnow
      exact hnow)
  refine ⟨now, d', r', hstep, hreaches (.consumer 0) _ (move_consumer (m := { m with now }) hc ?_)⟩
  refine Consumer.step_handling hrunning hph hres ?_
  simp [Handling.step, hstep]

/-! ## Stages -/

/-- How far a scan and a consumer have come. -/
structure Stage (ρ : Type) [Entity ρ] where
  target : Table ρ
  scan : Scan ρ
  /-- What the scan has reported. -/
  reports : List Report
  consumer : Consumer ρ
  /-- How many reports the group has committed. -/
  committed : Nat

namespace Scan

/-- A plan of a scan that goes once through all rows of both sides. -/
structure Plan.IsFull (plan : Plan) : Prop where
  mode : plan.mode = .oneShot
  since : plan.since = none
  batch : 0 < plan.batch
  tag : plan.tag = plan.base

/-- The table that is read in a direction. -/
def Way.reads (way : Way) (b t : Table ρ) : Table ρ :=
  match way with
  | .baseToTarget => b
  | .targetToBase => t

/-- The table in which the rows are looked up in a direction. -/
def Way.consults (way : Way) (b t : Table ρ) : Table ρ :=
  match way with
  | .baseToTarget => t
  | .targetToBase => b

omit [Entity ρ] in
@[simp] theorem setPass_setPass (s : Scan ρ) (p q : Pass ρ) (way : Way) :
    (s.setPass p way).setPass q way = s.setPass q way := by cases way <;> rfl

omit [Entity ρ] in
@[simp] theorem setPass_pass (s : Scan ρ) (way : Way) : s.setPass (s.pass way) way = s := by
  cases way <;> rfl

omit [Entity ρ] in
/-- A scan runs while a pass does and none has failed or broken down. -/
theorem isOver_eq_false {s : Scan ρ} {way : Way} (hbroken : s.isBroken = false)
    (hway : (s.pass way).result? = none)
    (hok : ∀ way r, (s.pass way).result? = some r → r = .ok ()) : s.isOver = false := by
  refine isOver_eq_false_iff.mpr ⟨hbroken, ?_⟩
  cases hr : s.result? with
  | none => rfl
  | some r =>
    obtain ⟨-, -, hdone⟩ := done_of_result? hr hok
    rw [hdone way] at hway
    cases hway

namespace Pass

variable {plan : Plan} {rows : List ρ} {p p' : Pass ρ} {q : Nat}

/-- A pass has no more to report when the rows are looked up among others, but for the rows that it
has not read. -/
theorem Steady.length_pending_le (h : p.Steady plan rows) (others others' : List ρ) :
    (p.pending others' rows).length ≤ (p.pending others rows).length + rows.length := by
  have hdrop (n : Nat) : (p.way.differences others' (rows.drop n)).length ≤ rows.length :=
    Nat.le_trans (Way.length_differences_le ..) (by simp)
  have hphase := h.phase
  unfold pending
  split
  · exact Nat.le_trans (hdrop _) (Nat.le_add_left ..)
  · next page hph =>
    simp only [hph] at hphase
    obtain ⟨hpage, hfetched⟩ := hphase
    rw [hfetched, page_append_drop hpage]
    exact Nat.le_trans (hdrop _) (Nat.le_add_left ..)
  · next fetched _ _ rest _ =>
    have := hdrop (p.offset + fetched)
    simp only [List.length_cons, List.length_append]
    omega
  · exact Nat.zero_le _
  · exact Nat.zero_le _

/-- What a pass through the base has yet to report are ids of the base. -/
theorem Compares.isSome_of_mem_pending {b t₀ : Table ρ} {others : List ρ} (h : p.Compares b t₀)
    (hway : p.way = .baseToTarget) {x : Int × Mismatch} (hx : x ∈ p.pending others b.rows) :
    (b.get? x.1).isSome := by
  have hrow {rows : List ρ} (hsub : ∀ r ∈ rows, r ∈ b.rows)
      (hx : x ∈ p.way.differences others rows) : (b.get? x.1).isSome := by
    obtain ⟨r, hr, hid⟩ := List.mem_map.mp (Way.mem_ids_of_mem hx)
    rw [← hid, Table.get?_of_mem (hsub r hr)]
    rfl
  have hdrop {n : Nat} : ∀ r ∈ b.rows.drop n, r ∈ b.rows := fun r hr => List.mem_of_mem_drop hr
  unfold Compares at h
  unfold pending at hx
  split at hx
  · exact hrow hdrop hx
  · next hph =>
    rw [hph] at h
    refine hrow (fun r hr => ?_) hx
    rcases List.mem_append.mp hr with hr | hr
    · exact (h r hr).resolve_right fun hback => by simp [hway] at hback
    · exact hdrop r hr
  · next hph =>
    rw [hph] at h
    rcases List.mem_cons.mp hx with rfl | hx
    · exact h.1.2 hway
    · rcases List.mem_append.mp hx with hx | hx
      · exact (h.2 x hx).2 hway
      · exact hrow hdrop hx
  · cases hx
  · cases hx

/-- A pass that has yet to read the page at `q`, and all of whose pages before are full. -/
def IsBefore (plan : Plan) (q : Nat) (p : Pass ρ) : Prop :=
  plan.batch ∣ p.offset ∧
    match p.phase with
    | .reading => p.offset ≤ q
    | .comparing fetched _ | .reporting fetched _ _ _ =>
      fetched = plan.batch ∧ p.offset + fetched ≤ q
    | _ => False

omit [Entity ρ] in
private theorem isBefore_reportAll (hdvd : plan.batch ∣ p.offset)
    (hle : p.offset + plan.batch ≤ q) (found : List (Int × Mismatch)) :
    (p.reportAll plan plan.batch found).IsBefore plan q := by
  cases found with
  | nil =>
    simp only [reportAll, turn, Nat.le_refl, if_true]
    exact ⟨Nat.dvd_add hdvd (Nat.dvd_refl _), hle⟩
  | cons x rest => exact ⟨hdvd, rfl, hle⟩

/-- A move of a pass does not take it past a page that it has yet to read. -/
theorem IsBefore.move (h : p.IsBefore plan q) (hbatch : 0 < plan.batch) (hq : plan.batch ∣ q)
    (hlength : q ≤ rows.length) (hdistinct : Rows.Distinct rows)
    (hsince : plan.since = none) (hsteady : p.Steady plan rows)
    (hnot : ¬ (p.phase = .reading ∧ p.offset = q)) {now : Nat} {d d' : Deployment ρ}
    (hrows : (d.store (p.pageSide plan)).rows = rows) (hd : d.Prompt plan.callLimit)
    (hm : Moved plan ⟨now, false⟩ d p d' p') : p'.IsBefore plan q := by
  obtain ⟨hdvd, hphase⟩ := h
  cases hm with
  | begun => exact ⟨hdvd, hphase⟩
  | paged hph =>
    simp only [hph] at hphase
    have hlt : p.offset < q := Nat.lt_of_le_of_ne hphase fun heq => hnot ⟨hph, heq⟩
    have hroom : p.offset + plan.batch ≤ q := by
      have := Nat.le_of_dvd (Nat.sub_pos_of_lt hlt) (Nat.dvd_sub hq hdvd)
      omega
    have hfull : ((rows.drop p.offset).take plan.batch).length = plan.batch := by
      rw [List.length_take, List.length_drop]
      omega
    rw [hrows, page_pageQuery hsince, afterPage_of_distinct]
    · exact ⟨hdvd, hfull, hfull.symm ▸ hroom⟩
    · exact hdistinct.page ..
    · exact List.ne_nil_of_length_pos (hfull.symm ▸ hbatch)
  | compared hph =>
    simp only [hph] at hphase
    obtain ⟨rfl, hle⟩ := hphase
    exact isBefore_reportAll hdvd hle _
  | reported hph =>
    simp only [hph] at hphase
    obtain ⟨rfl, hle⟩ := hphase
    exact isBefore_reportAll hdvd hle _
  | rested hph => simp only [hph] at hphase
  | failed _ _ hfine => exact absurd ⟨rfl, ⟨_, hd⟩, hsteady.prompt⟩ hfine

end Pass

end Scan

namespace Stage

/-- A migration is at a stage: nothing is amiss, and its parts are as the stage says. -/
structure Holds (plan : Scan.Plan) (group : String) (b t₀ : Table ρ) (g : Stage ρ)
    (m : Migration ρ) : Prop where
  tables : m.site.Tables plan.base b g.target
  origin : b.Mended t₀ g.target
  prompt : m.site.Prompt plan.callLimit
  script : ∀ op, m.site.broker.script.getD op [] = []
  log : m.site.broker.log plan.topic = g.reports.map Report.encode
  reports : ∀ r ∈ g.reports, r.base = plan.base ∧ IsSmall r.id
  committed : m.site.broker.committedOffset group plan.topic = g.committed
  consumers : m.consumers = [g.consumer]
  jobs : m.scheduler.jobs = [{ kind := .full, scan := g.scan }]
  planned : g.scan.plan = plan
  passes : ∀ way, (g.scan.pass way).way = way ∧ (g.scan.pass way).Compares b t₀
  sound : ∀ way r, (g.scan.pass way).result? = some r → r = .ok ()
  unbroken : ∀ way, (g.scan.pass way).isBroken = false

variable {plan : Scan.Plan} {group : String} {b t₀ : Table ρ} {g : Stage ρ} {m : Migration ρ}

theorem Holds.rows (h : g.Holds plan group b t₀ m) (way : Scan.Way) :
    (m.site.store ((g.scan.pass way).pageSide plan)).rows = (way.reads b g.target).rows ∧
      (m.site.store ((g.scan.pass way).lookupSide plan)).rows = (way.consults b g.target).rows := by
  have hbase : (m.site.store plan.base).rows = b.rows := by rw [Store.rows, h.tables.source]; rfl
  have htarget : (m.site.store plan.base.other).rows = g.target.rows := by
    rw [Store.rows, h.tables.target]
    rfl
  rw [Scan.Pass.lookupSide, Scan.Pass.pageSide_eq, (h.passes way).1]
  cases way with
  | baseToTarget => exact ⟨hbase, htarget⟩
  | targetToBase =>
    refine ⟨htarget, ?_⟩
    rw [Scan.Plan.pages, Comparison.target, Side.other_other, hbase]
    rfl

/-- No error is scripted after calls in which nothing goes wrong. -/
theorem Holds.script_of_alike (h : g.Holds plan group b t₀ m) {d : Deployment ρ}
    (ha : m.site.broker.Alike d.broker) (hd : d.Prompt plan.callLimit) (op : BrokerOp) :
    d.broker.script.getD op [] = [] := by
  by_cases hop : op = .publish
  · rw [hop]
    exact hd.2.2.2
  · exact (ha.script op hop).trans (h.script op)

/-- A pass takes its turn. -/
theorem Holds.turn (h : g.Holds plan group b t₀ m) {way : Scan.Way}
    (hrun : (g.scan.pass way).result? = none) :
    ∃ now d' p m', Scan.Pass.Moved plan ⟨now, false⟩ m.site (g.scan.pass way) d' p ∧
      m.Reaches plan m' ∧ m'.site = d' ∧ m'.consumers = m.consumers ∧
      m'.scheduler.jobs = [{ kind := .full, scan := g.scan.setPass p way }] := by
  have hlive := Scan.isOver_eq_false (Scan.isBroken_eq_false_iff.mpr h.unbroken) hrun h.sound
  obtain ⟨time, hsome⟩ := Scan.stepWay_isSome (d := m.site) hlive hrun
  obtain ⟨now, hnow, hreaches⟩ := Migration.reaches_later plan m time
  obtain ⟨m', hmove⟩ : ∃ m', ({ m with now } : Migration ρ).move (.job 0 way) = some m' := by
    obtain ⟨x, hx⟩ := Option.isSome_iff_exists.mp (hsome now hnow)
    simp [Migration.move, h.jobs, Job.step, Job.isBlocked, hx]
  have hreaches := hreaches _ _ hmove
  cases Migration.moved_of_move hmove with
  | @job _ _ j d' p hj _ _ hp =>
    have hj : m.scheduler.jobs[0]? = some j := hj
    rw [h.jobs] at hj
    cases hj
    rw [h.planned] at hp
    exact ⟨now, d', p, _, hp, hreaches, rfl, rfl, by simp [h.jobs]⟩

/-- The stage after a pass has moved on and found something. -/
def publish (g : Stage ρ) (way : Scan.Way) (p : Scan.Pass ρ) (found : List Report) : Stage ρ :=
  { g with scan := g.scan.setPass p way, reports := g.reports ++ found }

section

variable (hplan : plan.IsFull) (hrefl : ∀ r : ρ, Entity.agrees r r = true)
  (hsmall : ∀ id, b.Differs t₀ id → IsSmall id)
  (hsize : b.rows.length + t₀.rows.length < UInt64.size)
include hplan hrefl hsmall hsize

/-- A pass that runs moves, and publishes no more than the first of what it has yet to report. -/
theorem Holds.move (h : g.Holds plan group b t₀ m) {way : Scan.Way} {rows others : List ρ}
    (hrows : rows = (way.reads b g.target).rows) (hothers : others = (way.consults b g.target).rows)
    (hsteady : (g.scan.pass way).Steady plan rows) (hrun : (g.scan.pass way).result? = none) :
    ∃ p found m', m.Reaches plan m' ∧
      (g.publish way p (plan.reports found)).Holds plan group b t₀ m' ∧ found.length ≤ 1 ∧
      (g.scan.pass way).pending others rows = found ++ p.pending others rows ∧
      p.Steady plan rows ∧ p.weight rows < (g.scan.pass way).weight rows ∧
      ∃ now d', Scan.Pass.Moved plan ⟨now, false⟩ m.site (g.scan.pass way) d' p := by
  obtain ⟨now, d', p, m', hp, hreaches, rfl, hconsumers, hjobs⟩ := h.turn hrun
  obtain ⟨hpages, hlookups⟩ := h.rows way
  have hlength : rows.length < UInt64.size := by
    have := h.origin.length_le
    rw [hrows]
    cases way <;> simp only [Scan.Way.reads] <;> omega
  obtain ⟨hway, hsteady', hweight, hkept⟩ := hsteady.move hplan.batch hplan.mode hplan.since hlength
    (hpages.trans hrows.symm) (hlookups.trans hothers.symm) (hrows ▸ Table.distinct _)
    (hothers ▸ Table.distinct _) rfl h.prompt hp
  obtain ⟨-, hcompares, -⟩ := (h.passes way).2.move hrefl h.origin h.tables hp
  have hprompt := hp.prompt rfl h.prompt hsteady.prompt
  -- what is said of the passes, whether or not something is published
  have hpasses (other : Scan.Way) : ((g.scan.setPass p way).pass other).way = other ∧
      ((g.scan.setPass p way).pass other).Compares b t₀ := by
    rw [Scan.pass_setPass]
    split
    · next heq => exact ⟨by rw [hway, (h.passes way).1, heq], hcompares⟩
    · exact h.passes other
  have hsound (other : Scan.Way) (r : Except Error Unit)
      (hr : ((g.scan.setPass p way).pass other).result? = some r) : r = .ok () := by
    rw [Scan.pass_setPass] at hr
    split at hr
    · exact (hsteady'.result hr).1
    · exact h.sound other r hr
  have hunbroken (other : Scan.Way) : ((g.scan.setPass p way).pass other).isBroken = false := by
    rw [Scan.pass_setPass]
    split
    · exact Scan.Pass.isBroken_eq_false_iff.mpr hsteady'.offset
    · exact h.unbroken other
  rcases hkept with ⟨ha, -, hpending⟩ | ⟨fetched, id, kind, rest, hph, hpending, heq⟩
  · refine ⟨p, [], m', hreaches, ⟨h.tables.alike ha, h.origin, hprompt,
      h.script_of_alike ha.broker hprompt, ?_, ?_, ?_, hconsumers.trans h.consumers, hjobs,
      by simpa [publish] using h.planned, hpasses, hsound, hunbroken⟩,
      Nat.zero_le _, hpending.symm, hsteady', hweight, now, _, hp⟩
    · exact (ha.broker.log _).trans (h.log.trans (by simp [publish, Scan.Plan.reports]))
    · simpa [publish, Scan.Plan.reports] using h.reports
    · exact (ha.broker.committedOffset _ _).trans h.committed
  · refine ⟨p, [(id, kind)], m', hreaches, ⟨?_, h.origin, hprompt, ?_, ?_, fun r hr => ?_, ?_,
      hconsumers.trans h.consumers, hjobs, by simpa [publish] using h.planned, hpasses, hsound,
      hunbroken⟩,
      Nat.le_refl _, hpending, hsteady', hweight, now, _, hp⟩
    · rw [heq]
      exact h.tables.withBroker _
    · rw [heq]
      exact h.script
    · rw [heq, Broker.log_append, if_pos rfl, h.log]
      simp [publish, Scan.Plan.reports]
    · rcases List.mem_append.mp hr with hr | hr
      · exact h.reports r hr
      · obtain rfl := List.mem_singleton.mp hr
        have hcompares := (h.passes way).2
        rw [Scan.Pass.Compares, hph] at hcompares
        exact ⟨hplan.tag, hsmall id hcompares.1.1⟩
    · rw [heq]
      exact h.committed

/-- A pass moves until it is to stop. What it has found until then is what it has less to report. -/
theorem Holds.run (stop inv : Scan.Pass ρ → List (Int × Mismatch) → Prop)
    (h : g.Holds plan group b t₀ m) {way : Scan.Way} {rows others : List ρ}
    (hrows : rows = (way.reads b g.target).rows) (hothers : others = (way.consults b g.target).rows)
    (hsteady : (g.scan.pass way).Steady plan rows) (hinv : inv (g.scan.pass way) [])
    (hmove : ∀ p found p' found' now d d', inv p found → ¬ stop p found → p.way = way →
      p.Steady plan rows → (d.store (p.pageSide plan)).rows = rows → d.Prompt plan.callLimit →
      Scan.Pass.Moved plan ⟨now, false⟩ d p d' p' → found'.length ≤ found.length + 1 →
      inv p' found')
    (hdone : ∀ p found, inv p found → p.result? = some (.ok ()) →
      found = (g.scan.pass way).pending others rows → stop p found) :
    ∃ p found m', m.Reaches plan m' ∧
      (g.publish way p (plan.reports found)).Holds plan group b t₀ m' ∧ p.Steady plan rows ∧
      (g.scan.pass way).pending others rows = found ++ p.pending others rows ∧ stop p found ∧
      inv p found := by
  -- the pass has found something already, and has yet to report the rest
  suffices hgo : ∀ n p found m', p.weight rows = n → m.Reaches plan m' →
      (g.publish way p (plan.reports found)).Holds plan group b t₀ m' → p.Steady plan rows →
      (g.scan.pass way).pending others rows = found ++ p.pending others rows → inv p found →
      ∃ p found m', m.Reaches plan m' ∧
        (g.publish way p (plan.reports found)).Holds plan group b t₀ m' ∧ p.Steady plan rows ∧
        (g.scan.pass way).pending others rows = found ++ p.pending others rows ∧ stop p found ∧
        inv p found by
    refine hgo _ (g.scan.pass way) [] m rfl (.refl plan m) ?_ hsteady rfl hinv
    simpa [publish, Scan.Plan.reports] using h
  intro n
  induction n using Nat.strongRecOn with
  | ind n ih =>
    intro p found m' hn hreaches hholds hp hpending hinv
    by_cases hstop : stop p found
    · exact ⟨p, found, m', hreaches, hholds, hp, hpending, hstop, hinv⟩
    have hpass : (g.publish way p (plan.reports found)).scan.pass way = p := by simp [publish]
    cases hrun : p.result? with
    | some r =>
      obtain ⟨rfl, hnone⟩ := hp.result hrun
      refine absurd (hdone p found hinv hrun ?_) hstop
      rw [hpending, hnone, List.append_nil]
    | none =>
      obtain ⟨p', found', m'', hreaches', hholds', hlength, hpending', hp', hweight, now, d',
        hmoved⟩ :=
        hholds.move hplan hrefl hsmall hsize hrows hothers (hpass.symm ▸ hp) (hpass.symm ▸ hrun)
      rw [hpass] at hpending' hweight hmoved
      have hside : (m'.site.store (p.pageSide plan)).rows = rows := by
        have := (hholds.rows way).1
        rw [hpass] at this
        exact this.trans hrows.symm
      have hway : p.way = way := by
        have := (hholds.passes way).1
        rwa [hpass] at this
      refine ih _ (hn ▸ hweight) p' (found ++ found') m'' rfl
        (hreaches.trans hreaches') ?_ hp' ?_ ?_
      · simpa [publish, Scan.Plan.reports] using hholds'
      · rw [hpending, hpending', List.append_assoc]
      · refine hmove _ _ _ _ _ _ _ hinv hstop hway hp hside hholds.prompt hmoved ?_
        rw [List.length_append]
        omega

/-- A pass is stopped when it has found a number of things. -/
theorem Holds.run_length (h : g.Holds plan group b t₀ m) (way : Scan.Way) {rows others : List ρ}
    (hrows : rows = (way.reads b g.target).rows) (hothers : others = (way.consults b g.target).rows)
    (hsteady : (g.scan.pass way).Steady plan rows) {n : Nat}
    (hn : n ≤ ((g.scan.pass way).pending others rows).length) :
    ∃ p m', m.Reaches plan m' ∧ (g.publish way p (plan.reports
        (((g.scan.pass way).pending others rows).take n))).Holds plan group b t₀ m' ∧
      p.Steady plan rows ∧ p.pending others rows =
        ((g.scan.pass way).pending others rows).drop n := by
  obtain ⟨p, found, m', hreaches, hholds, hp, hpending, hstop, -⟩ :=
    h.run hplan hrefl hsmall hsize
      (fun _ found => found.length = n) (fun _ found => found.length ≤ n)
      hrows hothers hsteady (Nat.zero_le n)
      (fun _ _ _ _ _ _ _ hle hne _ _ _ _ _ hlength => by
        have := Nat.lt_of_le_of_ne hle hne
        omega)
      (fun _ _ hle _ heq => Nat.le_antisymm hle (heq ▸ hn))
  refine ⟨p, m', hreaches, ?_, hp, ?_⟩
  · rwa [hpending, List.take_append_of_le_length (Nat.le_of_eq hstop.symm), ← hstop,
      List.take_length]
  · rw [hpending, ← hstop, List.drop_left]

/-- A pass is stopped when it is about to read the page at `q`. -/
theorem Holds.run_page (h : g.Holds plan group b t₀ m) (way : Scan.Way) {rows others : List ρ}
    (hrows : rows = (way.reads b g.target).rows) (hothers : others = (way.consults b g.target).rows)
    (hstart : g.scan.pass way = { way }) {q : Nat} (hq : plan.batch ∣ q)
    (hlength : q ≤ rows.length) :
    ∃ p m', m.Reaches plan m' ∧ (g.publish way p (plan.reports
        (way.differences others (rows.take q)))).Holds plan group b t₀ m' ∧
      p.Steady plan rows ∧ p.phase = .reading ∧ p.offset = q := by
  have hsteady : (g.scan.pass way).Steady plan rows := by
    rw [hstart]
    exact ⟨Nat.two_pow_pos 64, by simp, trivial⟩
  obtain ⟨p, found, m', hreaches, hholds, hp, hpending, ⟨hph, hoffset⟩, -⟩ :=
    h.run hplan hrefl hsmall hsize (fun p _ => p.phase = .reading ∧ p.offset = q)
      (fun p _ => p.IsBefore plan q) hrows hothers hsteady
      (by rw [hstart]; exact ⟨Nat.dvd_zero _, Nat.zero_le _⟩)
      (fun p _ _ _ _ _ _ hbefore hnot _ hsteady hside hd hmoved _ =>
        hbefore.move hplan.batch hq hlength (hrows ▸ Table.distinct _) hplan.since hsteady hnot
          hside hd hmoved)
      (fun p _ hbefore hr _ => by
        have hphase := hbefore.2
        rw [Scan.Pass.phase_of_result? hr] at hphase
        exact hphase.elim)
  have hway : p.way = way := by simpa [publish] using (hholds.passes way).1
  refine ⟨p, m', hreaches, ?_, hp, hph, hoffset⟩
  -- all of the differences are those found and those behind the offset
  have hall : way.differences others rows = found ++ way.differences others (rows.drop q) := by
    simpa only [hstart, Scan.Pass.pending, hph, hoffset, hway, List.drop_zero] using hpending
  have hfound : way.differences others (rows.take q) = found := by
    refine (List.append_left_inj (way.differences others (rows.drop q))).mp ?_
    rw [← Scan.Way.differences_append, List.take_append_drop, hall]
  rwa [hfound]

/-- A pass runs to its end. -/
theorem Holds.run_end (h : g.Holds plan group b t₀ m) (way : Scan.Way) {rows others : List ρ}
    (hrows : rows = (way.reads b g.target).rows) (hothers : others = (way.consults b g.target).rows)
    (hsteady : (g.scan.pass way).Steady plan rows) :
    ∃ p m', m.Reaches plan m' ∧ (g.publish way p (plan.reports
        ((g.scan.pass way).pending others rows))).Holds plan group b t₀ m' ∧
      p.result? = some (.ok ()) := by
  obtain ⟨p, found, m', hreaches, hholds, hp, hpending, hstop, -⟩ :=
    h.run hplan hrefl hsmall hsize (fun p _ => p.result? = some (.ok ())) (fun _ _ => True)
      hrows hothers hsteady trivial (fun _ _ _ _ _ _ _ _ _ _ _ _ _ _ _ => trivial)
      (fun _ _ _ hr _ => hr)
  refine ⟨p, m', hreaches, ?_, hstop⟩
  rwa [hpending, (hp.result hstop).2, List.append_nil]

end

/-- The parts of a migration that a turn of its consumer changes. -/
theorem Holds.consume (h : g.Holds plan group b t₀ m) (m' : Migration ρ) {c : Consumer ρ}
    {t : Table ρ} {n : Nat} (htables : m'.site.Tables plan.base b t) (hmend : b.Mended g.target t)
    (hprompt : m'.site.Prompt plan.callLimit)
    (htopics : m'.site.broker.topics = m.site.broker.topics)
    (hscript : ∀ op, m'.site.broker.script.getD op [] = [])
    (hcommitted : m'.site.broker.committedOffset group plan.topic = n)
    (hconsumers : m'.consumers = [c]) (hscheduler : m'.scheduler = m.scheduler) :
    ({ g with target := t, consumer := c, committed := n } : Stage ρ).Holds plan group b t₀ m' :=
  ⟨htables, h.origin.trans hmend, hprompt, hscript, (Broker.log_congr htopics _).trans h.log,
    h.reports,
    hcommitted, hconsumers, hscheduler ▸ h.jobs, h.planned, h.passes, h.sound, h.unbroken⟩

/-- A repair that runs takes its turn. -/
theorem Holds.repair (h : g.Holds plan group b t₀ m) {message : Delivery} {due : Nat} {r : Repair ρ}
    (hph : g.consumer.phase = .handling message (.repair r) due)
    (hrunning : g.consumer.stopped = false) (hr : r.Faithful plan.base b g.target)
    (hflight : ∀ f ∈ r.flight, f.Prompt) (hok : ∀ e, r.phase ≠ .done (.error e))
    (hres : r.result? = none) :
    ∃ t r' m', m.Reaches plan m' ∧
      ({ g with
        target := t
        consumer := { g.consumer with phase := .handling message (.repair r') due } } :
          Stage ρ).Holds plan group b t₀ m' ∧
      (t = g.target ∨ t = b.mend r.id g.target) ∧ r'.id = r.id ∧ r'.Faithful plan.base b t ∧
      r'.weight < r.weight ∧ (∀ f ∈ r'.flight, f.Prompt) ∧ ∀ e, r'.phase ≠ .done (.error e) := by
  obtain ⟨now, d', r', hstep, hreaches⟩ :=
    Migration.reaches_repair plan h.consumers hrunning hph hres
  have hmoved := Repair.moved_of_step hstep
  obtain ⟨t, htables, ht, hr', hid, ha, -⟩ := hr.move h.tables hmoved
  obtain ⟨hweight, hflight', hok'⟩ := hmoved.weight_lt rfl h.prompt hflight hok
  have hmend : b.Mended g.target t := by
    rcases ht with heq | heq
    · exact heq ▸ .refl b t
    · exact heq ▸ .mend b g.target r.id
  have hprompt := (Deployment.frames_prompt _).repair hstep h.prompt
  exact ⟨t, r', _, hreaches, h.consume _ htables hmend hprompt ha.topics
    (h.script_of_alike ha hprompt) ((ha.committedOffset _ _).trans h.committed) rfl rfl, ht, hid,
    hr', hweight, hflight', hok'⟩

/-- A consumer that has begun to handle a report repairs its row. -/
theorem Holds.work {t : Table ρ} {c : Consumer ρ} {message : Delivery} {due : Nat} {r : Repair ρ}
    (h : g.Holds plan group b t₀ m)
    (hc : g.consumer = { c with phase := .handling message (.repair r) due })
    (hrunning : c.stopped = false) (hr : r.Faithful plan.base b g.target)
    (hflight : ∀ f ∈ r.flight, f.Prompt) (hok : ∀ e, r.phase ≠ .done (.error e))
    (ht : g.target = t ∨ g.target = b.mend r.id t) :
    ∃ r' m', m.Reaches plan m' ∧ r'.phase = .done (.ok ()) ∧
      ({ g with
        target := b.mend r.id t
        consumer := { c with phase := .handling message (.repair r') due } } : Stage ρ).Holds
          plan group b t₀ m' := by
  generalize hn : r.weight = n
  induction n using Nat.strongRecOn generalizing g m r with
  | ind n ih =>
    cases hres : r.result? with
    | some x =>
      have hph := Repair.phase_of_result? hres
      have hx : x = .ok () := by
        cases x with
        | ok _ => rfl
        | error e => exact absurd hph (hok e)
      subst hx
      -- the target has what the base has under the id
      have htarget : g.target = b.mend r.id t := by
        rcases ht with heq | heq
        · have hphase := hr.phase
          rw [hph] at hphase
          refine Table.ext_get? fun id => ?_
          rw [Table.get?_mend, ← heq]
          split
          · next hid => rw [hid]; exact hphase
          · rfl
        · exact heq
      refine ⟨r, m, .refl plan m, hph, ?_⟩
      rw [← htarget, ← hc]
      exact h
    | none =>
      obtain ⟨t', r', m', hreaches, hholds, ht', hid, hr', hweight, hflight', hok'⟩ :=
        h.repair (by rw [hc]) (by rw [hc]; exact hrunning) hr hflight hok hres
      have hnew : t' = t ∨ t' = b.mend r'.id t := by
        rw [hid]
        rcases ht' with heq | heq
        · rwa [heq]
        · rcases ht with heq' | heq'
          · exact .inr (by rw [heq, heq'])
          · exact .inr (by rw [heq, heq', Table.mend_mend])
      obtain ⟨q, m'', hreaches', hph, hend⟩ :=
        ih r'.weight (hn ▸ hweight) hholds (by rw [hc]) hr' hflight' hok' hnew rfl
      exact ⟨q, m'', hreaches.trans hreaches', hph, hid ▸ hend⟩

/-- A consumer handles the next report. -/
theorem Holds.handle (h : g.Holds plan group b t₀ m)
    (hasks : g.consumer.Asks group plan.topic g.committed) {r : Report}
    (hr : g.reports[g.committed]? = some r) (hlt : g.committed + 1 < UInt64.size) :
    ∃ c m', m.Reaches plan m' ∧ c.Asks group plan.topic (g.committed + 1) ∧
      ({ g with
        target := b.mend r.id g.target
        consumer := c
        committed := g.committed + 1 } : Stage ρ).Holds plan group b t₀ m' := by
  obtain ⟨hbase, hid⟩ := h.reports r (List.mem_of_getElem? hr)
  have hread : (m.site.broker.log plan.topic)[g.committed]? = some r.encode := by
    rw [h.log, List.getElem?_map, hr]
    rfl
  -- the consumer begins to handle the message
  obtain ⟨c, due, hbegins, hfixer, hrunning, hsub, hph⟩ := Migration.reaches_begin plan
    h.consumers hasks (h.script _) h.prompt.2.1 hread hid
  have h₁ := h.consume { m with consumers := [c] } h.tables (.refl b _) h.prompt rfl h.script
    h.committed rfl rfl
  -- it repairs the row
  obtain ⟨q, m₂, hworks, hq, h₂⟩ := h₁.work (t := g.target) (c := c) (by rw [← hph]) hrunning
    ⟨hbase, by simp, trivial⟩ (by simp) (by simp) (.inl rfl)
  -- it commits the offset
  have hends := Migration.reaches_turn plan (Migration.move_consumer h₂.consumers
    (Consumer.step_handled _ hrunning rfl (by simp [Handling.result?, Repair.result?, hq])
      (h₂.script _)))
  refine ⟨{ c with phase := .asking }, _, hbegins.trans (hworks.trans hends),
    ⟨hfixer, hrunning, rfl, hsub⟩,
      h₂.consume _ (h₂.tables.withBroker _) (.refl b _) ?_ rfl h₂.script ?_
      rfl rfl⟩
  · exact h₂.prompt.withBroker h₂.prompt.2
  · have hnext : Broker.nextOffset g.committed = g.committed + 1 := Nat.mod_eq_of_lt hlt
    have hcommitted : m₂.site.broker.committedOffset group plan.topic = g.committed := h₂.committed
    rw [Broker.committedOffset_ack, hsub, if_pos rfl, hcommitted, hnext]
    exact Nat.max_eq_right (Nat.le_succ _)

/-- A consumer handles all reports. -/
theorem Holds.drain (h : g.Holds plan group b t₀ m)
    (hasks : g.consumer.Asks group plan.topic g.committed) (hle : g.committed ≤ g.reports.length)
    (hlength : g.reports.length < UInt64.size) :
    ∃ c m', m.Reaches plan m' ∧ c.Asks group plan.topic g.reports.length ∧
      ({ g with
        target := b.mendAll ((g.reports.drop g.committed).map Report.id) g.target
        consumer := c
        committed := g.reports.length } : Stage ρ).Holds plan group b t₀ m' := by
  generalize hn : g.reports.length - g.committed = n
  induction n generalizing g m with
  | zero =>
    have heq : g.committed = g.reports.length := by omega
    rw [heq, List.drop_length]
    refine ⟨g.consumer, m, .refl plan m, heq ▸ hasks, ?_⟩
    rw [← heq]
    exact h
  | succ n ih =>
    have hlt : g.committed < g.reports.length := by omega
    obtain ⟨c, m₁, hreaches, hasks₁, h₁⟩ := h.handle hasks (List.getElem?_eq_getElem hlt) (by omega)
    obtain ⟨c', m₂, hreaches', hasks₂, h₂⟩ := ih h₁ hasks₁ hlt hlength (by simp only; omega)
    refine ⟨c', m₂, hreaches.trans hreaches', hasks₂, ?_⟩
    rw [List.drop_eq_getElem_cons hlt]
    exact h₂

/-! ## Stages at which all reports are handled -/

/-- A migration is at a stage at which the consumer has handled all reports. -/
structure Rests (plan : Scan.Plan) (group : String) (b t₀ : Table ρ) (g : Stage ρ)
    (m : Migration ρ) : Prop where
  holds : g.Holds plan group b t₀ m
  asks : g.consumer.Asks group plan.topic g.committed
  all : g.committed = g.reports.length

/-- What a pass has found is repaired. -/
theorem Rests.drain (h : g.Rests plan group b t₀ m) {way : Scan.Way} {p : Scan.Pass ρ}
    {found : List (Int × Mismatch)} {m' : Migration ρ}
    (hholds : (g.publish way p (plan.reports found)).Holds plan group b t₀ m')
    (hlength : g.reports.length + found.length < UInt64.size) :
    ∃ (g' : Stage ρ) (m'' : Migration ρ), m'.Reaches plan m'' ∧ g'.Rests plan group b t₀ m'' ∧
      g'.scan = g.scan.setPass p way ∧ g'.reports.length = g.reports.length + found.length ∧
      g'.target = b.mendAll (found.map Prod.fst) g.target := by
  have hreports : (g.publish way p (plan.reports found)).reports.length =
      g.reports.length + found.length := by simp [publish, Scan.Plan.reports]
  obtain ⟨c, m'', hreaches, hasks, hend⟩ := hholds.drain h.asks
    (by rw [hreports, publish, h.all]; exact Nat.le_add_right ..) (hreports ▸ hlength)
  refine ⟨_, m'', hreaches, ⟨hend, hasks, rfl⟩, rfl, hreports, ?_⟩
  simp only [publish, h.all, List.drop_left, Scan.Plan.reports, List.map_map]
  rfl

end Stage

end Cutover
