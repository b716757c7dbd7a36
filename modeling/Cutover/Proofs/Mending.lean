import Cutover.Proofs.Differences
import Cutover.Proofs.Repairs
import Cutover.Proofs.Steady

/-!
# Scans and repairs side by side

A migration whose rows are only scanned and repaired: its consumers repair the rows of reports, and
the reports are those of its scans (`Migration.Mending`). Main statements: each happening mends the
target (`Migration.Mending.perform`), so a whole history does (`Migration.Mending.after`), and while
there is no id under which the two tables differ no message is published.
-/

namespace Cutover

variable {ρ : Type} [Entity ρ]

/-- Whether two tables differ under an id. -/
def Table.Differs (b t : Table ρ) (id : Int) : Prop :=
  Mismatch.between (b.get? id) (t.get? id) ≠ none

/-! ## Passes that compare two tables -/

namespace Scan

/-- What is reported of a page: rows of it that are not the same among the others. -/
theorem Way.exists_of_mem_mismatches {way : Way} {page others : List ρ}
    (h : Rows.Distinct others) {x : Int × Mismatch} (hx : x ∈ way.mismatches page others) :
    ∃ r ∈ page, x.1 = Entity.id r ∧
      match way with
      | .baseToTarget => Mismatch.between (some r) (Rows.first? (Entity.id r) others) ≠ none
      | .targetToBase => Rows.first? (Entity.id r) others = none := by
  rw [way.mismatches_eq h] at hx
  obtain ⟨r, hr, hv⟩ := Way.mem_differences.mp hx
  refine ⟨r, hr, Way.id_of_mem_verdict hv, ?_⟩
  cases way with
  | baseToTarget =>
    obtain ⟨k, hk, -⟩ := Option.map_eq_some_iff.mp hv
    simp [hk]
  | targetToBase =>
    unfold Way.verdict at hv
    split at hv
    · contradiction
    · assumption
    · cases hv

/-- Whether the tables differ under an id, of which the base has a row if it is found there. -/
def Way.Finds (way : Way) (b t₀ : Table ρ) (id : Int) : Prop :=
  b.Differs t₀ id ∧ (way = .baseToTarget → (b.get? id).isSome)

namespace Pass

variable {plan : Plan} {b t t₀ : Table ρ} {p p' : Pass ρ}

/-- A pass that has read rows of two tables only, and reports only ids under which they differ. -/
def Compares (b t₀ : Table ρ) (p : Pass ρ) : Prop :=
  match p.phase with
  | .comparing _ page => ∀ r ∈ page, r ∈ b.rows ∨ p.way = .targetToBase ∧ r ∈ t₀.rows
  | .reporting _ id _ rest => p.way.Finds b t₀ id ∧ ∀ x ∈ rest, p.way.Finds b t₀ x.1
  | _ => True

/-- What a pass finds in its pages differs in the tables from the start. -/
theorem Compares.differs (hrefl : ∀ r : ρ, Entity.agrees r r = true)
    (horigin : b.Mended t₀ t) {page : List ρ} {d : Deployment ρ}
    (hpage : ∀ r ∈ page, r ∈ b.rows ∨ p.way = .targetToBase ∧ r ∈ t₀.rows)
    (hd : d.Tables plan.base b t) :
    ∀ x ∈ p.way.mismatches page (d.store (p.lookupSide plan)).rows, p.way.Finds b t₀ x.1 := by
  intro x hx
  have hbase : (d.store plan.base).rows = b.rows := by rw [Store.rows, hd.source]; rfl
  have htarget : (d.store plan.base.other).rows = t.rows := by rw [Store.rows, hd.target]; rfl
  unfold lookupSide pageSide at hx
  cases hw : p.way with
  | baseToTarget =>
    simp only [hw, htarget] at hx
    obtain ⟨r, hr, hid, hne⟩ := Way.exists_of_mem_mismatches t.distinct hx
    simp only [← Table.get?_eq_first?] at hne
    have hrow : b.get? (Entity.id r) = some r := by
      rcases hpage r hr with hr | ⟨hback, -⟩
      · exact Table.get?_of_mem hr
      · simp [hw] at hback
    rw [hid, Way.Finds, Table.Differs, hrow]
    refine ⟨?_, fun _ => rfl⟩
    rcases horigin (Entity.id r) with heq | heq
    · -- a row agrees with itself
      have hsome : t.get? (Entity.id r) = some r := heq.trans hrow
      simp [hsome, Mismatch.between, hrefl] at hne
    · rwa [← heq]
  | targetToBase =>
    simp only [hw, Comparison.target, Side.other_other, hbase] at hx
    obtain ⟨r, hr, hid, hnone⟩ := Way.exists_of_mem_mismatches b.distinct hx
    have hrow : t₀.get? (Entity.id r) = some r := by
      rcases hpage r hr with hr | ⟨-, hr⟩
      · exact absurd rfl (Rows.first?_eq_none_iff.mp hnone r hr)
      · exact Table.get?_of_mem hr
    have hnone : b.get? (Entity.id r) = none := (b.get?_eq_first? _).trans hnone
    rw [hid, Way.Finds, Table.Differs, hrow, hnone]
    simp [Mismatch.between]

/-- The pages of a pass hold rows of the two tables. -/
theorem Compares.pages (horigin : b.Mended t₀ t) {d : Deployment ρ} (hd : d.Tables plan.base b t) :
    ∀ r ∈ (d.store (p.pageSide plan)).rows, r ∈ b.rows ∨ p.way = .targetToBase ∧ r ∈ t₀.rows := by
  intro r hr
  unfold pageSide at hr
  cases hw : p.way with
  | baseToTarget =>
    simp only [hw, Store.rows, hd.source] at hr
    exact .inl hr
  | targetToBase =>
    simp only [hw, Store.rows, Comparison.target, hd.target] at hr
    have hrow : t.get? (Entity.id r) = some r := Table.get?_of_mem hr
    rcases horigin (Entity.id r) with heq | heq
    · exact .inl (Table.get?_eq_some_iff.mp (heq.symm.trans hrow)).1
    · exact .inr ⟨rfl, (Table.get?_eq_some_iff.mp (heq.symm.trans hrow)).1⟩

/-- A move of a pass changes nothing but what is published, which is about an id under which the
tables differ. -/
theorem Compares.move (hrefl : ∀ r : ρ, Entity.agrees r r = true) {m : Moment}
    {d d' : Deployment ρ} (h : p.Compares b t₀) (horigin : b.Mended t₀ t)
    (hd : d.Tables plan.base b t) (hm : Moved plan m d p d' p') :
    p'.way = p.way ∧ p'.Compares b t₀ ∧
      (d.Alike d' ∨ ∃ id kind, p.way.Finds b t₀ id ∧
        d' = { d with broker := d.broker.append plan.topic (plan.report id kind).encode }) := by
  have h : p.Carries (fun r => r ∈ b.rows ∨ p.way = .targetToBase ∧ r ∈ t₀.rows)
      (fun x => p.way.Finds b t₀ x.1) := h
  obtain ⟨hway, hc⟩ := h.move (Compares.pages horigin hd)
    (fun _ hpage => Compares.differs hrefl horigin hpage hd) hm
  rw [← hway] at hc
  refine ⟨hway, hc, (h.publishes hm).imp_right ?_⟩
  rintro ⟨id, kind, hfinds, heq⟩
  exact ⟨id, kind, hfinds, heq⟩

end Pass

end Scan

/-! ## Consumers that repair -/

/-- The messages of a topic are reports under a side, whose ids can be written. -/
def Broker.Reports (base : Side) (topic : String) (b : Broker) : Prop :=
  ∀ payload ∈ b.log topic, ∃ r : Report, payload = r.encode ∧ r.base = base ∧ IsSmall r.id

theorem Broker.Reports.append {base : Side} {topic : String} {b : Broker} (h : b.Reports base topic)
    {r : Report} (hbase : r.base = base) (hsmall : IsSmall r.id) :
    (b.append topic r.encode).Reports base topic := by
  intro payload hp
  rw [Broker.log_append, if_pos rfl] at hp
  rcases List.mem_append.mp hp with hp | hp
  · exact h payload hp
  · exact ⟨r, List.mem_singleton.mp hp, hbase, hsmall⟩

namespace Consumer

variable {base : Side} {topic : String} {b t t' : Table ρ} {d d' : Deployment ρ}
  {c c' : Consumer ρ}

/-- A consumer that repairs the rows of the reports of a topic. -/
structure Mends (topic : String) (base : Side) (b t : Table ρ) (c : Consumer ρ) : Prop where
  fixer : c.handler = .fixer
  subscribed : c.subscription.topic = topic
  handling : ∀ message work due, c.phase = .handling message work due →
    ∃ report r, Report.decode? message.payload = some report ∧ work = .repair r ∧
      r.id = report.id ∧ r.Faithful base b t

theorem Mends.mend (h : c.Mends topic base b t) (hm : b.Mended t t') :
    c.Mends topic base b t' := by
  refine ⟨h.fixer, h.subscribed, fun message work due hph => ?_⟩
  obtain ⟨report, r, hreport, hwork, hid, hr⟩ := h.handling message work due hph
  exact ⟨report, r, hreport, hwork, hid, hr.mend hm⟩

theorem Mends.kept (h : c.Mends topic base b t) (hk : c.Kept c') : c'.Mends topic base b t := by
  obtain ⟨hsub, hhandler, hphase⟩ := hk
  refine ⟨hhandler ▸ h.fixer, hsub ▸ h.subscribed, fun message work due hph => ?_⟩
  rcases hphase with heq | heq
  · exact h.handling message work due (heq ▸ hph)
  · rw [heq] at hph
    cases hph

/-- A move of a consumer that repairs mends the target, and publishes nothing. -/
theorem Mends.move (h : c.Mends topic base b t) (hd : d.Tables base b t)
    (hlog : d.broker.Reports base topic) (hm : c.Moved d d' c') :
    ∃ t', d'.Tables base b t' ∧ b.Mended t t' ∧ c'.Mends topic base b t' ∧
      d'.broker.topics = d.broker.topics ∧ d'.policy = d.policy := by
  obtain ⟨hfixer, hsub, hhandling⟩ := h
  cases hm with
  | ended => exact ⟨t, hd, .refl b t, ⟨hfixer, hsub, fun _ _ _ hph => by cases hph⟩, rfl, rfl⟩
  | idled _ _ hidle hq =>
    refine ⟨t, hd.withBroker _, .refl b t, ⟨hfixer, hsub, fun _ _ _ hph => ?_⟩, hq.topics, rfl⟩
    exact absurd ⟨_, _, _, hph⟩ hidle
  | @skipped message subscription _ hpoll _ =>
    obtain ⟨broker, heq, htopics, -⟩ := acknowledge_spec d { c with subscription } message
    obtain ⟨-, -, rfl⟩ := poll_eq_message hpoll
    rw [heq]
    exact ⟨t, hd.withBroker _, .refl b t, ⟨hfixer, hsub, fun _ _ _ hph => by cases hph⟩, htopics,
      rfl⟩
  | @began message subscription id work handler due log _ hpoll hsome =>
    obtain ⟨-, hat, rfl⟩ := poll_eq_message hpoll
    rw [hfixer] at hsome
    obtain ⟨report, hreport, heq⟩ := Option.map_eq_some_iff.mp hsome
    cases heq
    -- the message is a report, under the side of the base
    rw [hsub] at hat
    obtain ⟨r, hr, hbase, hsmall⟩ := hlog _ (List.mem_of_getElem? hat)
    rw [hr, Report.decode?_encode hsmall] at hreport
    cases hreport
    refine ⟨t, hd, .refl b t, ⟨rfl, hsub, fun _ _ _ hph => ?_⟩, rfl, rfl⟩
    cases hph
    exact ⟨report, _, by rw [hr, Report.decode?_encode hsmall], rfl, rfl, hbase, by simp, trivial⟩
  | worked hph _ hstep =>
    obtain ⟨report, r, hreport, rfl, hid, hr⟩ := hhandling _ _ _ hph
    obtain ⟨⟨e, r'⟩, hrstep, heq⟩ := Option.map_eq_some_iff.mp hstep
    cases heq
    obtain ⟨t', hd', ht', hr', hid', ha, hpolicy⟩ := hr.move hd (Repair.moved_of_step hrstep)
    have hmend : b.Mended t t' := by
      rcases ht' with rfl | rfl
      · exact .refl b t'
      · exact .mend b t r.id
    refine ⟨t', hd', hmend, ⟨hfixer, hsub, fun _ _ _ hph' => ?_⟩, ha.topics, hpolicy⟩
    cases hph'
    exact ⟨report, r', hreport, rfl, hid'.trans hid, hr'⟩
  | @succeeded message _ _ _ _ =>
    obtain ⟨broker, heq, htopics, -⟩ := acknowledge_spec d c message
    rw [heq]
    exact ⟨t, hd.withBroker _, .refl b t, ⟨hfixer, hsub, fun _ _ _ hph => by cases hph⟩, htopics,
      rfl⟩
  | @failed message _ _ _ =>
    obtain ⟨broker, s, heq, htopics, -, -, -, hs, -⟩ := goBack_spec d c message
    rw [heq]
    exact ⟨t, hd.withBroker _, .refl b t,
      ⟨hfixer, hs.trans hsub, fun _ _ _ hph => by cases hph⟩, htopics, rfl⟩

end Consumer

/-! ## Migrations that repair -/

/-- Something that happens while rows are only scanned and repaired: the repairs are those of
consumers of a topic, which may start, stop and be aborted, and stores and broker may fail. -/
def Happening.IsRepair (topic : String) : Happening ρ → Prop
  | turn _ | time _ | stopJob _ | stop _ | abort _ | plan _ _ | planBroker _ => True
  | join handler _ topic' _ _ _ => handler = .fixer ∧ topic' = topic
  | _ => False

namespace Migration

/-- The plan of a full scan that starts now. -/
def fullPlan (m : Migration ρ) : Scan.Plan := .ofSide m.config m.site.policy.primary none .oneShot

/-- A migration between a base with the rows of `b` and a target that had those of `t₀` and has
those of `t`, in which rows are only scanned and repaired. -/
structure Mending (plan : Scan.Plan) (b t₀ t : Table ρ) (m : Migration ρ) : Prop where
  planned : m.fullPlan = plan
  tables : m.site.Tables plan.base b t
  origin : b.Mended t₀ t
  reports : m.site.broker.Reports plan.base plan.topic
  jobs : ∀ j ∈ m.scheduler.jobs, j.scan.plan = plan ∧ (j.scan.isOver = false → ∀ way,
    (j.scan.pass way).way = way ∧ (j.scan.pass way).Compares b t₀)
  consumers : ∀ c ∈ m.consumers, c.Mends plan.topic plan.base b t
  runs : m.runs = []
  posts : m.posts = []

namespace Mending

variable {plan : Scan.Plan} {b t₀ t t' : Table ρ} {m m' : Migration ρ} {x : Happening ρ}

theorem tag_eq (h : Mending plan b t₀ t m) : plan.tag = plan.base := by
  rw [← h.planned]
  rfl

/-- The migration with other parts that the invariant says nothing about. -/
private theorem alike (h : Mending plan b t₀ t m) (ha : m.site.Alike m'.site)
    (hconfig : m'.config = m.config) (hjobs : m'.scheduler.jobs = m.scheduler.jobs)
    (hconsumers : ∀ c' ∈ m'.consumers, ∃ c ∈ m.consumers, c.Kept c') (hruns : m'.runs = m.runs)
    (hposts : m'.posts = m.posts) : Mending plan b t₀ t m' := by
  refine ⟨?_, h.tables.alike ha, h.origin, ?_, hjobs ▸ h.jobs, fun c' hc' => ?_, hruns ▸ h.runs,
    hposts ▸ h.posts⟩
  · rw [fullPlan, hconfig, ha.policy]
    exact h.planned
  · intro payload hp
    rw [ha.broker.log] at hp
    exact h.reports payload hp
  · obtain ⟨c, hc, hk⟩ := hconsumers c' hc'
    exact (h.consumers c hc).kept hk

/-- A turn mends the target. It publishes nothing if the tables do not differ. -/
theorem turn (hrefl : ∀ r : ρ, Entity.agrees r r = true)
    (hsmall : ∀ id, b.Differs t₀ id → IsSmall id) {turn : Turn} (h : Mending plan b t₀ t m)
    (hm : Moved m turn m') :
    ∃ t', Mending plan b t₀ t' m' ∧ b.Mended t t' ∧
      ((∀ id, ¬ b.Differs t₀ id) → m'.site.broker.topics = m.site.broker.topics) := by
  cases hm with
  | @job n way j d' p hj _ hrunning hp =>
    obtain ⟨hplan, hpasses⟩ := h.jobs j (List.mem_of_getElem? hj)
    obtain ⟨hway, hcompares⟩ := hpasses hrunning way
    rw [hplan] at hp
    obtain ⟨hway', hcompares', hd⟩ := hcompares.move hrefl h.origin h.tables hp
    have hjobs : ∀ j' ∈ m.scheduler.jobs.set n { j with scan := j.scan.setPass p way },
        j'.scan.plan = plan ∧ (j'.scan.isOver = false → ∀ way,
          (j'.scan.pass way).way = way ∧ (j'.scan.pass way).Compares b t₀) := by
      intro j' hj'
      rcases List.mem_or_eq_of_mem_set hj' with hj' | rfl
      · exact h.jobs j' hj'
      · refine ⟨by simpa using hplan, fun _ other => ?_⟩
        dsimp only
        rw [Scan.pass_setPass]
        split
        · next heq => exact ⟨by rw [hway', hway, heq], hcompares'⟩
        · exact hpasses hrunning other
    rcases hd with ha | ⟨id, kind, ⟨hdiffers, -⟩, rfl⟩
    · refine ⟨t, ⟨?_, h.tables.alike ha, h.origin, ?_, hjobs, h.consumers, h.runs, h.posts⟩,
        .refl b t, fun _ => ha.broker.topics⟩
      · rw [← h.planned, fullPlan, fullPlan, ha.policy]
      · intro payload hpayload
        rw [ha.broker.log] at hpayload
        exact h.reports payload hpayload
    · exact ⟨t, ⟨h.planned, h.tables.withBroker _, h.origin,
        h.reports.append h.tag_eq (hsmall id hdiffers), hjobs, h.consumers, h.runs, h.posts⟩,
        .refl b t, fun hnone => absurd hdiffers (hnone id)⟩
  | @consumer n c d' c' hc hmove =>
    have hmem := List.mem_of_getElem? hc
    obtain ⟨t', hd', hmend, hc', htopics, hpolicy⟩ :=
      (h.consumers c hmem).move h.tables h.reports hmove
    refine ⟨t', ⟨?_, hd', h.origin.trans hmend, ?_, h.jobs, fun x hx => ?_, h.runs, h.posts⟩, hmend,
      fun _ => htopics⟩
    · rw [← h.planned, fullPlan, fullPlan, hpolicy]
    · intro payload hpayload
      rw [Broker.log_congr htopics] at hpayload
      exact h.reports payload hpayload
    · rcases List.mem_or_eq_of_mem_set hx with hx | rfl
      · exact (h.consumers x hx).mend hmend
      · exact hc'
  | run hr => simp [h.runs] at hr
  | post hp => simp [h.posts] at hp

/-- Whatever happens mends the target. Nothing is published if the tables do not differ. -/
theorem perform (hrefl : ∀ r : ρ, Entity.agrees r r = true)
    (hsmall : ∀ id, b.Differs t₀ id → IsSmall id) (h : Mending plan b t₀ t m)
    (hx : x.IsRepair plan.topic) :
    ∃ t', Mending plan b t₀ t' (m.perform x) ∧ b.Mended t t' ∧
      ((∀ id, ¬ b.Differs t₀ id) → (m.perform x).site.broker.topics = m.site.broker.topics) := by
  have kept (c : Consumer ρ) (hc : c ∈ m.consumers) : ∃ c' ∈ m.consumers, c'.Kept c :=
    ⟨c, hc, .refl c⟩
  have unchanged (hm' : Mending plan b t₀ t (m.perform x))
      (ht : (m.perform x).site.broker.topics = m.site.broker.topics) :
      ∃ t', Mending plan b t₀ t' (m.perform x) ∧ b.Mended t t' ∧
        ((∀ id, ¬ b.Differs t₀ id) → (m.perform x).site.broker.topics = m.site.broker.topics) :=
    ⟨t, hm', .refl b t, fun _ => ht⟩
  cases x with
  | turn turn =>
    rcases m.perform_turn turn with heq | ⟨_, rfl, hmoved⟩
    · rw [heq]
      exact ⟨t, h, .refl b t, fun _ => rfl⟩
    · exact h.turn hrefl hsmall hmoved
  | time now => exact unchanged (h.alike (.refl _) rfl rfl kept rfl rfl) rfl
  | stopJob n =>
    refine unchanged ⟨h.planned, h.tables, h.origin, h.reports, fun j' hj' => ?_, h.consumers,
      h.runs, h.posts⟩ rfl
    obtain ⟨i, hi⟩ := List.mem_iff_getElem?.mp hj'
    simp only [Migration.perform, Migration.stopJob, Scheduler.stopJob, List.getElem?_modify] at hi
    obtain ⟨j, hj, rfl⟩ := Option.map_eq_some_iff.mp hi
    have := h.jobs j (List.mem_of_getElem? hj)
    split <;> exact this
  | stop n =>
    exact unchanged (h.alike (.refl _) rfl rfl (kept_modify fun c =>
      ⟨rfl, rfl, .inl rfl⟩) rfl rfl) rfl
  | abort n =>
    exact unchanged (h.alike (.refl _) rfl rfl (kept_modify fun c =>
      ⟨rfl, rfl, .inr rfl⟩) rfl rfl) rfl
  | plan side faults =>
    exact unchanged (h.alike (m.site.alike_setFaults side faults) rfl rfl kept rfl rfl)
      (m.site.alike_setFaults side faults).broker.topics
  | planBroker faults =>
    exact unchanged (h.alike (m.site.alike_setBrokerFaults faults) rfl rfl kept rfl rfl) rfl
  | join handler group topic limit backoff stopped =>
    obtain ⟨rfl, rfl⟩ := hx
    obtain ⟨broker, hq, heq⟩ := m.startConsumer_cases .fixer group plan.topic limit backoff stopped
    have hplanned : (m.setBroker broker).fullPlan = plan := h.planned
    have hreports : broker.Reports plan.base plan.topic := by
      intro payload hp
      rw [hq.log] at hp
      exact h.reports payload hp
    simp only [Migration.perform]
    rcases heq with heq | heq
    · rw [heq]
      exact ⟨t, ⟨hplanned, h.tables.withBroker _, h.origin, hreports, h.jobs, h.consumers, h.runs,
        h.posts⟩, .refl b t, fun _ => hq.topics⟩
    · rw [heq]
      refine ⟨t, ⟨hplanned, h.tables.withBroker _, h.origin, hreports, h.jobs, fun c hc => ?_,
        h.runs, h.posts⟩, .refl b t, fun _ => hq.topics⟩
      rcases List.mem_append.mp hc with hc | hc
      · exact h.consumers c hc
      · obtain rfl := List.mem_singleton.mp hc
        exact ⟨rfl, rfl, fun _ _ _ hph => by cases hph⟩
  | order | startRun | stopRun | post | edit | close => exact hx.elim

/-- A history mends the target. Nothing is published if the tables do not differ. -/
theorem after (hrefl : ∀ r : ρ, Entity.agrees r r = true)
    (hsmall : ∀ id, b.Differs t₀ id → IsSmall id) {history : List (Happening ρ)}
    (h : Mending plan b t₀ t m) (hhistory : ∀ x ∈ history, x.IsRepair plan.topic) :
    ∃ t', Mending plan b t₀ t' (m.after history) ∧ b.Mended t t' ∧
      ((∀ id, ¬ b.Differs t₀ id) →
        (m.after history).site.broker.topics = m.site.broker.topics) := by
  induction history generalizing m t with
  | nil => exact ⟨t, h, .refl b t, fun _ => rfl⟩
  | cons x rest ih =>
    obtain ⟨hx, hrest⟩ := List.forall_mem_cons.mp hhistory
    obtain ⟨t', h', hmend, htopics⟩ := h.perform hrefl hsmall hx
    obtain ⟨t'', h'', hmend', htopics'⟩ := ih h' hrest
    exact ⟨t'', h'', hmend.trans hmend', fun hnone => (htopics' hnone).trans (htopics hnone)⟩

end Mending

end Migration

end Cutover
