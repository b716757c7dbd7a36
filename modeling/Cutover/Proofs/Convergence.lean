import Cutover.Proofs.Deliveries
import Cutover.Proofs.Mending
import Cutover.Proofs.RowChecks

/-!
# Convergence

A scan that runs to its end and the consumers that repair what it reports make the target equal to
the base. The scan runs a course of its own (`Migration.Scanning`), so it reports each difference; a
report below the committed offset was handled with success, so its row was mended
(`Migration.Mending.mended_of_reported`). Main statement: `Migration.converges`.
-/

namespace Cutover

variable {ρ : Type} [Entity ρ]

namespace Migration

/-- A migration between two tables, when nothing has happened yet. -/
def ofRows (config : Config) (src dst : List ρ) (policy : Policy) : Migration ρ where
  config
  site := .ofRows src dst policy

/-- The migration after a full scan has started. -/
def startFull (m : Migration ρ) : Migration ρ :=
  { m with scheduler := m.scheduler.launch m.config .full m.fullPlan }

theorem obey_startFull {m : Migration ρ} (h : m.config.validate = .ok ()) :
    m.obey .startFull = .ok (some m.scheduler.jobs.length, m.startFull) := by
  unfold obey
  rw [h]
  rfl

theorem log_perform (m : Migration ρ) (x : Happening ρ) (topic : String) :
    m.site.broker.log topic <+: (m.perform x).site.broker.log topic := by
  have h := m.stirred_perform x
  revert h
  generalize m.perform x = m'
  intro h
  cases h with
  | moved _ hmove => exact hmove.log topic
  | kept hg => exact hg.log topic
  | joined hg => exact hg.log topic

theorem log_after (m : Migration ρ) (history : List (Happening ρ)) (topic : String) :
    m.site.broker.log topic <+: (m.after history).site.broker.log topic := by
  induction history generalizing m with
  | nil => exact List.prefix_refl _
  | cons x rest ih => exact (m.log_perform x topic).trans (ih (m.perform x))

/-- An only job that does not run has ended. -/
theorem finished_of_status {m : Migration ρ} {j : Job ρ} (hjobs : m.scheduler.jobs = [j])
    (hstatus : m.scheduler.jobStatus? 0 = some ⟨0, .full, false, false⟩) :
    ∀ j ∈ m.scheduler.jobs, j.isFinished := by
  intro j' hj'
  rw [hjobs] at hj'
  obtain rfl := List.mem_singleton.mp hj'
  obtain ⟨-, -, hdone⟩ : j'.kind = .full ∧ j'.stopped = false ∧ j'.isFinished = true := by
    simpa [Scheduler.jobStatus?, hjobs] using hstatus
  exact hdone

theorem jobs_startFull (config : Config) (src dst : List ρ) (policy : Policy) :
    (ofRows config src dst policy).startFull.scheduler.jobs =
      [{ kind := .full, scan := { plan := (ofRows config src dst policy).fullPlan } }] := by
  -- there is no job to wait for
  cases haw : config.awaitPreviousJob <;>
    simp [startFull, Scheduler.launch, Scheduler.setCurrent, Scheduler.stopCurrent,
      Scheduler.current, ofRows, haw]

/-! ## Scans that run alone -/

end Migration

/-- Something that happens while one scan runs alone, and no call takes longer than a limit. -/
def Happening.IsScanning (limit : Nat) : Happening ρ → Prop
  | turn _ | time _ => True
  | plan _ faults | planBroker faults => faults.Prompt limit
  | _ => False

theorem Happening.IsScanning.isRepair {limit : Nat} {topic : String} {x : Happening ρ}
    (h : x.IsScanning limit) : x.IsRepair topic := by
  cases x with
  | turn | time | plan | planBroker => trivial
  | _ => exact h.elim

namespace Migration

/-- A migration with one job, whose scan runs a course of its own. -/
structure Scanning (limit : Nat) (d₀ : Deployment ρ) (s₀ : Scan ρ) (m : Migration ρ) : Prop where
  course : ∃ n s, Deployment.Course limit Scan.stepWay d₀ s₀ n m.site s ∧
    m.scheduler.jobs = [{ kind := .full, scan := s }]
  consumers : m.consumers = []
  runs : m.runs = []
  posts : m.posts = []

namespace Scanning

variable {limit : Nat} {d₀ : Deployment ρ} {s₀ : Scan ρ} {m : Migration ρ} {x : Happening ρ}

theorem perform (h : Scanning limit d₀ s₀ m) (hx : x.IsScanning limit) :
    Scanning limit d₀ s₀ (m.perform x) := by
  obtain ⟨⟨n, s, hcourse, hjobs⟩, hconsumers, hruns, hposts⟩ := h
  cases x with
  | turn t =>
    simp only [Migration.perform]
    cases hmove : m.move t with
    | none => exact ⟨⟨n, s, hcourse, hjobs⟩, hconsumers, hruns, hposts⟩
    | some m' =>
      cases t with
      | job i way =>
        obtain ⟨j, hj, hmove⟩ := Option.bind_eq_some_iff.mp hmove
        obtain ⟨⟨d, j'⟩, hstep, hmove⟩ := Option.bind_eq_some_iff.mp hmove
        cases hmove
        rw [hjobs] at hj
        cases i with
        | succ i => simp at hj
        | zero =>
          cases hj
          obtain ⟨⟨e, s'⟩, hway, heq⟩ := Option.map_eq_some_iff.mp hstep
          cases heq
          refine ⟨⟨n + 1, s', hcourse.move way m.now hway, ?_⟩, hconsumers, hruns, hposts⟩
          simp [hjobs]
      | consumer i => simp [move, hconsumers] at hmove
      | run i way => simp [move, hruns] at hmove
      | post i => simp [move, hposts] at hmove
  | time now => exact ⟨⟨n, s, hcourse, hjobs⟩, hconsumers, hruns, hposts⟩
  | plan side faults =>
    exact ⟨⟨n, s, hcourse.retime (.store side hx), hjobs⟩, hconsumers, hruns, hposts⟩
  | planBroker faults =>
    exact ⟨⟨n, s, hcourse.retime (.broker hx), hjobs⟩, hconsumers, hruns, hposts⟩
  | _ => exact hx.elim

theorem after {history : List (Happening ρ)} (h : Scanning limit d₀ s₀ m)
    (hhistory : ∀ x ∈ history, x.IsScanning limit) : Scanning limit d₀ s₀ (m.after history) := by
  induction history generalizing m with
  | nil => exact h
  | cons x rest ih =>
    obtain ⟨hx, hrest⟩ := List.forall_mem_cons.mp hhistory
    exact ih (h.perform hx) hrest

/-- A scan that has run alone to its end has reported each id under which the stores differ. -/
theorem reported {plan : Scan.Plan} (h : Scanning plan.callLimit d₀ { plan } m)
    (hs : Scan.Sound plan d₀) (hbatch : 0 < plan.batch) (hmode : plan.mode = .oneShot)
    (hsince : plan.since = none) (hfinished : ∀ j ∈ m.scheduler.jobs, j.isFinished) {id : Int}
    (hid : Mismatch.between (Rows.first? id (d₀.store plan.base).rows)
      (Rows.first? id (d₀.store plan.target).rows) ≠ none) :
    ∃ r : Report, r.id = id ∧ r.encode ∈ m.site.broker.log plan.topic := by
  obtain ⟨⟨n, s, hcourse, hjobs⟩, -, -, -⟩ := h
  obtain ⟨kind, hkind⟩ := Option.ne_none_iff_exists'.mp hid
  have hover : s.isOver = true := hfinished { kind := .full, scan := s } (by simp [hjobs])
  obtain ⟨x, hx⟩ := Scan.exists_result_of_isOver hover
    (Scan.steady_course hs hbatch hmode hsince hcourse).isBroken
  obtain ⟨-, -, ⟨published, hperm, hlog⟩, -⟩ :=
    (Scan.concludes hs hbatch hmode hsince).succeeds _ _ _ _ hcourse hx
  refine ⟨plan.report id kind, rfl, ?_⟩
  rw [hlog]
  refine List.mem_append_right _ (List.mem_map_of_mem (hperm.mem_iff.mpr ?_))
  exact (Scan.mem_allReports hs).mpr ⟨rfl,
    (Report.isRight_iff (hs.distinct _) (hs.distinct _) _).mpr hkind⟩

end Scanning

theorem scanning_startFull (config : Config) (src dst : List ρ) (policy : Policy) :
    Scanning (ofRows config src dst policy).fullPlan.callLimit (.ofRows src dst policy)
      { plan := (ofRows config src dst policy).fullPlan }
        (ofRows config src dst policy).startFull :=
  ⟨⟨0, _, .start, jobs_startFull config src dst policy⟩, rfl, rfl, rfl⟩

/-! ## Jobs that have ended -/

/-- A job that has ended does not start again. -/
theorem finished_perform {m : Migration ρ} {topic : String} {x : Happening ρ}
    (h : ∀ j ∈ m.scheduler.jobs, j.isFinished) (hx : x.IsRepair topic) :
    ∀ j ∈ (m.perform x).scheduler.jobs, j.isFinished := by
  cases x with
  | turn t =>
    rcases m.perform_turn t with heq | ⟨m', heq, hmoved⟩
    · rwa [heq]
    · rw [heq]
      cases hmoved with
      | job hj _ hrunning _ =>
        have := h _ (List.mem_of_getElem? hj)
        rw [Job.isFinished, hrunning] at this
        cases this
      | consumer | run | post => exact h
  | stopJob n =>
    intro j' hj'
    obtain ⟨i, hi⟩ := List.mem_iff_getElem?.mp hj'
    simp only [perform, stopJob, Scheduler.stopJob, List.getElem?_modify] at hi
    obtain ⟨j, hj, rfl⟩ := Option.map_eq_some_iff.mp hi
    have := h j (List.mem_of_getElem? hj)
    split <;> exact this
  | join handler group topic limit backoff stopped =>
    simp only [perform]
    obtain ⟨_, -, heq | heq⟩ := m.startConsumer_cases handler group topic limit backoff stopped
    · rw [heq]
      exact h
    · rw [heq]
      exact h
  | time | stop | abort | plan | planBroker => exact h
  | _ => exact hx.elim

theorem finished_after {m : Migration ρ} {topic : String} {history : List (Happening ρ)}
    (h : ∀ j ∈ m.scheduler.jobs, j.isFinished) (hhistory : ∀ x ∈ history, x.IsRepair topic) :
    ∀ j ∈ (m.after history).scheduler.jobs, j.isFinished := by
  induction history generalizing m with
  | nil => exact h
  | cons x rest ih =>
    obtain ⟨hx, hrest⟩ := List.forall_mem_cons.mp hhistory
    exact ih (finished_perform h hx) hrest

/-- The jobs after a start are those from before, perhaps asked to stop, and one that starts. -/
theorem scan_of_mem_startFull {m : Migration ρ} {j : Job ρ} (h : j ∈ m.startFull.scheduler.jobs) :
    (∃ j₀ ∈ m.scheduler.jobs, j.scan = j₀.scan) ∨ j.scan = { plan := m.fullPlan } := by
  simp only [startFull, Scheduler.launch, Scheduler.setCurrent] at h
  rcases List.mem_append.mp h with h | h
  · refine .inl ?_
    unfold Scheduler.stopCurrent at h
    split at h
    · exact ⟨j, h, rfl⟩
    · obtain ⟨i, hi⟩ := List.mem_iff_getElem?.mp h
      simp only [Scheduler.stopJob, List.getElem?_modify] at hi
      obtain ⟨j₀, hj₀, rfl⟩ := Option.map_eq_some_iff.mp hi
      refine ⟨j₀, List.mem_of_getElem? hj₀, ?_⟩
      split <;> rfl
  · exact .inr (congrArg Job.scan (List.mem_singleton.mp h))

/-! ## Rows that were reported -/

namespace Mending

variable {plan : Scan.Plan} {b t₀ t t' : Table ρ} {m : Migration ρ}

theorem startFull (h : Mending plan b t₀ t m) : Mending plan b t₀ t m.startFull := by
  refine ⟨h.planned, h.tables, h.origin, h.reports, fun j hj => ?_, h.consumers, h.runs, h.posts⟩
  rcases scan_of_mem_startFull hj with ⟨j₀, hj₀, heq⟩ | heq
  · rw [heq]
    exact h.jobs j₀ hj₀
  · rw [heq]
    exact ⟨h.planned, fun _ way => by cases way <;> exact ⟨rfl, trivial⟩⟩

theorem eq_of_target (h : Mending plan b t₀ t m) (h' : Mending plan b t₀ t' m) : t = t' := by
  have := h.tables.target.symm.trans h'.tables.target
  exact Contents.table.inj this

/-- When a group has committed all reports, each reported id has in the target what it has in the
base. -/
theorem mended_of_reported (hrefl : ∀ r : ρ, Entity.agrees r r = true)
    (hsmall : ∀ id, b.Differs t₀ id → IsSmall id) (h : Mending plan b t₀ t₀ m)
    (hconsumers : m.consumers = []) (group : String)
    (hcommitted : m.site.broker.committedOffset group plan.topic = 0)
    (hrewind : m.site.broker.script.getD .rewind [] = []) {history : List (Happening ρ)}
    (hhistory : ∀ x ∈ history, x.IsRepair plan.topic) (h' : Mending plan b t₀ t (m.after history))
    (hall : (m.after history).site.broker.committedOffset group plan.topic =
      ((m.after history).site.broker.log plan.topic).length) {r : Report}
    (hr : r.encode ∈ (m.after history).site.broker.log plan.topic) (hid : IsSmall r.id) :
    t.get? r.id = b.get? r.id := by
  obtain ⟨i, hi⟩ := List.mem_iff_getElem?.mp hr
  have ha : m.Accounted group plan.topic
      (fun payload => (Report.decode? payload).isSome) history := by
    refine accounted_after hcommitted (by simp [hconsumers]) hrewind ?_
    intro handler limit backoff stopped hmem
    obtain ⟨rfl, -⟩ := hhistory _ hmem
    rfl
  have hlt := (List.getElem?_eq_some_iff.mp hi).1
  rcases ha.committed i (hall ▸ hlt) _ hi with hread | ⟨past, hpast, c, hc, -, work, due, hph, hres⟩
  · simp [Report.decode?_encode hid] at hread
  · -- the repair had mended the id when it succeeded, and the id keeps what it has
    obtain ⟨rest, rfl⟩ := hpast
    have hpast : ∀ x ∈ past, x.IsRepair plan.topic := fun x hx =>
      hhistory x (List.mem_append_left _ hx)
    obtain ⟨u, hu, -⟩ := h.after hrefl hsmall hpast
    have hrest : ∀ x ∈ rest, x.IsRepair plan.topic := fun x hx =>
      hhistory x (List.mem_append_right _ hx)
    obtain ⟨t', ht', hmended, -⟩ := hu.after hrefl hsmall hrest
    rw [← after_append] at ht'
    obtain ⟨report, repair, hreport, rfl, hrepair, hfaithful⟩ :=
      (hu.consumers c hc).handling _ _ _ hph
    rw [Report.decode?_encode hid] at hreport
    cases hreport
    have hdone := hfaithful.phase
    rw [Repair.phase_of_result? hres] at hdone
    rw [h'.eq_of_target ht', ← hrepair]
    exact hmended.keep hdone

/-- If the target has the rows of the base and no job runs, a full scan that starts publishes
nothing. -/
theorem silent (hrefl : ∀ r : ρ, Entity.agrees r r = true) (h : Mending plan b t₀ b m)
    (hvalid : m.config.validate = .ok ()) (hfinished : ∀ j ∈ m.scheduler.jobs, j.isFinished) :
    ∃ k m', m.obey .startFull = .ok (some k, m') ∧
      ∀ more : List (Happening ρ), (∀ x ∈ more, x.IsRepair plan.topic) →
        ∀ topic, (m'.after more).site.broker.log topic = m.site.broker.log topic := by
  have hsame (id : Int) : ¬ b.Differs b id := by
    intro hne
    cases hid : b.get? id with
    | none => simp [Table.Differs, hid, Mismatch.between] at hne
    | some r => simp [Table.Differs, hid, Mismatch.between, hrefl] at hne
  have hb : Mending plan b b b m := by
    refine ⟨h.planned, h.tables, .refl b b, h.reports, fun j hj => ⟨(h.jobs j hj).1, fun hr => ?_⟩,
      h.consumers, h.runs, h.posts⟩
    have := hfinished j hj
    rw [Job.isFinished, hr] at this
    cases this
  refine ⟨_, _, obey_startFull hvalid, fun more hmore topic => ?_⟩
  obtain ⟨-, -, -, htopics⟩ :=
    hb.startFull.after hrefl (fun id hid => absurd hid (hsame id)) hmore
  exact Broker.log_congr (htopics hsame) topic

end Mending

/-! ## From start to end -/

section

variable {config : Config} {src dst : List ρ} {policy : Policy}

theorem mending_ofRows (config : Config) {b t : Table ρ}
    (hb : ((ofRows config src dst policy).site.store policy.primary).contents = .table b)
    (ht : ((ofRows config src dst policy).site.store policy.primary.other).contents = .table t) :
    Mending (ofRows config src dst policy).fullPlan b t t (ofRows config src dst policy) := by
  refine ⟨rfl, ⟨hb, ht, fun side op => ?_⟩, .refl b t, fun payload hp => ?_, fun j hj => ?_,
    fun c hc => ?_, rfl, rfl⟩
  · cases side <;> rfl
  · exact absurd hp List.not_mem_nil
  · exact absurd hj List.not_mem_nil
  · exact absurd hc List.not_mem_nil

theorem table_ofRows (config : Config) (src dst : List ρ) (policy : Policy) (side : Side) :
    ∃ t : Table ρ, ((ofRows config src dst policy).site.store side).contents = .table t := by
  cases side <;> exact ⟨_, rfl⟩

theorem get?_eq_of_not_differs (hagrees : ∀ r s : ρ, Entity.agrees r s = true ↔ r = s)
    {b t : Table ρ} {id : Int} (h : ¬ b.Differs t id) : t.get? id = b.get? id := by
  obtain ⟨hsome, hsame⟩ := Mismatch.between_eq_none_iff.mp (Classical.not_not.mp h)
  cases hb : b.get? id with
  | none => simpa [hb] using hsome.symm
  | some r =>
    obtain ⟨s, hs⟩ := Option.isSome_iff_exists.mp (hsome ▸ (by rw [hb]; rfl) : (t.get? id).isSome)
    rw [hs, (hagrees r s).mp (hsame r hb s hs)]

/-- Ids under which the tables of two stores differ are ids of their rows. -/
theorem isSmall_of_differs {d : Deployment ρ} {side : Side} {b t : Table ρ}
    (hsmall : ∀ side, ∀ r ∈ (d.store side).rows, IsSmall (Entity.id r))
    (hb : (d.store side).contents = .table b) (ht : (d.store side.other).contents = .table t)
    {id : Int} (h : b.Differs t id) : IsSmall id := by
  cases hbid : b.get? id with
  | some r =>
    obtain ⟨hr, rfl⟩ := Table.get?_eq_some_iff.mp hbid
    exact hsmall side r (by rwa [Store.rows, hb])
  | none =>
    cases htid : t.get? id with
    | some r =>
      obtain ⟨hr, rfl⟩ := Table.get?_eq_some_iff.mp htid
      exact hsmall side.other r (by rwa [Store.rows, ht])
    | none => exact absurd (by rw [hbid, htid]; rfl) h

/-- One full scan to its end without faults, and then consumers that repair, with whatever faults
and restarts: when the group has committed all reports, the target has the rows of the base, the
base is as it was, and another full scan publishes nothing. -/
theorem converges (hagrees : ∀ r s : ρ, Entity.agrees r s = true ↔ r = s)
    (hvalid : config.validate = .ok ())
    (hsize : ∀ side, ((Deployment.ofRows src dst policy).store side).rows.length < UInt64.size)
    (hsmall : ∀ side, ∀ r ∈ ((Deployment.ofRows src dst policy).store side).rows,
      IsSmall (Entity.id r)) :
    ∃ n m₁, (ofRows config src dst policy).obey .startFull = .ok (some n, m₁) ∧
      ∀ scanning : List (Happening ρ),
        (∀ x ∈ scanning, x.IsScanning config.callTimeout.ticks) →
        (m₁.after scanning).scheduler.jobStatus? n = some ⟨n, .full, false, false⟩ →
      ∀ repairing : List (Happening ρ), (∀ x ∈ repairing, x.IsRepair config.inconsistencyTopic) →
      ∀ m₂, m₂ = (m₁.after scanning).after repairing →
        m₂.site.broker.committedOffset config.fixGroup config.inconsistencyTopic =
          (m₂.site.broker.log config.inconsistencyTopic).length →
        (m₂.site.store policy.primary.other).rows = (m₂.site.store policy.primary).rows ∧
          (m₂.site.store policy.primary).rows =
            ((Deployment.ofRows src dst policy).store policy.primary).rows ∧
          ∃ k m₃, m₂.obey .startFull = .ok (some k, m₃) ∧
            ∀ more : List (Happening ρ), (∀ x ∈ more, x.IsRepair config.inconsistencyTopic) →
              ∀ topic, (m₃.after more).site.broker.log topic = m₂.site.broker.log topic := by
  have hrefl (r : ρ) : Entity.agrees r r = true := (hagrees r r).mpr rfl
  obtain ⟨b, hb⟩ := table_ofRows config src dst policy policy.primary
  obtain ⟨t₀, ht⟩ := table_ofRows config src dst policy policy.primary.other
  have hdiffers (id : Int) (h : b.Differs t₀ id) : IsSmall id := isSmall_of_differs hsmall hb ht h
  have hstart := (mending_ofRows config hb ht).startFull
  have hsound : Scan.Sound (ofRows config src dst policy).fullPlan (.ofRows src dst policy) :=
    ⟨Deployment.prompt_ofRows .., fun side => by cases side <;> exact Table.distinct _, hsize⟩
  have hbatch := Config.batchSize_pos hvalid
  refine ⟨0, (ofRows config src dst policy).startFull, obey_startFull hvalid, ?_⟩
  intro scanning hscanning hstatus repairing hrepairing m₂ hm₂ hall
  have hscan := (scanning_startFull config src dst policy).after hscanning
  obtain ⟨-, s, -, hjobs⟩ := hscan.course
  have hfinished := finished_of_status hjobs hstatus
  have hhistory : ∀ x ∈ scanning ++ repairing, x.IsRepair config.inconsistencyTopic :=
    List.forall_mem_append.mpr ⟨fun x hx => (hscanning x hx).isRepair, hrepairing⟩
  obtain ⟨t, hmending, -⟩ := hstart.after hrefl hdiffers hhistory
  have hafter : (ofRows config src dst policy).startFull.after (scanning ++ repairing) = m₂ := by
    rw [hm₂, after_append]
  -- each id has in the target what it has in the base
  have hbt : t = b := by
    refine Table.ext_get? fun id => ?_
    by_cases hid : b.Differs t₀ id
    · obtain ⟨r, rfl, hr⟩ : ∃ r : Report, r.id = id ∧ r.encode ∈ ((ofRows config src dst
          policy).startFull.after scanning).site.broker.log config.inconsistencyTopic := by
        refine hscan.reported hsound hbatch rfl rfl hfinished ?_
        change Mismatch.between (Rows.first? id
          ((ofRows config src dst policy).site.store policy.primary).rows) (Rows.first? id
          ((ofRows config src dst policy).site.store policy.primary.other).rows) ≠ none
        rw [Store.rows, Store.rows, hb, ht]
        rwa [Table.Differs, Table.get?_eq_first?, Table.get?_eq_first?] at hid
      refine hstart.mended_of_reported hrefl hdiffers rfl config.fixGroup rfl rfl hhistory hmending
        (hafter ▸ hall) ?_ (hdiffers _ hid)
      rw [after_append]
      exact (log_after _ repairing _).subset hr
    · exact hmending.origin.keep (get?_eq_of_not_differs hagrees hid)
  rw [hafter, hbt] at hmending
  refine ⟨?_, ?_, hmending.silent hrefl ?_ ?_⟩
  · rw [Store.rows, Store.rows]
    exact congrArg Contents.rows (hmending.tables.target.trans hmending.tables.source.symm)
  · rw [Store.rows, Store.rows]
    exact congrArg Contents.rows (hmending.tables.source.trans hb.symm)
  · rw [← hafter, config_after]
    exact hvalid
  · rw [hm₂]
    exact finished_after hfinished hrepairing

end

/-- Pages of two rows. -/
def sampleConfig : Config := { batchSize := 2 }

/-- Rows from which `sampleTarget` differs in each of the ways in which rows can differ. -/
def sampleBase : List Account := [⟨1, "alice", 10, 0⟩, ⟨2, "bob", 20, 0⟩, ⟨3, "carol", 30, 0⟩]

def sampleTarget : List Account := [⟨2, "bob", 21, 0⟩, ⟨3, "carol", 30, 0⟩, ⟨4, "dave", 40, 0⟩]

/-- The turns of a scan. -/
def sampleScanning : List (Happening Account) :=
  (List.replicate 20 [.turn (.job 0 .baseToTarget), .turn (.job 0 .targetToBase)]).flatten

/-- A repair that fails, its consumer that is aborted, and another that takes its place. -/
def sampleRepairing : List (Happening Account) :=
  .plan .dst (({} : FaultPlan).arm "upsert" 1) ::
    .join .fixer "migrator-fix" "migrator_inconsistent" 1000 100 false ::
    List.replicate 10 (.turn (.consumer 0)) ++
    [.abort 0, .join .fixer "migrator-fix" "migrator_inconsistent" 1000 100 false] ++
    List.replicate 40 (.turn (.consumer 1))

/-- The migration at the end of the sample. -/
def sampleEnd : Migration Account :=
  ((ofRows sampleConfig sampleBase sampleTarget .srcFirst).startFull.after sampleScanning).after
    sampleRepairing

theorem converges_sample :
    sampleEnd.site.broker.committedOffset "migrator-fix" "migrator_inconsistent" =
        (sampleEnd.site.broker.log "migrator_inconsistent").length ∧
      sampleEnd.site.dst.rows = sampleEnd.site.src.rows ∧
      sampleEnd.site.src.rows = (Store.ofTable "src" sampleBase).rows ∧
      ∃ k m, sampleEnd.obey .startFull = .ok (some k, m) ∧
        ∀ more : List (Happening Account), (∀ x ∈ more, x.IsRepair "migrator_inconsistent") →
          ∀ topic, (m.after more).site.broker.log topic = sampleEnd.site.broker.log topic := by
  have hvalid : sampleConfig.validate = .ok () := by decide
  have hcommitted : sampleEnd.site.broker.committedOffset "migrator-fix" "migrator_inconsistent" =
      (sampleEnd.site.broker.log "migrator_inconsistent").length := by decide +kernel
  have hscanning : ∀ x ∈ sampleScanning, x.IsScanning 1000 := by
    intro x hx
    obtain ⟨round, hround, hx⟩ := List.mem_flatten.mp hx
    rw [List.eq_of_mem_replicate hround] at hx
    rcases List.mem_pair.mp hx with rfl | rfl <;> trivial
  have hrepairing : ∀ x ∈ sampleRepairing, x.IsRepair "migrator_inconsistent" := by
    simp [sampleRepairing, Happening.IsRepair]
  obtain ⟨n, m₁, hm₁, h⟩ :=
    @converges Account _ sampleConfig sampleBase sampleTarget .srcFirst
      (fun r s => by simp [Entity.agrees]) hvalid (fun side => by cases side <;> decide)
      (fun side => by cases side <;> decide)
  rw [obey_startFull hvalid] at hm₁
  cases hm₁
  exact ⟨hcommitted, h sampleScanning hscanning (by decide +kernel) sampleRepairing hrepairing _ rfl
    hcommitted⟩

end Migration

end Cutover
