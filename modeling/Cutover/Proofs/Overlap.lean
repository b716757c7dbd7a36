import Cutover.Proofs.Convergence
import Cutover.Proofs.Ranks

/-!
# Repairs while a scan runs

A scan whose reports are repaired while it goes on. The pass through the base misses nothing, for
the base stays as it is (`Scan.Pass.CoversBase`). The pass through the target reads pages of a table
from which rows are taken out, so the rows behind them move to smaller places; it misses none of
them if none moves to a page that was read (`Scan.Pass.CoversTarget`, with `Table.KeepsPages`). Main
statement: `Migration.agree_of_keepsPages`.
-/

namespace Cutover

variable {ρ : Type} [Entity ρ]

theorem Table.Mended.get?_of_differs {b t t' : Table ρ} {id : Int}
    (hrefl : ∀ r : ρ, Entity.agrees r r = true) (h : b.Mended t t') (hid : b.Differs t' id) :
    t'.get? id = t.get? id := by
  refine (h id).resolve_left fun heq => hid ?_
  rw [heq]
  cases b.get? id <;> simp [Mismatch.between, hrefl]

/-- A row that only the target has, and that was not reported. -/
structure Table.Stray (b t : Table ρ) (reported : Int → Prop) (x : Int) : Prop where
  target : (t.get? x).isSome
  base : b.get? x = none
  unreported : ¬ reported x

theorem Table.Stray.of_mended {b t t' : Table ρ} {reported reported' : Int → Prop} {x : Int}
    (hm : b.Mended t t') (hr : ∀ id, reported id → reported' id) (h : b.Stray t' reported' x) :
    b.Stray t reported x := by
  obtain ⟨htarget, hbase, hunreported⟩ := h
  refine ⟨?_, hbase, fun h => hunreported (hr x h)⟩
  rcases hm x with heq | heq
  · rw [heq, hbase] at htarget
    cases htarget
  · rwa [← heq]

namespace Scan

theorem Way.mem_differences_of_eq {way : Way} {others others' rows : List ρ} {x : Int × Mismatch}
    (h : Rows.first? x.1 others' = Rows.first? x.1 others) (hx : x ∈ way.differences others rows) :
    x ∈ way.differences others' rows := by
  obtain ⟨r, hr, hv⟩ := Way.mem_differences.mp hx
  refine Way.mem_differences.mpr ⟨r, hr, ?_⟩
  rw [Way.id_of_mem_verdict hv] at h
  unfold verdict at hv ⊢
  rwa [h]

namespace Pass

variable {plan : Plan} {b t t' : Table ρ} {reported reported' : Int → Prop} {p p' : Pass ρ}
  {m : Moment} {d d' : Deployment ρ}

/-- What goes right in a move of a pass goes right after it. -/
theorem Moved.prompt (h : Moved plan m d p d' p') (hstop : m.stopped = false)
    (hd : d.Prompt plan.callLimit) (hf : ∀ f ∈ p.flight, f.Prompt) : d'.Prompt plan.callLimit := by
  cases h with
  | begun _ _ _ _ hp => exact (hp _ (Nat.le_refl _) hd).2
  | paged _ _ _ hp | compared _ _ _ hp => exact hp _ hd
  | reported => exact ⟨fun side => by simpa using hd.1 side, hd.2⟩
  | rested => exact hd
  | failed _ _ hfine => exact absurd ⟨hstop, ⟨_, hd⟩, hf⟩ hfine

/-! ## The pass through the base -/

/-- A pass through the base has yet to report each id of the base under which the tables differ,
unless it was reported. -/
structure CoversBase (plan : Plan) (b t : Table ρ) (reported : Int → Prop) (p : Pass ρ) : Prop where
  way : p.way = .baseToTarget
  steady : p.Steady plan b.rows
  covers : ∀ r ∈ b.rows, b.Differs t (Entity.id r) → reported (Entity.id r) ∨
    ∃ kind, (Entity.id r, kind) ∈ p.pending t.rows b.rows

theorem mem_pending_of_eq {others others' rows : List ρ} {x : Int × Mismatch}
    (h : Rows.first? x.1 others' = Rows.first? x.1 others) (hx : x ∈ p.pending others rows) :
    x ∈ p.pending others' rows := by
  unfold pending at hx ⊢
  split at hx
  · exact Way.mem_differences_of_eq h hx
  · exact Way.mem_differences_of_eq h hx
  · rcases List.mem_cons.mp hx with hx | hx
    · exact List.mem_cons.mpr (.inl hx)
    · refine List.mem_cons_of_mem _ ?_
      rcases List.mem_append.mp hx with hx | hx
      · exact List.mem_append_left _ hx
      · exact List.mem_append_right _ (Way.mem_differences_of_eq h hx)
  · exact hx
  · exact hx

theorem CoversBase.mend (hrefl : ∀ r : ρ, Entity.agrees r r = true)
    (h : p.CoversBase plan b t reported) (hm : b.Mended t t')
    (hr : ∀ id, reported id → reported' id) : p.CoversBase plan b t' reported' := by
  refine ⟨h.way, h.steady, fun r hrow hdiffers => ?_⟩
  have heq := hm.get?_of_differs hrefl hdiffers
  have hold : b.Differs t (Entity.id r) := by rwa [Table.Differs, ← heq]
  rw [Table.get?_eq_first?, Table.get?_eq_first?] at heq
  rcases h.covers r hrow hold with hid | ⟨kind, hkind⟩
  · exact .inl (hr _ hid)
  · exact .inr ⟨kind, mem_pending_of_eq heq hkind⟩

theorem CoversBase.move (hbatch : 0 < plan.batch) (hmode : plan.mode = .oneShot)
    (hsince : plan.since = none) (hsize : b.rows.length < UInt64.size) (hstop : m.stopped = false)
    (h : p.CoversBase plan b t reported) (hd : d.Tables plan.base b t)
    (hprompt : d.Prompt plan.callLimit) (hm : Moved plan m d p d' p')
    (hr : ∀ id, reported id → reported' id)
    (hnew : ∀ id kind, d' = { d with
      broker := d.broker.append plan.topic (plan.report id kind).encode } → reported' id) :
    p'.CoversBase plan b t reported' := by
  have hrows : (d.store (p.pageSide plan)).rows = b.rows := by
    rw [pageSide, h.way, Store.rows, hd.source]
    rfl
  have hothers : (d.store (p.lookupSide plan)).rows = t.rows := by
    rw [lookupSide, pageSide, h.way, Store.rows, hd.target]
    rfl
  obtain ⟨hway, hsteady, -, hkept⟩ :=
    h.steady.move hbatch hmode hsince hsize hrows hothers b.distinct
    t.distinct hstop hprompt hm
  refine ⟨hway.trans h.way, hsteady, fun r hrow hdiffers => ?_⟩
  rcases h.covers r hrow hdiffers with hid | ⟨kind, hkind⟩
  · exact .inl (hr _ hid)
  · rcases hkept with ⟨-, -, hpending⟩ | ⟨-, id, kind', -, -, hpending, heq⟩
    · exact .inr ⟨kind, hpending ▸ hkind⟩
    · rw [hpending] at hkind
      rcases List.mem_cons.mp hkind with heq' | hkind
      · cases heq'
        exact .inl (hnew _ _ heq)
      · exact .inr ⟨kind, hkind⟩

/-! ## The pass through the target -/

/-- At an offset, a row of the target is yet to be read, and will not move to a page before. -/
def Ahead (plan : Plan) (b t : Table ρ) (offset : Nat) (x : Int) : Prop :=
  plan.batch ∣ offset ∧ offset ≤ b.shared t x

/-- A pass through the target has yet to report each row that only the target has, unless it was
reported. -/
structure CoversTarget (plan : Plan) (b t : Table ρ) (reported : Int → Prop) (p : Pass ρ) :
    Prop where
  way : p.way = .targetToBase
  flight : ∀ f ∈ p.flight, f.Prompt
  next : p.next < UInt64.size
  phase : match p.phase with
    | .reading => ∀ x, b.Stray t reported x → Ahead plan b t p.offset x
    | .comparing fetched page => ∀ x, b.Stray t reported x →
      x ∈ page.map Entity.id ∨ plan.batch ≤ fetched ∧ Ahead plan b t (p.offset + fetched) x
    | .reporting fetched id _ rest => ∀ x, b.Stray t reported x →
      x = id ∨ x ∈ rest.map Prod.fst ∨
        plan.batch ≤ fetched ∧ Ahead plan b t (p.offset + fetched) x
    | .pausing => False
    | .done r => r = .ok () ∧ ∀ x, ¬ b.Stray t reported x

theorem Ahead.mend {offset : Nat} {x : Int} (hm : b.Mended t t') (h : Ahead plan b t offset x) :
    Ahead plan b t' offset x := ⟨h.1, Nat.le_trans h.2 (hm.shared_le x)⟩

/-- A row that is yet to be read and not in the next page is behind that page. -/
theorem Ahead.page {offset : Nat} {x : Int} (h : Ahead plan b t offset x) (hx : (t.get? x).isSome)
    (hpages : ∀ offset, plan.batch ∣ offset → offset ≤ t.rank x → offset ≤ b.shared t x) :
    x ∈ ((t.rows.drop offset).take plan.batch).map Entity.id ∨
      plan.batch ≤ ((t.rows.drop offset).take plan.batch).length ∧
        Ahead plan b t (offset + ((t.rows.drop offset).take plan.batch).length) x := by
  obtain ⟨r, hrow⟩ := Option.isSome_iff_exists.mp hx
  obtain ⟨hmem, rfl⟩ := Table.get?_eq_some_iff.mp hrow
  obtain ⟨hdvd, hle⟩ := h
  have hrank := Table.rank_eq b t (Entity.id r)
  have hlast := Table.rank_lt_length hmem
  by_cases hin : t.rank (Entity.id r) < offset + plan.batch
  · exact .inl (List.mem_map_of_mem (Table.mem_page_of_rank hmem (by omega) hin))
  · have hfull : ((t.rows.drop offset).take plan.batch).length = plan.batch := by
      rw [List.length_take, List.length_drop]
      omega
    have hdvd' : plan.batch ∣ offset + plan.batch := Nat.dvd_add hdvd (Nat.dvd_refl _)
    rw [hfull]
    exact .inr ⟨Nat.le_refl _, hdvd', hpages _ hdvd' (by omega)⟩

theorem CoversTarget.mend (h : p.CoversTarget plan b t reported) (hm : b.Mended t t')
    (hr : ∀ id, reported id → reported' id) : p.CoversTarget plan b t' reported' := by
  refine ⟨h.way, h.flight, h.next, ?_⟩
  have hphase := h.phase
  have hold {x : Int} (hx : b.Stray t' reported' x) : b.Stray t reported x := hx.of_mended hm hr
  cases hph : p.phase with
  | reading =>
    simp only [hph] at hphase ⊢
    exact fun x hx => (hphase x (hold hx)).mend hm
  | comparing fetched page =>
    simp only [hph] at hphase ⊢
    exact fun x hx => (hphase x (hold hx)).imp id fun ha => ⟨ha.1, ha.2.mend hm⟩
  | reporting fetched first kind rest =>
    simp only [hph] at hphase ⊢
    exact fun x hx => (hphase x (hold hx)).imp id (Or.imp id fun ha => ⟨ha.1, ha.2.mend hm⟩)
  | pausing =>
    simp only [hph] at hphase
  | done r =>
    simp only [hph] at hphase ⊢
    exact ⟨hphase.1, fun x hx => hphase.2 x (hold hx)⟩

theorem coversTarget_turn (hmode : plan.mode = .oneShot) (hway : p.way = .targetToBase)
    {fetched : Nat} (hnext : p.offset + fetched < UInt64.size)
    (h : ∀ x, b.Stray t reported x →
      plan.batch ≤ fetched ∧ Ahead plan b t (p.offset + fetched) x) :
    (p.turn plan fetched).CoversTarget plan b t reported := by
  unfold turn
  by_cases hfull : plan.batch ≤ fetched
  · rw [if_pos hfull]
    exact ⟨hway, by simp [enter], hnext, fun x hx => (h x hx).2⟩
  · rw [if_neg hfull, hmode]
    exact ⟨hway, by simp [enter], hnext, rfl, fun x hx => hfull (h x hx).1⟩

theorem coversTarget_reportAll (hmode : plan.mode = .oneShot) (hway : p.way = .targetToBase)
    {fetched : Nat} (hnext : p.offset + fetched < UInt64.size) (found : List (Int × Mismatch))
    (h : ∀ x, b.Stray t reported x → x ∈ found.map Prod.fst ∨
      plan.batch ≤ fetched ∧ Ahead plan b t (p.offset + fetched) x) :
    (p.reportAll plan fetched found).CoversTarget plan b t reported := by
  cases found with
  | nil =>
    exact coversTarget_turn (p := { p with failures := 0 }) hmode hway hnext fun x hx =>
      (h x hx).resolve_left List.not_mem_nil
  | cons y rest =>
    refine ⟨hway, by simp [reportAll, enter], hnext, fun x hx => ?_⟩
    rcases h x hx with hmem | ha
    · rcases List.mem_cons.mp hmem with heq | hmem
      · exact .inl heq
      · exact .inr (.inl hmem)
    · exact .inr (.inr ha)

theorem CoversTarget.move (hmode : plan.mode = .oneShot) (hsize : t.rows.length < UInt64.size)
    (hpages : ∀ x offset, b.Stray t reported x → plan.batch ∣ offset → offset ≤ t.rank x →
      offset ≤ b.shared t x)
    (hstop : m.stopped = false) (h : p.CoversTarget plan b t reported) (hd : d.Tables plan.base b t)
    (hprompt : d.Prompt plan.callLimit) (hm : Moved plan m d p d' p')
    (hr : ∀ id, reported id → reported' id)
    (hnew : ∀ id kind, d' = { d with
      broker := d.broker.append plan.topic (plan.report id kind).encode } → reported' id) :
    p'.CoversTarget plan b t reported' := by
  have hbase : (d.store plan.base).rows = b.rows := by rw [Store.rows, hd.source]; rfl
  have htarget : (d.store plan.base.other).rows = t.rows := by rw [Store.rows, hd.target]; rfl
  have hold {x : Int} (hx : b.Stray t reported' x) : b.Stray t reported x :=
    hx.of_mended (.refl b t) hr
  have hphase := h.phase
  have hnext := h.next
  cases hm with
  | begun _ _ _ _ hp =>
    have hmend := h.mend (.refl b t) hr
    refine ⟨h.way, fun f hf => ?_, h.next, hmend.phase⟩
    cases hf
    exact (hp _ (Nat.le_refl _) hprompt).1
  | @paged d' f hph _ _ _ =>
    simp only [hph] at hphase
    have hside : p.pageSide plan = plan.base.other := by rw [pageSide, h.way]; rfl
    have hquery : p.pageQuery plan = ⟨p.offset, plan.batch, none⟩ := by rw [pageQuery, h.way]
    rw [hside, htarget, hquery, Rows.page_whole]
    have hrest (x : Int) (hx : b.Stray t reported' x) :=
      (hphase x (hold hx)).page hx.target fun offset => hpages x offset (hold hx)
    have hdistinct := t.distinct.page p.offset plan.batch
    have hlength : p.offset + ((t.rows.drop p.offset).take plan.batch).length < UInt64.size := by
      simp only [Pass.next, hph] at hnext
      rw [List.length_take, List.length_drop]
      omega
    generalize (t.rows.drop p.offset).take plan.batch = page at hrest hdistinct hlength ⊢
    by_cases hne : page = []
    · subst hne
      exact coversTarget_reportAll hmode h.way hlength [] hrest
    · rw [afterPage_of_distinct hdistinct hne]
      exact ⟨h.way, by simp [enter], hlength, hrest⟩
  | @compared d' f fetched page hph _ _ _ =>
    simp only [hph] at hphase
    have hside : p.lookupSide plan = plan.base := by
      rw [lookupSide, pageSide, h.way]
      exact Side.other_other _
    simp only [Pass.next, hph] at hnext
    rw [hside, hbase, h.way]
    refine coversTarget_reportAll hmode h.way hnext _ fun x hx => ?_
    refine (hphase x (hold hx)).imp (fun hmem => ?_) id
    obtain ⟨r, hrow, rfl⟩ := List.mem_map.mp hmem
    rw [Way.targetToBase.mismatches_eq b.distinct]
    refine List.mem_map.mpr ⟨(Entity.id r, .baseMissing), Way.mem_differences.mpr ⟨r, hrow, ?_⟩,
      rfl⟩
    have hnone : Rows.first? (Entity.id r) b.rows = none := (b.get?_eq_first? _).symm.trans hx.base
    simp [Way.verdict, hnone]
  | @reported f fetched first kind rest hph _ =>
    simp only [hph] at hphase
    simp only [Pass.next, hph] at hnext
    refine coversTarget_reportAll hmode h.way hnext _ fun x hx => ?_
    refine (hphase x (hold hx)).resolve_left fun heq => hx.unreported ?_
    rw [heq]
    exact hnew _ _ rfl
  | rested hph => simp only [hph] at hphase
  | failed _ _ hfine => exact absurd ⟨hstop, ⟨_, hprompt⟩, h.flight⟩ hfine

end Pass

end Scan

/-! ## Migrations -/

/-- Whether a report about an id was published. -/
def Broker.HasReport (topic : String) (b : Broker) (id : Int) : Prop :=
  ∃ r : Report, r.id = id ∧ r.encode ∈ b.log topic

/-- Something that happens while no fault is planned, no call takes longer than a limit, and no job
is asked to stop. -/
def Happening.IsPrompt (limit : Nat) : Happening ρ → Prop
  | plan _ faults | planBroker faults => faults.Prompt limit
  | stopJob _ => False
  | _ => True

namespace Migration

/-- A migration with one full scan that has yet to report each id under which the tables differ,
unless it was reported. -/
structure Covering (plan : Scan.Plan) (b t : Table ρ) (m : Migration ρ) : Prop where
  prompt : m.site.Prompt plan.callLimit
  job : ∃ s : Scan ρ, m.scheduler.jobs = [{ kind := .full, scan := s }] ∧ s.plan = plan ∧
    s.forth.CoversBase plan b t (m.site.broker.HasReport plan.topic) ∧
    s.back.CoversTarget plan b t (m.site.broker.HasReport plan.topic)

namespace Covering

variable {plan : Scan.Plan} {b t t' t₀ : Table ρ} {m m' : Migration ρ} {x : Happening ρ}

theorem alike (h : Covering plan b t m) (hjobs : m'.scheduler.jobs = m.scheduler.jobs)
    (hlog : ∀ topic, m.site.broker.log topic <+: m'.site.broker.log topic)
    (hprompt : m'.site.Prompt plan.callLimit) (hrefl : ∀ r : ρ, Entity.agrees r r = true)
    (hm : b.Mended t t') : Covering plan b t' m' := by
  obtain ⟨-, s, hjob, hplan, hforth, hback⟩ := h
  have hr (id : Int) (hid : m.site.broker.HasReport plan.topic id) :
      m'.site.broker.HasReport plan.topic id := by
    obtain ⟨r, hrid, hr⟩ := hid
    exact ⟨r, hrid, (hlog _).subset hr⟩
  exact ⟨hprompt, s, hjobs ▸ hjob, hplan, hforth.mend hrefl hm hr, hback.mend hm hr⟩

theorem turn (hrefl : ∀ r : ρ, Entity.agrees r r = true) (hbatch : 0 < plan.batch)
    (hsize : b.rows.length + t₀.rows.length < UInt64.size)
    (hpages : Table.KeepsPages plan.batch b t₀) (hM : Mending plan b t₀ t m)
    (h : Covering plan b t m) {turn : Turn} (hm : Moved m turn m')
    (hmend : b.Mended t t') : Covering plan b t' m' := by
  have hmode : plan.mode = .oneShot := by rw [← hM.planned]; rfl
  have hsince : plan.since = none := by rw [← hM.planned]; rfl
  have hlength := hM.origin.length_le
  obtain ⟨hprompt, s, hjobs, hplan, hforth, hback⟩ := h
  cases hm with
  | @job n way j d' p hj _ _ hp =>
    rw [hjobs] at hj
    cases n with
    | succ n => simp at hj
    | zero =>
      cases hj
      rw [hplan] at hp
      have hr (id : Int) (hid : m.site.broker.HasReport plan.topic id) :
          d'.broker.HasReport plan.topic id := by
        obtain ⟨r, hrid, hr⟩ := hid
        exact ⟨r, hrid, (hp.grown.log _).subset hr⟩
      have hnew (id : Int) (kind : Mismatch) (heq : d' = { m.site with
          broker := m.site.broker.append plan.topic (plan.report id kind).encode }) :
          d'.broker.HasReport plan.topic id := by
        refine ⟨plan.report id kind, rfl, ?_⟩
        rw [heq, Broker.log_append, if_pos rfl]
        exact List.mem_append_right _ List.mem_cons_self
      have hstray {x : Int} {offset : Nat}
          (hx : b.Stray t (m.site.broker.HasReport plan.topic) x) (hdvd : plan.batch ∣ offset)
          (hle : offset ≤ t.rank x) : offset ≤ b.shared t x :=
        hpages.le_shared hM.origin hx.target hx.base hdvd hle
      refine ⟨?_, s.setPass p way, by simp [hjobs], by simpa using hplan, ?_⟩
      · cases way with
        | baseToTarget => exact hp.prompt rfl hprompt hforth.steady.prompt
        | targetToBase => exact hp.prompt rfl hprompt hback.flight
      · cases way with
        | baseToTarget =>
          exact ⟨(hforth.move hbatch hmode hsince (by omega) rfl hM.tables hprompt hp hr hnew).mend
            hrefl hmend fun _ => id, hback.mend hmend hr⟩
        | targetToBase =>
          exact ⟨hforth.mend hrefl hmend hr, (hback.move hmode (by omega) (fun _ _ => hstray) rfl
            hM.tables hprompt hp hr hnew).mend hmend fun _ => id⟩
  | consumer _ hmove =>
    exact alike ⟨hprompt, s, hjobs, hplan, hforth, hback⟩ rfl hmove.log (hmove.prompt hprompt) hrefl
      hmend
  | run hr => simp [hM.runs] at hr
  | post hp => simp [hM.posts] at hp

theorem perform (hrefl : ∀ r : ρ, Entity.agrees r r = true) (hbatch : 0 < plan.batch)
    (hsize : b.rows.length + t₀.rows.length < UInt64.size)
    (hpages : Table.KeepsPages plan.batch b t₀) (hM : Mending plan b t₀ t m)
    (h : Covering plan b t m) (hx : x.IsRepair plan.topic)
    (hxp : x.IsPrompt plan.callLimit) (hmend : b.Mended t t') :
    Covering plan b t' (m.perform x) := by
  have hlog := m.log_perform x
  cases x with
  | turn turn =>
    rcases m.perform_turn turn with heq | ⟨_, rfl, hmoved⟩
    · rw [heq]
      exact h.alike rfl (fun _ => List.prefix_refl _) h.prompt hrefl hmend
    · exact h.turn hrefl hbatch hsize hpages hM hmoved hmend
  | time | stop | abort => exact h.alike rfl hlog h.prompt hrefl hmend
  | plan side faults => exact h.alike rfl hlog (h.prompt.setFaults hxp side) hrefl hmend
  | planBroker faults => exact h.alike rfl hlog (h.prompt.setBrokerFaults hxp) hrefl hmend
  | join handler group topic limit backoff stopped =>
    simp only [Migration.perform] at hlog ⊢
    obtain ⟨broker, hq, heq | heq⟩ :=
      m.startConsumer_cases handler group topic limit backoff stopped
    · rw [heq] at hlog ⊢
      exact h.alike rfl hlog (h.prompt.withBroker (hq.prompt _ h.prompt.2)) hrefl hmend
    · rw [heq] at hlog ⊢
      exact h.alike rfl hlog (h.prompt.withBroker (hq.prompt _ h.prompt.2)) hrefl hmend
  | stopJob => exact hxp.elim
  | order | startRun | stopRun | post | edit | close => exact hx.elim

theorem after (hrefl : ∀ r : ρ, Entity.agrees r r = true) (hbatch : 0 < plan.batch)
    (hsize : b.rows.length + t₀.rows.length < UInt64.size)
    (hpages : Table.KeepsPages plan.batch b t₀)
    (hsmall : ∀ id, b.Differs t₀ id → IsSmall id) {history : List (Happening ρ)}
    (hM : Mending plan b t₀ t m) (h : Covering plan b t m)
    (hhistory : ∀ x ∈ history, x.IsRepair plan.topic ∧ x.IsPrompt plan.callLimit) :
    ∃ t', Mending plan b t₀ t' (m.after history) ∧ Covering plan b t' (m.after history) := by
  induction history generalizing m t with
  | nil => exact ⟨t, hM, h⟩
  | cons x rest ih =>
    obtain ⟨⟨hx, hxp⟩, hrest⟩ := List.forall_mem_cons.mp hhistory
    obtain ⟨t', hM', hmend, -⟩ := hM.perform hrefl hsmall hx
    exact ih hM' (h.perform hrefl hbatch hsize hpages hM hx hxp hmend) hrest

/-- A scan that has ended has reported each id under which the tables differ. -/
theorem reported (h : Covering plan b t m) (hfinished : ∀ j ∈ m.scheduler.jobs, j.isFinished)
    {id : Int} (hid : b.Differs t id) : m.site.broker.HasReport plan.topic id := by
  obtain ⟨-, s, hjobs, -, hforth, hback⟩ := h
  have hover : s.isOver = true := hfinished { kind := .full, scan := s } (by simp [hjobs])
  have hbroken : s.isBroken = false := by
    refine Scan.isBroken_eq_false_iff.mpr fun way => Scan.Pass.isBroken_eq_false_iff.mpr ?_
    cases way with
    | baseToTarget => exact hforth.steady.offset
    | targetToBase => exact Nat.lt_of_le_of_lt s.back.offset_le_next hback.next
  obtain ⟨x, hx⟩ := Scan.exists_result_of_isOver hover hbroken
  obtain ⟨-, -, hdone⟩ := Scan.done_of_result? hx fun way q hq => by
    cases way with
    | baseToTarget => exact (hforth.steady.result hq).1
    | targetToBase =>
      have hphase := hback.phase
      have hph := Scan.Pass.phase_of_result? hq
      simp only [Scan.pass] at hph
      rw [hph] at hphase
      exact hphase.1
  cases hb : b.get? id with
  | some r =>
    obtain ⟨hr, rfl⟩ := Table.get?_eq_some_iff.mp hb
    refine (hforth.covers r hr hid).resolve_right fun hpending => ?_
    obtain ⟨kind, hkind⟩ := hpending
    rw [(hforth.steady.result (hdone .baseToTarget)).2] at hkind
    exact List.not_mem_nil hkind
  | none =>
    refine Classical.not_not.mp fun hunreported => ?_
    have htarget : (t.get? id).isSome := by
      cases ht : t.get? id with
      | some r => rfl
      | none => exact absurd (by rw [hb, ht]; rfl) hid
    have hphase := hback.phase
    have hph := Scan.Pass.phase_of_result? (hdone .targetToBase)
    simp only [Scan.pass] at hph
    rw [hph] at hphase
    exact hphase.2 id ⟨htarget, hb, hunreported⟩

end Covering

theorem covering_startFull (config : Config) (src dst : List ρ) (policy : Policy) (b t : Table ρ) :
    Covering (ofRows config src dst policy).fullPlan b t
      (ofRows config src dst policy).startFull := by
  refine ⟨Deployment.prompt_ofRows .., _, jobs_startFull config src dst policy, rfl, ?_, ?_⟩
  · refine ⟨rfl, ⟨Nat.two_pow_pos 64, by simp, trivial⟩, fun r hr hdiffers => .inr ?_⟩
    obtain ⟨kind, hkind⟩ := Option.ne_none_iff_exists'.mp hdiffers
    refine ⟨kind, Scan.Way.mem_differences.mpr ⟨r, hr, ?_⟩⟩
    rw [Table.get?_of_mem hr] at hkind
    rw [Table.get?_eq_first?] at hkind
    exact congrArg (Option.map _) hkind
  · exact ⟨rfl, by simp, Nat.two_pow_pos 64, fun x _ => ⟨Nat.dvd_zero _, Nat.zero_le _⟩⟩

end Migration

/-- The stores of a deployment have the same ids, and rows that agree. -/
def Deployment.Agree (base : Side) (d : Deployment ρ) : Prop :=
  ∀ id, Mismatch.between (Rows.first? id (d.store base).rows)
    (Rows.first? id (d.store base.other).rows) = none

theorem Deployment.Tables.agree_iff {base : Side} {b t : Table ρ} {d : Deployment ρ}
    (h : d.Tables base b t) : d.Agree base ↔ ∀ id, ¬ b.Differs t id := by
  unfold Deployment.Agree
  rw [Store.rows, Store.rows, h.source, h.target]
  refine forall_congr' fun id => ?_
  rw [Table.Differs, Table.get?_eq_first?, Table.get?_eq_first?]
  exact Classical.not_not.symm

namespace Migration

/-- A history in which one full scan runs, and consumers repair what it reports, without faults. -/
def Overlap (config : Config) (history : List (Happening ρ)) : Prop :=
  ∀ x ∈ history, x.IsRepair config.inconsistencyTopic ∧ x.IsPrompt config.callTimeout.ticks

/-- A migration whose first scan has ended, and in which each report was handled. -/
structure Exhausted (config : Config) (m : Migration ρ) : Prop where
  finished : m.scheduler.jobStatus? 0 = some ⟨0, .full, false, false⟩
  handled : m.site.broker.committedOffset config.fixGroup config.inconsistencyTopic =
    (m.site.broker.log config.inconsistencyTopic).length

section

variable {config : Config} {src dst : List ρ} {policy : Policy} {b t₀ : Table ρ}

/-- A scan and its repairs side by side make the stores agree if no row of the target moves to a
page that was read. -/
theorem agree_of_keepsPages (hrefl : ∀ r : ρ, Entity.agrees r r = true)
    (hvalid : config.validate = .ok ())
    (hb : ((Deployment.ofRows src dst policy).store policy.primary).contents = .table b)
    (ht : ((Deployment.ofRows src dst policy).store policy.primary.other).contents = .table t₀)
    (hsize : b.rows.length + t₀.rows.length < UInt64.size)
    (hsmall : ∀ id, b.Differs t₀ id → IsSmall id)
    (hpages : Table.KeepsPages config.batchSize b t₀) {history : List (Happening ρ)}
    (hhistory : Overlap config history) {m : Migration ρ}
    (hm : m = (ofRows config src dst policy).startFull.after history) (hend : Exhausted config m) :
    m.site.Agree policy.primary := by
  have hbatch := Config.batchSize_pos hvalid
  have hstart := (mending_ofRows config hb ht).startFull
  obtain ⟨t, hmending, hcovering⟩ :=
    (covering_startFull config src dst policy b t₀).after hrefl hbatch
    hsize hpages hsmall hstart hhistory
  subst hm
  refine hmending.tables.agree_iff.mpr fun id hdiffers => ?_
  have heq := hmending.origin.get?_of_differs hrefl hdiffers
  have hid : IsSmall id := hsmall id (by rwa [Table.Differs, ← heq])
  obtain ⟨s, hjobs, -⟩ := hcovering.job
  obtain ⟨r, rfl, hr⟩ := hcovering.reported (finished_of_status hjobs hend.finished) hdiffers
  have hmended := hstart.mended_of_reported hrefl hsmall rfl config.fixGroup rfl rfl
    (fun x hx => (hhistory x hx).1) hmending hend.handled hr hid
  -- what the target has is what the base has, and that agrees with itself
  refine hdiffers ?_
  rw [hmended]
  cases b.get? r.id <;> simp [Mismatch.between, hrefl]

end

end Migration

end Cutover
