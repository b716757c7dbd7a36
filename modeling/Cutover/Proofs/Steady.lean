import Cutover.Proofs.Differences
import Cutover.Proofs.Work

/-!
# Scans while nobody writes

While the rows stay as they are, a pass has yet to report the differences of the rows it has not
seen (`Scan.Pass.pending`). A move either leaves these as they are or publishes the first of them
(`Scan.Pass.Steady.move`), so a scan publishes each difference once and nothing else. Main
statement: `Scan.concludes`.
-/

namespace Cutover

variable {ρ : Type} [Entity ρ]

/-! ## Reports that are owed -/

/-- The reports, in some order, are what a topic has more than before; the other topics and all rows
are as before. -/
structure Deployment.Published (d₀ : Deployment ρ) (topic : String) (reports : List Report)
    (d : Deployment ρ) : Prop where
  contents : ∀ side, (d.store side).contents = (d₀.store side).contents
  log : ∃ published : List Report, published.Perm reports ∧
    d.broker.log topic = d₀.broker.log topic ++ published.map Report.encode
  others : ∀ t, t ≠ topic → d.broker.log t = d₀.broker.log t

/-- Together with the reports that are still to come, those published since `d₀` are `reports`. -/
structure Deployment.Owes (limit : Nat) (d₀ : Deployment ρ) (topic : String)
    (reports : List Report) (d : Deployment ρ) (owed : List Report) : Prop where
  prompt : d.Prompt limit
  contents : ∀ side, (d.store side).contents = (d₀.store side).contents
  log : ∃ published : List Report, (published ++ owed).Perm reports ∧
    d.broker.log topic = d₀.broker.log topic ++ published.map Report.encode
  others : ∀ t, t ≠ topic → d.broker.log t = d₀.broker.log t

namespace Deployment.Owes

variable {limit : Nat} {d₀ d d' : Deployment ρ} {topic : String} {reports owed owed' : List Report}

theorem start (h : d₀.Prompt limit) (hperm : owed.Perm reports) :
    d₀.Owes limit topic reports d₀ owed :=
  ⟨h, fun _ => rfl, ⟨[], hperm, by simp⟩, fun _ _ => rfl⟩

theorem alike (h : d₀.Owes limit topic reports d owed) (ha : d.Alike d') (hp : d'.Prompt limit) :
    d₀.Owes limit topic reports d' owed := by
  obtain ⟨published, hperm, hlog⟩ := h.log
  refine ⟨hp, fun side => (ha.contents side).trans (h.contents side), ⟨published, hperm, ?_⟩,
    fun t ht => ?_⟩
  · rw [ha.broker.log, hlog]
  · rw [ha.broker.log, h.others t ht]

theorem perm (h : d₀.Owes limit topic reports d owed) (hperm : owed'.Perm owed) :
    d₀.Owes limit topic reports d owed' := by
  obtain ⟨published, hp, hlog⟩ := h.log
  exact ⟨h.prompt, h.contents, ⟨published, (hperm.append_left published).trans hp, hlog⟩, h.others⟩

theorem report {r : Report} (h : d₀.Owes limit topic reports d (r :: owed)) :
    d₀.Owes limit topic reports { d with broker := d.broker.append topic r.encode } owed := by
  obtain ⟨published, hperm, hlog⟩ := h.log
  refine ⟨⟨fun side => by simpa using h.prompt.1 side, h.prompt.2⟩,
    fun side => by simpa using h.contents side, ⟨published ++ [r], ?_, ?_⟩, fun t ht => ?_⟩
  · rwa [List.append_assoc, List.singleton_append]
  · rw [Broker.log_append, if_pos rfl, hlog, List.map_append, List.append_assoc]
    rfl
  · rw [Broker.log_append, if_neg ht, h.others t ht]

theorem published (h : d₀.Owes limit topic reports d []) : d₀.Published topic reports d := by
  obtain ⟨published, hperm, hlog⟩ := h.log
  exact ⟨h.contents, ⟨published, by rwa [List.append_nil] at hperm, hlog⟩, h.others⟩

theorem rows (h : d₀.Owes limit topic reports d owed) (side : Side) :
    (d.store side).rows = (d₀.store side).rows := by
  rw [Store.rows, Store.rows, h.contents side]

end Deployment.Owes

namespace Scan

/-! ## What a pass has yet to report -/

namespace Pass

/-- What a pass through the rows has yet to report. -/
def pending (others rows : List ρ) (p : Pass ρ) : List (Int × Mismatch) :=
  match p.phase with
  | .reading => p.way.differences others (rows.drop p.offset)
  | .comparing fetched page => p.way.differences others (page ++ rows.drop (p.offset + fetched))
  | .reporting fetched id kind rest =>
    (id, kind) :: (rest ++ p.way.differences others (rows.drop (p.offset + fetched)))
  | .pausing | .done _ => []

/-- How many moves a pass through the rows may have yet to make. -/
def weight (rows : List ρ) (p : Pass ρ) : Nat :=
  let toStart := if p.flight.isNone then 1 else 0
  match p.phase with
  | .reading => 8 * (rows.length - p.offset) + 4 + toStart
  | .comparing fetched page =>
    8 * (rows.length - (p.offset + fetched)) + 2 * page.length + 6 + toStart
  | .reporting fetched _ _ rest =>
    8 * (rows.length - (p.offset + fetched)) + 2 * rest.length + 6 + toStart
  | .pausing | .done _ => 0

/-- A pass that has left out none of the rows. -/
structure Steady (plan : Plan) (rows : List ρ) (p : Pass ρ) : Prop where
  offset : p.offset < UInt64.size
  prompt : ∀ f ∈ p.flight, f.Prompt
  phase : match p.phase with
    | .reading => True
    | .comparing fetched page =>
      page = (rows.drop p.offset).take plan.batch ∧ fetched = page.length
    | .reporting fetched _ _ _ => fetched = ((rows.drop p.offset).take plan.batch).length
    | .pausing => False
    | .done r => r = .ok ()

section Steady

variable {plan : Plan} {rows others : List ρ} {p : Pass ρ}

theorem afterPage_of_distinct {page : List ρ} (h : Rows.Distinct page) (hne : page ≠ []) :
    p.afterPage plan (.ok page) = p.enter (.comparing page.length page) := by
  cases page with
  | nil => contradiction
  | cons r rest => simp only [afterPage, dedup_of_distinct h]

theorem page_pageQuery (hsince : plan.since = none) (p : Pass ρ) (rows : List ρ) :
    Rows.page (p.pageQuery plan) rows = (rows.drop p.offset).take plan.batch := by
  unfold pageQuery
  rw [hsince]
  cases p.way <;> exact Rows.page_whole ..

omit [Entity ρ] in
/-- The rows behind a page follow it. -/
theorem page_append_drop {page : List ρ} {offset : Nat}
    (h : page = (rows.drop offset).take plan.batch) :
    page ++ rows.drop (offset + page.length) = rows.drop offset := by
  rw [← List.drop_drop]
  exact List.prefix_iff_eq_append.mp (h ▸ List.take_prefix ..)

/-- What comes behind a page that was read. -/
private theorem steady_turn (others : List ρ) (hmode : plan.mode = .oneShot)
    (hsize : rows.length < UInt64.size) (hoffset : p.offset < UInt64.size) {fetched : Nat}
    (hf : fetched = ((rows.drop p.offset).take plan.batch).length) :
    (p.turn plan fetched).way = p.way ∧ (p.turn plan fetched).Steady plan rows ∧
      (p.turn plan fetched).weight rows ≤ 8 * (rows.length - (p.offset + fetched)) + 5 ∧
      (p.turn plan fetched).pending others rows =
        p.way.differences others (rows.drop (p.offset + fetched)) := by
  have hlen : fetched = min plan.batch (rows.length - p.offset) := by simpa using hf
  unfold turn
  by_cases hfull : plan.batch ≤ fetched
  · rw [if_pos hfull]
    refine ⟨rfl, ⟨?_, by simp [enter], trivial⟩, ?_, rfl⟩
    · change p.offset + fetched < UInt64.size
      omega
    · simp [enter, weight]
  · rw [if_neg hfull, hmode]
    have hend : rows.drop (p.offset + fetched) = [] := List.drop_eq_nil_of_le (by omega)
    refine ⟨rfl, ⟨?_, by simp [enter], rfl⟩, by simp [enter, weight], ?_⟩
    · change p.offset + fetched < UInt64.size
      omega
    · rw [hend]
      rfl

private theorem steady_reportAll (others : List ρ) (hmode : plan.mode = .oneShot)
    (hsize : rows.length < UInt64.size) (hoffset : p.offset < UInt64.size) {fetched : Nat}
    (hf : fetched = ((rows.drop p.offset).take plan.batch).length) (found : List (Int × Mismatch)) :
    (p.reportAll plan fetched found).way = p.way ∧
    (p.reportAll plan fetched found).Steady plan rows ∧
      (p.reportAll plan fetched found).weight rows ≤
        8 * (rows.length - (p.offset + fetched)) + 2 * found.length + 5 ∧
      (p.reportAll plan fetched found).pending others rows =
        found ++ p.way.differences others (rows.drop (p.offset + fetched)) := by
  cases found with
  | nil => exact steady_turn (p := { p with failures := 0 }) others hmode hsize hoffset hf
  | cons x rest =>
    obtain ⟨id, kind⟩ := x
    refine ⟨rfl, ⟨hoffset, by simp [reportAll, enter], hf⟩, ?_, rfl⟩
    simp only [reportAll, enter, weight, Option.isNone_none, if_true, List.length_cons]
    omega

/-- A page that comes leaves what a pass has yet to report as it is. -/
private theorem steady_afterPage (others : List ρ) (hmode : plan.mode = .oneShot)
    (hbatch : 0 < plan.batch) (hsize : rows.length < UInt64.size) (hdistinct : Rows.Distinct rows)
    (hoffset : p.offset < UInt64.size) (hph : p.phase = .reading) {f : Flight}
    (hf : p.flight = some f) {p' : Pass ρ}
    (hp' : p' = p.afterPage plan (.ok ((rows.drop p.offset).take plan.batch))) :
    p'.way = p.way ∧ p'.Steady plan rows ∧ p'.weight rows < p.weight rows ∧
      p'.pending others rows = p.pending others rows := by
  subst hp'
  generalize hpg : (rows.drop p.offset).take plan.batch = page
  have hlen : page.length = min plan.batch (rows.length - p.offset) := by simp [← hpg]
  have hpageDistinct : Rows.Distinct page := hpg ▸ hdistinct.page ..
  by_cases hne : page = []
  · -- the offset is behind the last row
    have hend : rows.length - p.offset = 0 := by
      rw [hne, List.length_nil] at hlen
      omega
    obtain ⟨hway, hsteady, -, hpending⟩ := steady_reportAll others hmode hsize hoffset
      (hpg ▸ hne ▸ rfl : 0 = ((rows.drop p.offset).take plan.batch).length) []
    rw [hne]
    refine ⟨hway, hsteady, ?_, ?_⟩
    · have hzero : (p.afterPage plan (.ok [])).weight rows = 0 := by
        simp [afterPage, dedup, reportAll, turn, hmode, Nat.not_le.mpr hbatch, enter, weight]
      rw [hzero]
      simp only [weight, hph]
      omega
    · refine hpending.trans ?_
      simp only [pending, hph, List.nil_append, Nat.add_zero]
  · have hpos : 0 < page.length := List.length_pos_iff.mpr hne
    rw [afterPage_of_distinct hpageDistinct hne]
    refine ⟨rfl, ⟨hoffset, by simp [enter], hpg.symm, rfl⟩, ?_, ?_⟩
    · simp only [enter, weight, hph, hf, Option.isNone_none, Option.isNone_some, if_true]
      omega
    · simp only [enter, pending, hph, page_append_drop hpg.symm]

/-- A move leaves what a pass has yet to report as it is, or publishes the first of it. -/
theorem Steady.move {m : Moment} {d d' : Deployment ρ} {p' : Pass ρ} (h : p.Steady plan rows)
    (hbatch : 0 < plan.batch) (hmode : plan.mode = .oneShot) (hsince : plan.since = none)
    (hsize : rows.length < UInt64.size) (hrows : (d.store (p.pageSide plan)).rows = rows)
    (hothers : (d.store (p.lookupSide plan)).rows = others) (hdistinct : Rows.Distinct rows)
    (hdistinct' : Rows.Distinct others) (hstop : m.stopped = false)
    (hprompt : d.Prompt plan.callLimit) (hm : Moved plan m d p d' p') :
    p'.way = p.way ∧ p'.Steady plan rows ∧ p'.weight rows < p.weight rows ∧
      ((d.Alike d' ∧ d'.Prompt plan.callLimit ∧ p'.pending others rows = p.pending others rows) ∨
        ∃ fetched id kind rest, p.phase = .reporting fetched id kind rest ∧
          p.pending others rows = (id, kind) :: p'.pending others rows ∧
          d' = { d with broker := d.broker.append plan.topic (plan.report id kind).encode }) := by
  obtain ⟨hoffset, hflight, hphase⟩ := h
  cases hm with
  | begun hdone _ hnone ha hp =>
    obtain ⟨hf, hd⟩ := hp _ (Nat.le_refl _) hprompt
    refine ⟨rfl, ⟨hoffset, fun f he => ?_, hphase⟩, ?_, .inl ⟨ha, hd, rfl⟩⟩
    · cases he
      exact hf
    · cases hph : p.phase with
      | reading | comparing _ _ | reporting _ _ _ _ => simp [weight, hph, hnone]
      | pausing => simp only [hph] at hphase
      | done r => exact absurd hph (hdone r)
  | paged hph hf ha hp =>
    obtain ⟨hway, hsteady, hweight, hpending⟩ :=
      steady_afterPage others hmode hbatch hsize hdistinct hoffset hph hf rfl
    rw [hrows, page_pageQuery hsince]
    exact ⟨hway, hsteady, hweight, .inl ⟨ha, hp _ hprompt, hpending⟩⟩
  | @compared d' f fetched page hph hf ha hp =>
    simp only [hph] at hphase
    obtain ⟨hpg, hlen⟩ := hphase
    rw [hothers, Way.mismatches_eq _ hdistinct']
    have := Way.length_differences_le p.way others page
    obtain ⟨hway, hsteady, hweight, hpending⟩ := steady_reportAll others hmode
      hsize hoffset (hpg ▸ hlen) (p.way.differences others page)
    refine ⟨hway, hsteady, Nat.lt_of_le_of_lt hweight ?_, .inl ⟨ha, hp _ hprompt, ?_⟩⟩
    · simp only [weight, hph]
      omega
    · refine hpending.trans ?_
      simp only [pending, hph, Way.differences_append]
  | @reported f fetched id kind rest hph hf =>
    simp only [hph] at hphase
    obtain ⟨hway, hsteady, hweight, hpending⟩ := steady_reportAll others hmode
      hsize hoffset hphase rest
    refine ⟨hway, hsteady, Nat.lt_of_le_of_lt hweight ?_,
      .inr ⟨fetched, id, kind, rest, hph, ?_, rfl⟩⟩
    · simp only [weight, hph]
      omega
    · refine Eq.trans ?_ (congrArg (List.cons (id, kind)) hpending.symm)
      simp only [pending, hph]
  | rested hph => simp only [hph] at hphase
  | failed hdone ha hfine => exact absurd ⟨hstop, ⟨_, hprompt⟩, hflight⟩ hfine

end Steady

end Pass

/-! ## Scans -/

/-- The side whose pages are read in a direction. -/
def Plan.pages (plan : Plan) : Way → Side
  | .baseToTarget => plan.base
  | .targetToBase => plan.target

omit [Entity ρ] in
theorem Pass.pageSide_eq (plan : Plan) (p : Pass ρ) : p.pageSide plan = plan.pages p.way := by
  unfold pageSide
  cases p.way <;> rfl

/-- What is reported of ids and mismatches. -/
def Plan.reports (plan : Plan) (found : List (Int × Mismatch)) : List Report :=
  found.map fun x => plan.report x.1 x.2

/-- What a scan of the rows of `d₀` has to report. -/
def Plan.allReports (plan : Plan) (d₀ : Deployment ρ) : List Report :=
  plan.reports (differences (d₀.store plan.base).rows (d₀.store plan.target).rows)

/-- What the pass in a direction has yet to report of the rows of `d₀`. -/
def owed (plan : Plan) (d₀ : Deployment ρ) (s : Scan ρ) (way : Way) : List Report :=
  plan.reports ((s.pass way).pending (d₀.store (plan.pages way).other).rows
    (d₀.store (plan.pages way)).rows)

/-- A scan of the rows of `d₀` that has left out none of them. -/
structure Steady (plan : Plan) (d₀ d : Deployment ρ) (s : Scan ρ) : Prop where
  planned : s.plan = plan
  way : ∀ way, (s.pass way).way = way
  pass : ∀ way, (s.pass way).Steady plan (d₀.store (plan.pages way)).rows
  owes : d₀.Owes plan.callLimit plan.topic (plan.allReports d₀) d
    (s.owed plan d₀ .baseToTarget ++ s.owed plan d₀ .targetToBase)

/-- How many moves a scan of the rows of `d₀` may have yet to make. -/
def weight (plan : Plan) (d₀ : Deployment ρ) (s : Scan ρ) : Nat :=
  (s.pass .baseToTarget).weight (d₀.store (plan.pages .baseToTarget)).rows +
    (s.pass .targetToBase).weight (d₀.store (plan.pages .targetToBase)).rows

/-- The two stores hold rows with different ids, no more than can be counted, and every call to
them and to the broker is going to be answered in time. -/
structure Sound (plan : Plan) (d₀ : Deployment ρ) : Prop where
  prompt : d₀.Prompt plan.callLimit
  distinct : ∀ side, Rows.Distinct (d₀.store side).rows
  size : ∀ side, (d₀.store side).rows.length < UInt64.size

section

variable {plan : Plan} {d₀ d d' : Deployment ρ} {s s' : Scan ρ}

theorem steady_start (h : Sound plan d₀) : Steady plan d₀ d₀ { plan } := by
  refine ⟨rfl, fun way => by cases way <;> rfl, fun way => ?_, .start h.prompt (.of_eq ?_)⟩
  · cases way <;> exact ⟨Nat.two_pow_pos 64, by simp [pass], trivial⟩
  · simp only [owed, Plan.allReports, differences, Plan.reports, List.map_append, pass, Plan.pages,
      Pass.pending, List.drop_zero, Comparison.target, Side.other_other]

theorem Steady.move {way : Way} {now : Nat} (h : Steady plan d₀ d s) (hs : Sound plan d₀)
    (hbatch : 0 < plan.batch) (hmode : plan.mode = .oneShot) (hsince : plan.since = none)
    (hm : s.stepWay way ⟨now, false⟩ d = some (d', s')) :
    Steady plan d₀ d' s' ∧ s'.weight plan d₀ < s.weight plan d₀ := by
  unfold stepWay at hm
  split at hm
  · cases hm
  obtain ⟨⟨e, p⟩, hstep, heq⟩ := Option.map_eq_some_iff.mp hm
  cases heq
  rw [h.planned] at hstep
  have hpages : (s.pass way).pageSide plan = plan.pages way := by
    rw [Pass.pageSide_eq, h.way]
  obtain ⟨hway, hsteady, hweight, hkept⟩ := (h.pass way).move hbatch hmode hsince (hs.size _)
    (by rw [hpages, h.owes.rows]) (by rw [Pass.lookupSide, hpages, h.owes.rows]) (hs.distinct _)
    (hs.distinct (plan.pages way).other) rfl h.owes.prompt (Pass.moved_of_step hstep)
  have howed (other : Way) : (s.setPass p way).owed plan d₀ other =
      if other = way then plan.reports (p.pending (d₀.store (plan.pages way).other).rows
        (d₀.store (plan.pages way)).rows)
      else s.owed plan d₀ other := by
    unfold owed
    rw [pass_setPass]
    split
    · next heq => rw [heq]
    · rfl
  refine ⟨⟨by simp [h.planned], fun other => ?_, fun other => ?_, ?_⟩, ?_⟩
  · rw [pass_setPass]
    split
    · next heq => rw [hway, h.way, heq]
    · exact h.way other
  · rw [pass_setPass]
    split
    · next heq => rwa [heq]
    · exact h.pass other
  · rcases hkept with ⟨ha, hp, hpending⟩ | ⟨-, id, kind, -, -, hpending, rfl⟩
    · have (other : Way) : (s.setPass p way).owed plan d₀ other = s.owed plan d₀ other := by
        rw [howed, hpending]
        split
        · next heq => rw [heq]; rfl
        · rfl
      rw [this, this]
      exact h.owes.alike ha hp
    · have hfirst : s.owed plan d₀ way =
          plan.report id kind :: (s.setPass p way).owed plan d₀ way := by
        rw [howed, if_pos rfl, owed, hpending]
        rfl
      refine Deployment.Owes.report (h.owes.perm ?_)
      cases way with
      | baseToTarget => rw [hfirst, howed .targetToBase]; exact .refl _
      | targetToBase => rw [hfirst, howed .baseToTarget]; exact List.perm_middle.symm
  · cases way with
    | baseToTarget => exact Nat.add_lt_add_right hweight _
    | targetToBase => exact Nat.add_lt_add_left hweight _

theorem Steady.retimed (h : Steady plan d₀ d s) (hr : d.Retimed plan.callLimit d') :
    Steady plan d₀ d' s :=
  { h with owes := h.owes.alike hr.alike (hr.prompt h.owes.prompt) }

theorem Steady.isBroken (h : Steady plan d₀ d s) : s.isBroken = false :=
  isBroken_eq_false_iff.mpr fun way => Pass.isBroken_eq_false_iff.mpr (h.pass way).offset

theorem Pass.Steady.result {rows : List ρ} {p : Pass ρ} {r : Except Error Unit}
    (h : p.Steady plan rows) (hr : p.result? = some r) :
    r = .ok () ∧ ∀ others, p.pending others rows = [] := by
  have hph := phase_of_result? hr
  have := h.phase
  rw [hph] at this
  exact ⟨this, fun others => by simp only [pending, hph]⟩

/-- A pass of a scan that has not ended moves once the delay of its call is over. -/
theorem stepWay_isSome {way : Way} (hr : s.isOver = false)
    (hw : (s.pass way).result? = none) :
    ∃ t, ∀ now, t ≤ now → (s.stepWay way ⟨now, false⟩ d).isSome := by
  have hdone (r : Except Error Unit) : (s.pass way).phase ≠ .done r := by
    intro hph
    rw [Pass.result?, hph] at hw
    cases hw
  refine ⟨((s.pass way).flight.map Flight.ready).getD 0, fun now hnow => ?_⟩
  simp only [stepWay, hr, Bool.false_eq_true, if_false, Option.isSome_map]
  refine Pass.step_isSome hdone fun f hf => ?_
  rw [Option.mem_def.mp hf] at hnow
  exact hnow

/-- A scan leaves out none of the rows all along its course. -/
theorem steady_course (hs : Sound plan d₀) (hbatch : 0 < plan.batch)
    (hmode : plan.mode = .oneShot) (hsince : plan.since = none) {n : Nat}
    (h : Deployment.Course plan.callLimit stepWay d₀ { plan } n d s) : Steady plan d₀ d s :=
  h.invariant (I := fun _ d s => Steady plan d₀ d s) (steady_start hs)
    (fun h hr => h.retimed hr) fun h hm => (h.move hs hbatch hmode hsince hm).1

/-- A scan reports each difference of the stores once, and nothing else. -/
theorem concludes (hs : Sound plan d₀) (hbatch : 0 < plan.batch) (hmode : plan.mode = .oneShot)
    (hsince : plan.since = none) :
    Deployment.Concludes plan.callLimit stepWay result? d₀ { plan }
      (d₀.Published plan.topic (plan.allReports d₀)) := by
  refine .of_invariant (Steady plan d₀) (weight plan d₀) (steady_start hs) ?_ ?_ ?_ ?_
  · exact fun h hr => h.retimed hr
  · exact fun h hm => h.move hs hbatch hmode hsince hm
  · intro d s h hr
    have hlive : s.isOver = false := isOver_eq_false_iff.mpr ⟨h.isBroken, hr⟩
    obtain ⟨way, hw⟩ := exists_undone hlive
    exact ⟨way, stepWay_isSome hlive hw⟩
  · intro d s r h hr
    obtain ⟨hok, -, hdone⟩ := done_of_result? hr fun way q hq =>
      ((h.pass way).result hq).1
    have howed (way : Way) : s.owed plan d₀ way = [] := by
      rw [owed, ((h.pass way).result (hdone way)).2]
      rfl
    have howes := h.owes
    rw [howed, howed, List.append_nil] at howes
    exact ⟨hok, howes.published⟩

end

end Scan

end Cutover
