import Cutover.Proofs.Watches

/-!
# Rows that a scan comes to

A scan that goes on keeps the number of rows that it has passed, and not which. A page that is read
has no row whose place is smaller than this number (`Watch.offset_le_of_read`), and since places
never get smaller, a row whose place once was not is read before the scan has gone to rest twice.
Main statement: if it differs from what the target has, and nothing is written to its id, then its
mismatch is published by then (`Watch.published_of_ahead`). A row that is rewritten at a place that
was passed is not looked at again (`Watch.rewritten_unpublished`).
-/

namespace Cutover

variable {ρ : Type} [Entity ρ]

/-! ## Passes -/

namespace Scan.Pass

variable {plan : Plan} {poll : Nat} {stale : Prop} {place place' : Nat} {r : ρ} {kind : Mismatch}
  {p p' : Pass ρ} {m : Moment} {d d' : Deployment ρ}

def isPausing (p : Pass ρ) : Bool :=
  match p.phase with
  | .pausing => true
  | _ => false

/-- A pass has a row of the base at a place in its page, in its reports, or before it. If the row is
behind the page in hand, then this page was full, unless it is `stale`. -/
def Expects (plan : Plan) (stale : Prop) (place : Nat) (r : ρ) (kind : Mismatch) (p : Pass ρ) :
    Prop :=
  match p.phase with
  | .reading | .pausing => p.offset ≤ place
  | .comparing fetched page =>
    r ∈ page ∨ p.offset + fetched ≤ place ∧ (plan.batch ≤ fetched ∨ stale)
  | .reporting fetched id first rest =>
    (Entity.id r, kind) ∈ (id, first) :: rest ∨
      p.offset + fetched ≤ place ∧ (plan.batch ≤ fetched ∨ stale)
  | .done _ => False

theorem expects_of_next_le (hlive : ∀ q, p.phase ≠ .done q) (h : p.next ≤ place) :
    p.Expects plan True place r kind := by
  unfold next at h
  unfold Expects
  cases hph : p.phase with
  | reading | pausing =>
    rw [hph] at h
    exact h
  | comparing | reporting =>
    rw [hph] at h
    exact .inr ⟨h, .inr trivial⟩
  | done q => exact hlive q hph

theorem Expects.mono (h : p.Expects plan stale place r kind) (hle : place ≤ place') :
    p.Expects plan stale place' r kind := by
  unfold Expects at h ⊢
  cases hph : p.phase with
  | reading | pausing =>
    rw [hph] at h
    exact Nat.le_trans h hle
  | comparing | reporting =>
    rw [hph] at h
    exact h.imp_right fun ⟨hnext, hfull⟩ => ⟨Nat.le_trans hnext hle, hfull⟩
  | done =>
    rw [hph] at h
    exact h

/-- A pass at rest has no page in hand. -/
theorem Expects.fresh (h : p.Expects plan stale place r kind) (hp : p.isPausing = true) :
    p.Expects plan False place r kind := by
  unfold isPausing at hp
  unfold Expects at h ⊢
  split at hp
  · next hph =>
    rw [hph] at h ⊢
    exact h
  · cases hp

theorem expects_turn (hmode : plan.mode = .continuous poll) {fetched : Nat}
    (hle : p.offset + fetched ≤ place) (hfull : plan.batch ≤ fetched ∨ stale) :
    (p.turn plan fetched).Expects plan stale place r kind ∧
      ((p.turn plan fetched).isPausing = true → stale) := by
  unfold turn
  split
  · exact ⟨hle, by simp [enter, isPausing]⟩
  · next hshort =>
    rw [hmode]
    exact ⟨hle, fun _ => hfull.resolve_left hshort⟩

theorem expects_reportAll (hmode : plan.mode = .continuous poll) (fetched : Nat)
    (found : List (Int × Mismatch)) (h : (Entity.id r, kind) ∈ found ∨
      p.offset + fetched ≤ place ∧ (plan.batch ≤ fetched ∨ stale)) :
    (p.reportAll plan fetched found).Expects plan stale place r kind ∧
      ((p.reportAll plan fetched found).isPausing = true → stale) := by
  cases found with
  | nil =>
    obtain ⟨hle, hfull⟩ := h.resolve_left List.not_mem_nil
    exact expects_turn (p := { p with failures := 0 }) hmode hle hfull
  | cons x rest => exact ⟨h, by simp [reportAll, enter, isPausing]⟩

/-- A page that is read has the row, or it is full and the row is behind it. -/
theorem mem_page_or_behind {t : Table ρ} {offset : Nat} (limit : Nat) (hr : r ∈ t.rows)
    (hle : offset ≤ t.rank (Entity.id r)) :
    r ∈ (t.rows.drop offset).take limit ∨
      offset + ((t.rows.drop offset).take limit).length ≤ t.rank (Entity.id r) ∧
        limit ≤ ((t.rows.drop offset).take limit).length := by
  rcases Nat.lt_or_ge (t.rank (Entity.id r)) (offset + limit) with hlt | hge
  · exact .inl (Table.mem_page_of_rank hr hle hlt)
  · have hlength : ((t.rows.drop offset).take limit).length = limit := by
      have := Table.rank_lt_length hr
      rw [List.length_take, List.length_drop]
      omega
    rw [hlength]
    exact .inr ⟨hge, Nat.le_refl _⟩

theorem page_base (hway : p.way = .baseToTarget) {b : Table ρ}
    (hb : (d.store plan.base).contents = .table b) :
    Rows.page (p.pageQuery plan) (d.store (p.pageSide plan)).rows =
      ((b.view plan.since).rows.drop p.offset).take plan.batch := by
  rw [pageQuery, pageSide, hway, Store.rows, hb, Table.rows_view]
  rfl

/-- A page that is read has only rows that the pass has not passed. -/
theorem Moved.offset_le_of_read (hm : Moved plan m d p d' p') (hgoes : p.GoesOn .baseToTarget)
    (hstop : m.stopped = false) (hprompt : d.Prompt plan.callLimit) {b : Table ρ}
    (hb : (d.store plan.base).contents = .table b) (hread : p.phase = .reading) {fetched : Nat}
    {page : List ρ} (hpage : p'.phase = .comparing fetched page) (hr : r ∈ page) :
    p.offset ≤ (b.view plan.since).rank (Entity.id r) := by
  cases hm with
  | begun =>
    rw [hread] at hpage
    cases hpage
  | paged =>
    rw [page_base hgoes.way hb] at hpage
    have hdistinct := (b.view plan.since).distinct.page p.offset plan.batch
    generalize hrows : ((b.view plan.since).rows.drop p.offset).take plan.batch = rows at *
    by_cases hne : rows = []
    · subst hne
      simp only [afterPage, dedup, reportAll, turn] at hpage
      split at hpage
      · cases hpage
      · split at hpage <;> cases hpage
    · rw [afterPage_of_distinct hdistinct hne] at hpage
      cases hpage
      exact Table.le_rank_of_mem_drop (List.mem_of_mem_take (hrows ▸ hr))
  | compared hph | reported hph | rested hph =>
    rw [hread] at hph
    cases hph
  | failed _ _ hfine => exact absurd ⟨hstop, ⟨_, hprompt⟩, hgoes.prompt⟩ hfine

/-- A move either publishes the mismatch of a row or leaves the row where the pass comes to it; the
pass then does not go to rest unless its page is stale. -/
theorem Expects.move (h : p.Expects plan stale place r kind) (hmode : plan.mode = .continuous poll)
    (hgoes : p.GoesOn .baseToTarget) {b t : Table ρ} (hb : (d.store plan.base).contents = .table b)
    (ht : (d.store plan.target).contents = .table t) (hr : r ∈ (b.view plan.since).rows)
    (hplace : place = (b.view plan.since).rank (Entity.id r))
    (hkind : Mismatch.between (some r) (t.get? (Entity.id r)) = some kind)
    (hstop : m.stopped = false) (hprompt : d.Prompt plan.callLimit) (hm : Moved plan m d p d' p') :
    d' = { d with broker := d.broker.append plan.topic (plan.report (Entity.id r) kind).encode } ∨
      p'.Expects plan stale place r kind ∧
        (p.isPausing = false → p'.isPausing = true → stale) := by
  obtain ⟨hway, hflight, hlive⟩ := hgoes
  unfold Expects at h
  cases hm with
  | begun =>
    refine .inr ⟨h, fun hold hnew => ?_⟩
    rw [isPausing] at hold hnew
    rw [hold] at hnew
    cases hnew
  | paged hph =>
    rw [hph] at h
    rw [page_base hway hb]
    have hpage := mem_page_or_behind plan.batch hr (hplace ▸ h)
    have hdistinct := (b.view plan.since).distinct.page p.offset plan.batch
    generalize ((b.view plan.since).rows.drop p.offset).take plan.batch = page at hpage hdistinct
    by_cases hne : page = []
    · subst hne
      obtain ⟨hle, hfull⟩ := hpage.resolve_left List.not_mem_nil
      exact .inr (And.imp_right (fun hrest _ => hrest)
        (expects_reportAll hmode 0 [] (.inr ⟨hplace ▸ hle, .inl hfull⟩)))
    · rw [afterPage_of_distinct hdistinct hne]
      refine .inr ⟨?_, by simp [enter, isPausing]⟩
      exact hpage.imp_right fun hbehind => ⟨hplace ▸ hbehind.1, .inl hbehind.2⟩
  | @compared d' f fetched page hph =>
    rw [hph] at h
    have hside : p.lookupSide plan = plan.target := by rw [lookupSide, pageSide, hway]; rfl
    have hfound : Way.baseToTarget.mismatches page (d.store plan.target).rows =
        Way.baseToTarget.differences t.rows page := by
      rw [Store.rows, ht]
      exact Way.mismatches_eq _ t.distinct page
    rw [hside, hway, hfound]
    rw [Table.get?_eq_first?] at hkind
    have hverdict : Way.baseToTarget.verdict t.rows r = some (Entity.id r, kind) :=
      congrArg (Option.map (Entity.id r, ·)) hkind
    exact .inr (And.imp_right (fun hrest _ => hrest) (expects_reportAll hmode fetched _
      (h.imp_left fun hmem => Way.mem_differences.mpr ⟨r, hmem, hverdict⟩)))
  | @reported f fetched id first rest hph =>
    rw [hph] at h
    by_cases heq : (Entity.id r, kind) = (id, first)
    · cases heq
      exact .inl rfl
    · exact .inr (And.imp_right (fun hrest _ => hrest) (expects_reportAll hmode fetched rest
        (h.imp_left fun hmem => (List.mem_cons.mp hmem).resolve_left heq)))
  | rested hph =>
    rw [hph] at h
    exact .inr ⟨h, by simp [afterPause, enter, isPausing]⟩
  | failed _ _ hfine => exact absurd ⟨hstop, ⟨_, hprompt⟩, hflight⟩ hfine

end Scan.Pass

/-! ## Watches -/

namespace Watch

variable {plan : Scan.Plan} {poll : Nat} {stale : Prop} {w : Watch ρ} {x : Incident ρ} {r : ρ}
  {kind : Mismatch} {incidents : List (Incident ρ)}

/-- The offset from which the scan goes on through the base when it is through with its page. -/
def offset (w : Watch ρ) : Nat := w.scan.forth.next

/-- The pass through the base ends a look for new rows with an incident: it has read a page that was
not full, and has compared and reported it. -/
def rests (w : Watch ρ) (x : Incident ρ) : Bool :=
  !w.scan.forth.isPausing && (w.perform x).scan.forth.isPausing

/-- How many looks for new rows come to their end. -/
def polls (w : Watch ρ) : List (Incident ρ) → Nat
  | [] => 0
  | x :: rest => (w.rests x).toNat + (w.perform x).polls rest

/-- A row of the base that differs from what the target has, and that the scan comes to. -/
structure Expects (plan : Scan.Plan) (stale : Prop) (r : ρ) (kind : Mismatch) (w : Watch ρ) :
    Prop where
  sound : w.Sound plan
  since : Rows.isSince plan.since r = true
  base : Rows.first? (Entity.id r) w.base = some r
  target : Mismatch.between (some r) (Rows.first? (Entity.id r) w.target) = some kind
  pass : w.scan.forth.Expects plan stale (w.place (Entity.id r)) r kind

theorem rests_of_forth_eq (h : (w.perform x).scan.forth = w.scan.forth) : w.rests x = false := by
  rw [rests, h, Bool.not_and_self]

/-- What is not written to the row leaves the row as it is, so that only the pass has to be looked
at. -/
theorem Expects.of_pass (h : w.Expects plan stale r kind) (hmode : plan.mode = .continuous poll)
    (hx : x.Allowed plan w) (hr : ¬x.Writes (Entity.id r))
    (hpass : (w.perform x).scan.forth.Expects plan stale
      ((w.perform x).place (Entity.id r)) r kind) :
    (w.perform x).Expects plan stale r kind := by
  have hsame := h.sound.first?_perform hr
  refine ⟨h.sound.perform hmode hx, h.since, ?_, ?_, hpass⟩
  · rw [Watch.base, plan_perform]
    exact (hsame _).trans h.base
  · rw [Watch.target, plan_perform, hsame]
    exact h.target

/-- What is allowed to happen either publishes the mismatch of the row or leaves the row where the
scan comes to it. -/
theorem Expects.perform (h : w.Expects plan stale r kind) (hmode : plan.mode = .continuous poll)
    (hx : x.Allowed plan w) (hr : ¬x.Writes (Entity.id r)) :
    (w.perform x).log = w.log ++ [(plan.report (Entity.id r) kind).encode] ∨
      (w.perform x).Expects plan stale r kind ∧ (w.rests x = true → stale) := by
  have hplace := h.sound.place_le_perform hx (Entity.id r)
  have hkeep (hforth : (w.perform x).scan.forth = w.scan.forth) :
      (w.perform x).Expects plan stale r kind ∧ (w.rests x = true → stale) :=
    ⟨h.of_pass hmode hx hr (hforth ▸ h.pass.mono hplace), by simp [rests_of_forth_eq hforth]⟩
  cases x with
  | put | remove | publish | plan | planBroker => exact .inr (hkeep rfl)
  | turn way now =>
    rcases w.perform_turn way now with heq | ⟨site, p, hm, heq⟩
    · exact .inr (hkeep (by rw [heq]))
    cases way with
    | targetToBase => exact .inr (hkeep (by rw [heq]; rfl))
    | baseToTarget =>
      have hplan := h.sound.planned
      obtain ⟨b, hb⟩ := h.sound.table plan.base
      obtain ⟨t, ht⟩ := h.sound.table plan.target
      have hbase := h.base
      rw [Watch.base, hplan, Store.rows, hb, ← Contents.get?_eq_first?] at hbase
      have htarget := h.target
      rw [Watch.target, hplan, Store.rows, ht, ← Contents.get?_eq_first?] at htarget
      have hrow := (Table.get?_eq_some_iff.mp (Table.get?_view.mpr ⟨hbase, h.since⟩)).1
      rw [hplan] at hm
      rcases h.pass.move hmode (h.sound.pass .baseToTarget) hb ht hrow
          (place_eq hplan hb _) htarget rfl
        h.sound.prompt hm with rfl | ⟨hpass, hrest⟩
      · left
        rw [log, log, plan_perform, heq, hplan, Broker.log_append, if_pos rfl]
      · refine .inr ⟨h.of_pass hmode hx hr (.mono ?_ hplace), fun hrests => ?_⟩
        · rw [heq]
          exact hpass
        · rw [rests, heq, Bool.and_eq_true, Bool.not_eq_true'] at hrests
          exact hrest hrests.1 hrests.2

/-- A mismatch was published in the course of some incidents. -/
def Publishes (plan : Scan.Plan) (r : ρ) (kind : Mismatch) (w : Watch ρ)
    (incidents : List (Incident ρ)) : Prop :=
  ∃ new, (w.after incidents).log = w.log ++ new ∧ (plan.report (Entity.id r) kind).encode ∈ new

theorem publishes_cons_of_eq
    (h : (w.perform x).log = w.log ++ [(plan.report (Entity.id r) kind).encode])
    (rest : List (Incident ρ)) : w.Publishes plan r kind (x :: rest) := by
  obtain ⟨more, hmore⟩ := (w.perform x).log_after rest
  refine ⟨(plan.report (Entity.id r) kind).encode :: more, ?_, List.mem_cons_self⟩
  rw [h, List.append_assoc] at hmore
  exact hmore.symm

theorem Publishes.cons (h : (w.perform x).Publishes plan r kind incidents) :
    w.Publishes plan r kind (x :: incidents) := by
  obtain ⟨new, hnew, hmem⟩ := h
  obtain ⟨first, hfirst⟩ := w.log_perform x
  exact ⟨first ++ new, by rw [← List.append_assoc, hfirst]; exact hnew,
    List.mem_append_right _ hmem⟩

/-- A row that a scan comes to with no stale page in hand is published before the scan goes to
rest. -/
theorem Expects.publishes_of_poll (h : w.Expects plan False r kind)
    (hmode : plan.mode = .continuous poll) (hall : w.Allows plan incidents)
    (hr : ∀ x ∈ incidents, ¬x.Writes (Entity.id r)) (hpolls : 1 ≤ w.polls incidents) :
    w.Publishes plan r kind incidents := by
  induction incidents generalizing w with
  | nil => cases hpolls
  | cons x rest ih =>
    obtain ⟨hx, hrest⟩ := List.forall_mem_cons.mp hr
    rcases h.perform hmode hall.1 hx with hlog | ⟨hnext, hstale⟩
    · exact publishes_cons_of_eq hlog rest
    · have hawake : w.rests x = false := Bool.eq_false_iff.mpr hstale
      rw [polls, hawake, Bool.toNat_false, Nat.zero_add] at hpolls
      exact (ih hnext hall.2 hrest hpolls).cons

/-- A row that a scan comes to is published before the scan has gone to rest twice. -/
theorem Expects.publishes_of_two_polls (h : w.Expects plan True r kind)
    (hmode : plan.mode = .continuous poll) (hall : w.Allows plan incidents)
    (hr : ∀ x ∈ incidents, ¬x.Writes (Entity.id r)) (hpolls : 2 ≤ w.polls incidents) :
    w.Publishes plan r kind incidents := by
  induction incidents generalizing w with
  | nil => cases hpolls
  | cons x rest ih =>
    obtain ⟨hx, hrest⟩ := List.forall_mem_cons.mp hr
    rcases h.perform hmode hall.1 hx with hlog | ⟨hnext, -⟩
    · exact publishes_cons_of_eq hlog rest
    · rw [polls] at hpolls
      cases hrests : w.rests x with
      | false =>
        rw [hrests, Bool.toNat_false, Nat.zero_add] at hpolls
        exact (ih hnext hall.2 hrest hpolls).cons
      | true =>
        rw [hrests, Bool.toNat_true] at hpolls
        have hpausing : (w.perform x).scan.forth.isPausing = true := by
          rw [rests, Bool.and_eq_true] at hrests
          exact hrests.2
        have hfresh : (w.perform x).Expects plan False r kind :=
          { hnext with pass := hnext.pass.fresh hpausing }
        exact (hfresh.publishes_of_poll hmode hall.2 hrest (by omega)).cons

theorem allows_append {past recent : List (Incident ρ)} :
    w.Allows plan (past ++ recent) ↔ w.Allows plan past ∧ (w.after past).Allows plan recent := by
  induction past generalizing w with
  | nil => exact (true_and _ ▸ Iff.rfl)
  | cons x rest ih => exact (and_congr_right' ih).trans and_assoc.symm

theorem sound_start {d : Deployment ρ} (hd : d.Prompt plan.callLimit)
    (ht : ∀ side, ∃ t, (d.store side).contents = .table t) :
    ({ site := d, scan := { plan } } : Watch ρ).Sound plan := by
  refine ⟨rfl, hd, ht, fun way => ?_⟩
  cases way <;> exact ⟨rfl, by simp [Scan.pass], by simp [Scan.pass]⟩

/-- A page that is read has only rows that the scan is not past. -/
theorem offset_le_of_read {fetched : Nat} {page : List ρ} (h : w.Sound plan)
    (hread : w.scan.forth.phase = .reading)
    (hpage : (w.perform x).scan.forth.phase = .comparing fetched page) (hr : r ∈ page) :
    w.offset ≤ w.place (Entity.id r) := by
  obtain ⟨b, hb⟩ := h.table plan.base
  have hoffset : w.offset = w.scan.forth.offset := by rw [offset, Scan.Pass.next, hread]
  have hsame (hforth : (w.perform x).scan.forth = w.scan.forth) : False := by
    rw [hforth, hread] at hpage
    cases hpage
  rw [hoffset, place_eq h.planned hb]
  cases x with
  | put | remove | publish | plan | planBroker => exact (hsame rfl).elim
  | turn way now =>
    rcases w.perform_turn way now with heq | ⟨site, p, hm, heq⟩
    · exact (hsame (by rw [heq])).elim
    cases way with
    | targetToBase => exact (hsame (by rw [heq]; rfl)).elim
    | baseToTarget =>
      rw [h.planned] at hm
      rw [heq] at hpage
      exact hm.offset_le_of_read (h.pass .baseToTarget) rfl h.prompt hb hread hpage hr

/-- A row that differs and that the scan is not past is reported. Let a scan go on without faults
while rows are written as allowed, and let it have come, after some of these incidents, to an offset
no larger than the place of a row among those that are looked at. If nothing is written to the id of
the row from then on, and the pass through the base ends two looks for new rows, then the way in
which the row and the target differ in the end was published in the meantime. -/
theorem published_of_ahead (hmode : plan.mode = .continuous poll) {d : Deployment ρ}
    (hd : d.Prompt plan.callLimit) (htables : ∀ side, ∃ t, (d.store side).contents = .table t)
    {past recent : List (Incident ρ)}
    (hall : ({ site := d, scan := { plan } } : Watch ρ).Allows plan (past ++ recent))
    {w : Watch ρ} (hw : w = ({ site := d, scan := { plan } } : Watch ρ).after past)
    (hpolls : 2 ≤ w.polls recent) (hr : r ∈ (w.after recent).base)
    (hsince : Rows.isSince plan.since r = true)
    (hkind : Mismatch.between (some r) (Rows.first? (Entity.id r) (w.after recent).target) =
      some kind)
    (hstill : ∀ x ∈ recent, ¬x.Writes (Entity.id r)) (hahead : w.offset ≤ w.place (Entity.id r)) :
    w.Publishes plan r kind recent := by
  obtain ⟨hpast, hrecent⟩ := allows_append.mp hall
  rw [← hw] at hrecent
  have hsound : w.Sound plan := hw ▸ (sound_start hd htables).after hmode hpast
  have hend := hsound.after hmode hrecent
  have hsame := hsound.first?_after hmode hrecent hstill
  -- what the row and the target are in the end they were from the beginning
  have hexpects : w.Expects plan True r kind := by
    refine ⟨hsound, hsince, ?_, ?_,
      Scan.Pass.expects_of_next_le (hsound.pass .baseToTarget).live hahead⟩
    · obtain ⟨b, hb⟩ := hend.table plan.base
      rw [Watch.base, hend.planned, Store.rows, hb] at hr
      rw [Watch.base, hsound.planned, ← hsame, Store.rows, hb, ← Contents.get?_eq_first?]
      exact Table.get?_of_mem hr
    · rwa [Watch.target, hsound.planned, ← hsame, ← hend.planned]
  exact hexpects.publishes_of_two_polls hmode hrecent hstill hpolls

/-! ## A sample -/

def samplePlan : Scan.Plan := .ofSide {} .src (some 5) (.continuous 10)

theorem isSince_samplePlan (r : Account) :
    Rows.isSince samplePlan.since r = decide (5 ≤ r.updatedAt) :=
  rfl

/-- A scan of two stores with the same two rows. -/
def sampleWatch : Watch Account :=
  let rows : List Account := [⟨1, "ann", 10, 5⟩, ⟨2, "bob", 20, 6⟩]
  { site := .ofRows rows rows .srcOnly, scan := { plan := samplePlan } }

/-- The first look at the base: a page is read and compared. -/
def sampleFirst : List (Incident Account) := List.replicate 4 (.turn .baseToTarget 0)

/-- A look for new rows in some turns, after a pause that begins at a moment. -/
def sampleLook (now turns : Nat) : List (Incident Account) :=
  .turn .baseToTarget now :: List.replicate turns (.turn .baseToTarget (now + 10))

/-- A third row is looked at while another one comes in before the rows that were passed. -/
theorem published_of_ahead_sample :
    let past := sampleFirst ++ [.put .src ⟨3, "cid", 30, 7⟩]
    let recent := .put .src ⟨0, "dan", 0, 8⟩ :: (sampleLook 0 7 ++ sampleLook 10 3)
    let w := sampleWatch.after past
    let r : Account := ⟨3, "cid", 30, 7⟩
    samplePlan.mode = .continuous 10 ∧ sampleWatch.site.Prompt samplePlan.callLimit ∧
      (∀ side, ∃ t, (sampleWatch.site.store side).contents = .table t) ∧
      sampleWatch.Allows samplePlan (past ++ recent) ∧ 2 ≤ w.polls recent ∧
      r ∈ (w.after recent).base ∧ Rows.isSince samplePlan.since r = true ∧
      Mismatch.between (some r) (Rows.first? 3 (w.after recent).target) = some .targetMissing ∧
      (∀ x ∈ recent, ¬x.Writes 3) ∧ w.offset ≤ w.place 3 ∧
      w.Publishes samplePlan r .targetMissing recent ∧
      (w.after recent).log = [(samplePlan.report 3 .targetMissing).encode] := by
  intro past recent w r
  have hprompt : sampleWatch.site.Prompt samplePlan.callLimit := Deployment.prompt_ofRows ..
  have htables : ∀ side, ∃ t, (sampleWatch.site.store side).contents = .table t
    | .src | .dst => ⟨_, rfl⟩
  have hall : sampleWatch.Allows samplePlan (past ++ recent) := by
    simp [past, recent, sampleFirst, sampleLook, List.replicate, Allows, Incident.allowed_turn,
      Incident.allowed_put, isSince_samplePlan]
  have hpolls : 2 ≤ w.polls recent := by decide +kernel
  have hr : r ∈ (w.after recent).base := by decide +kernel
  have hkind : Mismatch.between (some r) (Rows.first? 3 (w.after recent).target) =
      some .targetMissing := by decide +kernel
  have hstill : ∀ x ∈ recent, ¬x.Writes 3 := by decide
  have hahead : w.offset ≤ w.place 3 := by decide +kernel
  refine ⟨rfl, hprompt, htables, hall, hpolls, hr, rfl, hkind, hstill, hahead,
    ?_, by decide +kernel⟩
  exact published_of_ahead rfl hprompt htables hall rfl hpolls hr rfl hkind hstill hahead

/-- A row that is rewritten at a place that was passed is not looked at: however often the scan
looks for new rows after that, nothing is published, and the stores differ. -/
theorem rewritten_unpublished :
    let past := sampleFirst ++ [.put .src ⟨2, "bob", 25, 9⟩]
    let quiet := sampleLook 0 3 ++ sampleLook 10 3 ++ sampleLook 20 3
    let w := sampleWatch.after past
    let r : Account := ⟨2, "bob", 25, 9⟩
    samplePlan.mode = .continuous 10 ∧ sampleWatch.site.Prompt samplePlan.callLimit ∧
      sampleWatch.Allows samplePlan (past ++ quiet) ∧
      (∀ x ∈ quiet, ∃ way now, x = .turn way now) ∧ w.polls quiet = 3 ∧
      r ∈ (w.after quiet).base ∧ Rows.isSince samplePlan.since r = true ∧
      Mismatch.between (some r) (Rows.first? 2 (w.after quiet).target) = some .differs ∧
      (w.after quiet).log = [] := by
  intro past quiet w r
  have hall : sampleWatch.Allows samplePlan (past ++ quiet) := by
    simp [past, quiet, sampleFirst, sampleLook, List.replicate, Allows, Incident.allowed_turn,
      Incident.allowed_put, isSince_samplePlan]
  have hquiet : ∀ x ∈ quiet, ∃ way now, x = .turn way now := by
    simp [quiet, sampleLook, List.replicate]
  refine ⟨rfl, Deployment.prompt_ofRows .., hall, hquiet, ?_, ?_, rfl, ?_, ?_⟩
  · decide +kernel
  · decide +kernel
  · decide +kernel
  · decide +kernel

end Watch

end Cutover
