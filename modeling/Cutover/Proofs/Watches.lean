import Cutover.Proofs.Overlap

/-!
# Scans that go on while rows are written

A `Watch` is a deployment with a scan of it, to which one thing happens after the other: a pass
takes its turn, or somebody else writes to a store. Of the base no row is taken out, and a row that
is put in is looked at, or is the first of its id (`Watch.Allows`). Main statements: a row to whose
id nothing is written stays as it is (`Watch.Sound.first?_after`), while its place among the rows
that are looked at never gets smaller (`Watch.Sound.place_le_perform`).
-/

namespace Cutover

variable {ρ : Type} [Entity ρ]

/-! ## The rows that are looked at -/

namespace Table

/-- The rows of a table that were changed at a time or later. -/
def view (since : Option Int) (t : Table ρ) : Table ρ where
  entries := t.entries.filter (Rows.isSince since ·.2)
  sorted := t.sorted.filter _
  keyed e he := t.keyed e (List.mem_filter.mp he).1

theorem rows_view (since : Option Int) (t : Table ρ) :
    (t.view since).rows = Rows.view since t.rows := by
  rw [rows, view, Rows.view, rows, List.filter_map]
  rfl

theorem get?_view {since : Option Int} {t : Table ρ} {id : Int} {r : ρ} :
    (t.view since).get? id = some r ↔ t.get? id = some r ∧ Rows.isSince since r = true := by
  rw [get?_eq_some_iff, get?_eq_some_iff, rows_view]
  exact (and_congr_left' List.mem_filter).trans and_right_comm

/-- A row that comes in moves no row that is looked at to the front. -/
theorem rank_le_insert {since : Option Int} {t : Table ρ} {r : ρ}
    (h : Rows.isSince since r = true ∨ t.get? (Entity.id r) = none) (x : Int) :
    (t.view since).rank x ≤ ((t.insert r).view since).rank x := by
  have hle := countP_le (t.view since) ((t.insert r).view since) (fun id => decide (id < x)) []
    fun id _ hsome => ?_
  · rwa [List.length_nil, Nat.zero_add] at hle
  obtain ⟨s, hs⟩ := Option.isSome_iff_exists.mp hsome
  obtain ⟨hs, hsince⟩ := get?_view.mp hs
  refine .inr (Option.isSome_iff_exists.mpr ?_)
  by_cases hid : id = Entity.id r
  · subst hid
    refine ⟨r, get?_view.mpr ⟨by rw [get?_insert, if_pos rfl], h.resolve_right fun hnone => ?_⟩⟩
    rw [hnone] at hs
    cases hs
  · exact ⟨s, get?_view.mpr ⟨by rwa [get?_insert, if_neg hid], hsince⟩⟩

end Table

/-! ## Watches -/

/-- Changes the rows of a store without a call. -/
def Deployment.edit (d : Deployment ρ) (side : Side) (φ : Contents ρ → Contents ρ) : Deployment ρ :=
  d.setStore { d.store side with contents := φ (d.store side).contents } side

theorem Deployment.contents_edit (d : Deployment ρ) (side other : Side)
    (φ : Contents ρ → Contents ρ) : ((d.edit side φ).store other).contents =
      if other = side then φ (d.store side).contents else (d.store other).contents := by
  unfold edit
  rw [store_setStore]
  split <;> rfl

/-- What can happen while a scan goes on. -/
inductive Incident (ρ : Type) where
  /-- A pass takes its turn at a moment. If it has to wait, nothing happens. -/
  | turn (way : Scan.Way) (now : Nat)
  /-- Somebody puts a row in a store, instead of the row with its id. -/
  | put (side : Side) (r : ρ)
  | remove (side : Side) (id : Int)
  /-- Somebody else publishes a message. -/
  | publish (topic : String) (payload : Bytes)
  /-- Other faults are planned for a store. -/
  | plan (side : Side) (faults : FaultPlan)
  | planBroker (faults : FaultPlan)

namespace Incident

/-- Whether something is written under an id, in one store or the other. -/
def Writes (id : Int) : Incident ρ → Prop
  | put _ r => Entity.id r = id
  | remove _ other => other = id
  | _ => False

instance (id : Int) : (x : Incident ρ) → Decidable (x.Writes id)
  | put _ r => inferInstanceAs (Decidable (Entity.id r = id))
  | remove _ other => inferInstanceAs (Decidable (other = id))
  | turn _ _ | publish _ _ | plan _ _ | planBroker _ => inferInstanceAs (Decidable False)

/-- What an incident makes of the rows of a store. -/
def edit (side : Side) (contents : Contents ρ) : Incident ρ → Contents ρ
  | put other r => if side = other then contents.put r else contents
  | remove other id => if side = other then contents.remove id else contents
  | _ => contents

theorem edit_table (side : Side) (t : Table ρ) (x : Incident ρ) :
    ∃ t', x.edit side (.table t) = .table t' ∧ ∀ id, ¬x.Writes id → t'.get? id = t.get? id := by
  cases x with
  | put other r =>
    simp only [edit]
    split
    · exact ⟨t.insert r, rfl, fun id hid => (t.get?_insert r id).trans (if_neg (Ne.symm hid))⟩
    · exact ⟨t, rfl, fun _ _ => rfl⟩
  | remove other removed =>
    simp only [edit]
    split
    · exact ⟨t.erase removed, rfl,
        fun id hid => (t.get?_erase removed id).trans (if_neg (Ne.symm hid))⟩
    · exact ⟨t, rfl, fun _ _ => rfl⟩
  | turn | publish | plan | planBroker => exact ⟨t, rfl, fun _ _ => rfl⟩

/-- What writes nothing leaves the rows of a store as they are. -/
theorem edit_of_not_writes {x : Incident ρ} (hx : ∀ id, ¬x.Writes id) (side : Side)
    (contents : Contents ρ) : x.edit side contents = contents := by
  cases x with
  | put _ r => exact absurd rfl (hx (Entity.id r))
  | remove _ id => exact absurd rfl (hx id)
  | turn | publish | plan | planBroker => rfl

end Incident

/-- A deployment and a scan that goes on over it. -/
structure Watch (ρ : Type) [Entity ρ] where
  site : Deployment ρ
  scan : Scan ρ

namespace Watch

def perform (w : Watch ρ) : Incident ρ → Watch ρ
  | .turn way now =>
    match w.scan.stepWay way ⟨now, false⟩ w.site with
    | some (site, scan) => { site, scan }
    | none => w
  | .put side r => { w with site := w.site.edit side (·.put r) }
  | .remove side id => { w with site := w.site.edit side (·.remove id) }
  | .publish topic payload =>
    { w with site := { w.site with broker := w.site.broker.append topic payload } }
  | .plan side faults => { w with site := w.site.setFaults side faults }
  | .planBroker faults => { w with site := w.site.setBrokerFaults faults }

/-- A watch after some incidents. -/
def after (w : Watch ρ) (incidents : List (Incident ρ)) : Watch ρ := incidents.foldl perform w

/-- The rows of the base. -/
def base (w : Watch ρ) : List ρ := (w.site.store w.scan.plan.base).rows

/-- The rows of the target. -/
def target (w : Watch ρ) : List ρ := (w.site.store w.scan.plan.target).rows

/-- How many of the base rows that are looked at come before an id. -/
def place (w : Watch ρ) (id : Int) : Nat :=
  (Rows.view w.scan.plan.since w.base).countP fun r => Entity.id r < id

/-- What was published where the scan reports. -/
def log (w : Watch ρ) : List Bytes := w.site.broker.log w.scan.plan.topic

end Watch

/-- What is allowed to happen: faults only within the limit of a call, and to the base only that a
row is put in that is looked at or is the first of its id. -/
def Incident.Allowed (plan : Scan.Plan) (w : Watch ρ) : Incident ρ → Prop
  | .put side r => side = plan.base →
      Rows.isSince plan.since r = true ∨ Rows.first? (Entity.id r) w.base = none
  | .remove side _ => side ≠ plan.base
  | .plan _ faults | .planBroker faults => faults.Prompt plan.callLimit
  | .turn _ _ | .publish _ _ => True

theorem Incident.allowed_turn (plan : Scan.Plan) (w : Watch ρ) (way : Scan.Way) (now : Nat) :
    (turn way now).Allowed plan w := trivial

theorem Incident.allowed_put {plan : Scan.Plan} {r : ρ} (h : Rows.isSince plan.since r = true)
    (w : Watch ρ) (side : Side) : (put side r).Allowed plan w := fun _ => .inl h

/-- Incidents of which each is allowed to happen when its turn comes. -/
def Watch.Allows (plan : Scan.Plan) (w : Watch ρ) : List (Incident ρ) → Prop
  | [] => True
  | x :: rest => x.Allowed plan w ∧ (w.perform x).Allows plan rest

/-! ## Passes that go on -/

namespace Scan.Pass

variable {plan : Plan} {poll : Nat} {way : Way} {p p' : Pass ρ} {m : Moment} {d d' : Deployment ρ}

/-- A pass that has not ended, and whose call is going to be answered. -/
structure GoesOn (way : Way) (p : Pass ρ) : Prop where
  way : p.way = way
  prompt : ∀ f ∈ p.flight, f.Prompt
  live : ∀ r, p.phase ≠ .done r

omit [Entity ρ] in
theorem goesOn_turn (hmode : plan.mode = .continuous poll) (hway : p.way = way) (fetched : Nat) :
    (p.turn plan fetched).GoesOn way := by
  unfold turn
  split
  · exact ⟨hway, by simp [enter], by simp [enter]⟩
  · rw [hmode]
    exact ⟨hway, by simp [enter], by simp [enter]⟩

omit [Entity ρ] in
theorem goesOn_reportAll (hmode : plan.mode = .continuous poll) (hway : p.way = way) (fetched : Nat)
    (found : List (Int × Mismatch)) : (p.reportAll plan fetched found).GoesOn way := by
  cases found with
  | nil => exact goesOn_turn (p := { p with failures := 0 }) hmode hway fetched
  | cons x rest => exact ⟨hway, by simp [reportAll, enter], by simp [reportAll, enter]⟩

/-- A pass that looks for new rows from time to time never ends, unless a call fails. -/
theorem GoesOn.move (h : p.GoesOn way) (hmode : plan.mode = .continuous poll)
    (hstop : m.stopped = false) (hprompt : d.Prompt plan.callLimit) (hm : Moved plan m d p d' p') :
    p'.GoesOn way := by
  cases hm with
  | begun _ _ _ _ hp =>
    refine ⟨h.way, fun f hf => ?_, h.live⟩
    cases hf
    exact (hp _ (Nat.le_refl _) hprompt).1
  | paged =>
    unfold afterPage
    dsimp only
    split
    · exact goesOn_reportAll hmode h.way _ _
    · exact ⟨h.way, by simp [enter], by simp [enter]⟩
  | compared => exact goesOn_reportAll hmode h.way _ _
  | reported => exact goesOn_reportAll hmode h.way _ _
  | rested => exact ⟨h.way, by simp [afterPause, enter], by simp [afterPause, enter]⟩
  | failed _ _ hfine => exact absurd ⟨hstop, ⟨_, hprompt⟩, h.prompt⟩ hfine

end Scan.Pass

/-! ## Watches without faults -/

namespace Watch

variable {plan : Scan.Plan} {poll : Nat} {w : Watch ρ} {x : Incident ρ}

/-- A watch without faults of a scan that goes on. -/
structure Sound (plan : Scan.Plan) (w : Watch ρ) : Prop where
  planned : w.scan.plan = plan
  prompt : w.site.Prompt plan.callLimit
  table : ∀ side, ∃ t, (w.site.store side).contents = .table t
  pass : ∀ way, (w.scan.pass way).GoesOn way

/-- What a turn makes of a watch, if it does not have to wait. -/
theorem perform_turn (w : Watch ρ) (way : Scan.Way) (now : Nat) :
    w.perform (.turn way now) = w ∨ ∃ site p,
      Scan.Pass.Moved w.scan.plan ⟨now, false⟩ w.site (w.scan.pass way) site p ∧
        w.perform (.turn way now) = { site, scan := w.scan.setPass p way } := by
  simp only [perform]
  cases h : w.scan.stepWay way ⟨now, false⟩ w.site with
  | none => exact .inl rfl
  | some next =>
    obtain ⟨site, scan⟩ := next
    obtain ⟨-, p, hm, rfl⟩ := Scan.moved_of_stepWay h
    exact .inr ⟨site, p, hm, rfl⟩

theorem plan_perform (w : Watch ρ) (x : Incident ρ) : (w.perform x).scan.plan = w.scan.plan := by
  cases x with
  | turn way now =>
    rcases w.perform_turn way now with heq | ⟨site, p, -, heq⟩
    · rw [heq]
    · rw [heq]
      exact Scan.plan_setPass ..
  | put | remove | publish | plan | planBroker => rfl

theorem grown_perform (w : Watch ρ) (x : Incident ρ) :
    w.site.broker.Grown (w.perform x).site.broker := by
  cases x with
  | turn way now =>
    rcases w.perform_turn way now with heq | ⟨site, p, hm, heq⟩
    · rw [heq]
      exact .refl _
    · rw [heq]
      exact hm.grown
  | publish topic payload => exact w.site.broker.grown_append topic payload
  | put side | remove side | plan side =>
    simp only [perform, Deployment.edit, Deployment.setFaults, Deployment.broker_setStore]
    exact .refl _
  | planBroker faults => exact (w.site.alike_setBrokerFaults faults).broker.grown

theorem log_perform (w : Watch ρ) (x : Incident ρ) : w.log <+: (w.perform x).log := by
  rw [log, log, plan_perform]
  exact (w.grown_perform x).log _

theorem log_after (w : Watch ρ) (incidents : List (Incident ρ)) :
    w.log <+: (w.after incidents).log := by
  induction incidents generalizing w with
  | nil => exact List.prefix_refl _
  | cons x rest ih => exact (w.log_perform x).trans (ih _)

theorem contents_perform (w : Watch ρ) (x : Incident ρ) (side : Side) :
    ((w.perform x).site.store side).contents = x.edit side (w.site.store side).contents := by
  cases x with
  | turn way now =>
    rcases w.perform_turn way now with heq | ⟨site, p, hm, heq⟩
    · rw [heq]
      rfl
    · rw [heq]
      exact hm.contents side
  | put other | remove other =>
    simp only [perform, Deployment.contents_edit, Incident.edit]
    split
    · next heq => rw [heq]
    · rfl
  | publish => simp only [perform, Deployment.store_withBroker, Incident.edit]
  | plan other faults => exact (w.site.alike_setFaults other faults).contents side
  | planBroker faults => exact (w.site.alike_setBrokerFaults faults).contents side

theorem Sound.perform (h : w.Sound plan) (hmode : plan.mode = .continuous poll)
    (hx : x.Allowed plan w) : (w.perform x).Sound plan := by
  have htable (side : Side) : ∃ t, ((w.perform x).site.store side).contents = .table t := by
    obtain ⟨t, ht⟩ := h.table side
    obtain ⟨t', ht', -⟩ := x.edit_table side t
    exact ⟨t', by rw [contents_perform, ht, ht']⟩
  cases x with
  | turn way now =>
    rcases w.perform_turn way now with heq | ⟨site, p, hm, heq⟩
    · rwa [heq]
    · rw [heq] at htable ⊢
      rw [h.planned] at hm
      refine ⟨by simpa using h.planned, hm.prompt rfl h.prompt (h.pass way).prompt, htable,
        fun other => ?_⟩
      simp only [Scan.pass_setPass]
      split
      · next hway => exact hway ▸ (h.pass way).move hmode rfl h.prompt hm
      · exact h.pass other
  | put side | remove side =>
    exact ⟨h.planned, h.prompt.setStore ((h.prompt.1 side).withContents _) side, htable, h.pass⟩
  | publish =>
    exact ⟨h.planned, ⟨fun side => by simpa [Watch.perform] using h.prompt.1 side, h.prompt.2⟩,
      htable, h.pass⟩
  | plan side faults => exact ⟨h.planned, h.prompt.setFaults hx side, htable, h.pass⟩
  | planBroker faults => exact ⟨h.planned, h.prompt.setBrokerFaults hx, htable, h.pass⟩

theorem Sound.after (h : w.Sound plan) (hmode : plan.mode = .continuous poll)
    {incidents : List (Incident ρ)} (hall : w.Allows plan incidents) :
    (w.after incidents).Sound plan := by
  induction incidents generalizing w with
  | nil => exact h
  | cons x rest ih => exact ih (h.perform hmode hall.1) hall.2

/-- What is not written to stays as it is. -/
theorem Sound.first?_perform (h : w.Sound plan) {id : Int} (hx : ¬x.Writes id) (side : Side) :
    Rows.first? id ((w.perform x).site.store side).rows =
      Rows.first? id (w.site.store side).rows := by
  obtain ⟨t, ht⟩ := h.table side
  obtain ⟨t', ht', hget⟩ := x.edit_table side t
  rw [Store.rows, Store.rows, contents_perform, ht, ht', ← Contents.get?_eq_first?,
    ← Contents.get?_eq_first?]
  exact hget id hx

theorem Sound.first?_after (h : w.Sound plan) (hmode : plan.mode = .continuous poll)
    {incidents : List (Incident ρ)} (hall : w.Allows plan incidents) {id : Int}
    (hincidents : ∀ x ∈ incidents, ¬x.Writes id) (side : Side) :
    Rows.first? id ((w.after incidents).site.store side).rows =
      Rows.first? id (w.site.store side).rows := by
  induction incidents generalizing w with
  | nil => rfl
  | cons x rest ih =>
    obtain ⟨hx, hrest⟩ := List.forall_mem_cons.mp hincidents
    exact (ih (h.perform hmode hall.1) hall.2 hrest).trans (h.first?_perform hx side)

theorem place_eq {b : Table ρ} (hplan : w.scan.plan = plan)
    (hb : (w.site.store plan.base).contents = .table b) (id : Int) :
    w.place id = (b.view plan.since).rank id := by
  rw [place, base, hplan, Store.rows, hb, Table.rank, Table.rows_view]
  rfl

/-- No row that is looked at moves to the front. -/
theorem Sound.place_le_perform (h : w.Sound plan) (hx : x.Allowed plan w) (id : Int) :
    w.place id ≤ (w.perform x).place id := by
  obtain ⟨b, hb⟩ := h.table plan.base
  have hcontents := w.contents_perform x plan.base
  have hplan := (w.plan_perform x).trans h.planned
  rw [hb] at hcontents
  rw [place_eq h.planned hb]
  cases x with
  | put side r =>
    simp only [Incident.edit] at hcontents
    split at hcontents
    · next hside =>
      rw [place_eq hplan hcontents]
      refine Table.rank_le_insert ((hx hside.symm).imp_right fun hnone => ?_) id
      rwa [base, h.planned, Store.rows, hb, ← Contents.get?_eq_first?] at hnone
    · rw [place_eq hplan hcontents]
  | remove side removed =>
    rw [Incident.edit, if_neg (Ne.symm hx)] at hcontents
    rw [place_eq hplan hcontents]
  | turn | publish | plan | planBroker => rw [place_eq hplan hcontents]

end Watch

end Cutover
