import Cutover.Proofs.Replies
import Cutover.Proofs.Updates

/-!
# Rows that come in behind all others

A scan goes on without faults while rows come in, on the side that a direction goes through, with
ids above all that are there. The pages that the direction has read then begin the rows that it
looks at, and what it has reported are the differences of these pages, but for some of the page in
hand (`Scan.Pass.Through`). Main statement: `Watch.examined_prefix`.
-/

namespace Cutover

variable {ρ : Type} [Entity ρ]

/-! ## Rows behind all others -/

theorem Contents.put_above {contents : Contents ρ} {r : ρ}
    (h : ∀ s ∈ contents.rows, Entity.id s < Entity.id r) :
    (contents.put r).rows = contents.rows ++ [r] := by
  cases contents with
  | table t => exact t.rows_insert_above h
  | list rows =>
    have hnone : Rows.without (Entity.id r) rows = rows :=
      List.filter_eq_self.mpr fun s hs => by simpa using Int.ne_of_lt (h s hs)
    rw [put, hnone]
    rfl

/-- On a side nothing happens to the rows but that one comes in with an id above all that are
there. -/
def Incident.Extends (side : Side) (w : Watch ρ) : Incident ρ → Prop
  | .put other r => other = side → ∀ s ∈ (w.site.store side).rows, Entity.id s < Entity.id r
  | .remove other _ => other ≠ side
  | .turn _ _ | .publish _ _ | .plan _ _ | .planBroker _ => True

instance (side : Side) (w : Watch ρ) : (x : Incident ρ) → Decidable (x.Extends side w)
  | .put other r => inferInstanceAs (Decidable (other = side →
      ∀ s ∈ (w.site.store side).rows, Entity.id s < Entity.id r))
  | .remove other _ => inferInstanceAs (Decidable (other ≠ side))
  | .turn _ _ | .publish _ _ | .plan _ _ | .planBroker _ => inferInstanceAs (Decidable True)

/-- What is allowed to happen while rows come in for a direction: faults only within the limit of a
call, and rows only on the side that it goes through, with an id above all that are there. -/
def Incident.Appends (plan : Scan.Plan) (way : Scan.Way) (w : Watch ρ) : Incident ρ → Prop
  | .put side r => side = plan.pages way ∧
      ∀ s ∈ (w.site.store side).rows, Entity.id s < Entity.id r
  | .remove _ _ => False
  | .publish topic _ => topic ≠ plan.topic
  | .plan _ faults | .planBroker faults => faults.Prompt plan.callLimit
  | .turn _ _ => True

theorem Incident.Appends.extends {plan : Scan.Plan} {way : Scan.Way} {w : Watch ρ} {x : Incident ρ}
    (h : x.Appends plan way w) : x.Extends (plan.pages way) w := by
  cases x with
  | put side r => exact fun hside => hside ▸ h.2
  | remove => exact h.elim
  | turn | publish | plan | planBroker => trivial

theorem Incident.Appends.not_publishes {plan : Scan.Plan} {way : Scan.Way} {w : Watch ρ}
    {x : Incident ρ}
    (h : x.Appends plan way w) (payload : Bytes) : x ≠ .publish plan.topic payload := by
  rintro rfl
  exact h rfl

theorem Incident.Appends.allowed {plan : Scan.Plan} {way : Scan.Way} {w : Watch ρ} {x : Incident ρ}
    (h : x.Appends plan way w) (hplan : w.scan.plan = plan) : x.Allowed plan w := by
  cases x with
  | turn | publish => trivial
  | plan | planBroker => exact h
  | remove => exact h.elim
  | put side r =>
    rintro rfl
    refine .inr (Rows.first?_eq_none_iff.mpr fun s hs => Int.ne_of_lt (h.2 s ?_))
    rwa [Watch.base, hplan] at hs

namespace Scan

/-! ## Passes -/

namespace Pass

/-- A pass that goes on has in hand a page, of which it has yet to report something. -/
def isBusy (p : Pass ρ) : Bool :=
  match p.phase with
  | .comparing _ _ | .reporting _ _ _ _ => true
  | .reading | .pausing | .done _ => false

/-- Of the pages that a pass has read, the rows that it is through with. -/
def examined (p : Pass ρ) (pages : List (List ρ)) : List ρ :=
  if p.isBusy then pages.dropLast.flatten else pages.flatten

/-- Of the pages that a pass has read, the rows that it has in hand. -/
def inHand (p : Pass ρ) (pages : List (List ρ)) : List ρ :=
  if p.isBusy then pages.getLast?.getD [] else []

/-- A pass that has read pages with which the rows begin, and has sent their differences but for
some of the page in hand. -/
def Through (others rows : List ρ) (pages : List (List ρ)) (sent : List (Int × Mismatch))
    (p : Pass ρ) : Prop :=
  pages.flatten <+: rows ∧
    match p.phase with
    | .reading | .pausing =>
      p.offset = pages.flatten.length ∧ sent = p.way.differences others pages.flatten
    | .comparing fetched page =>
      ∃ before, pages = before ++ [page] ∧ fetched = page.length ∧
        p.offset = before.flatten.length ∧ sent = p.way.differences others before.flatten
    | .reporting fetched id kind rest =>
      ∃ before page part, pages = before ++ [page] ∧ fetched = page.length ∧
        p.offset = before.flatten.length ∧ sent = p.way.differences others before.flatten ++ part ∧
        part ++ (id, kind) :: rest = p.way.differences others page
    | .done _ => False

section

variable {plan : Plan} {poll : Nat} {others rows rows' : List ρ} {before pages : List (List ρ)}
  {page : List ρ} {sent part found : List (Int × Mismatch)} {p p' : Pass ρ} {m : Moment}
  {d d' : Deployment ρ} {reply : Option (Reply ρ)}

/-- Rows that come in behind leave a pass as far as it is. -/
theorem Through.mono (h : p.Through others rows pages sent) (hle : rows <+: rows') :
    p.Through others rows' pages sent := ⟨h.1.trans hle, h.2⟩

theorem through_turn (hmode : plan.mode = .continuous poll)
    (hpages : (before ++ [page]).flatten <+: rows) (hoffset : p.offset = before.flatten.length)
    (hsent : sent = p.way.differences others (before ++ [page]).flatten) :
    (p.turn plan page.length).Through others rows (before ++ [page]) sent := by
  have hlength : (before ++ [page]).flatten.length = p.offset + page.length := by
    rw [hoffset, List.flatten_append, List.length_append, List.flatten_singleton]
  unfold turn
  rw [← hlength]
  split
  · exact ⟨hpages, rfl, hsent⟩
  · rw [hmode]
    exact ⟨hpages, rfl, hsent⟩

theorem through_reportAll (part found : List (Int × Mismatch))
    (hmode : plan.mode = .continuous poll)
    (hpages : (before ++ [page]).flatten <+: rows) (hoffset : p.offset = before.flatten.length)
    (hsent : sent = p.way.differences others before.flatten ++ part)
    (hfound : part ++ found = p.way.differences others page) :
    (p.reportAll plan page.length found).Through others rows (before ++ [page]) sent := by
  cases found with
  | nil =>
    refine through_turn (p := { p with failures := 0 }) hmode hpages hoffset ?_
    rw [List.append_nil] at hfound
    rw [hsent, hfound, List.flatten_append, List.flatten_singleton, Way.differences_append]
  | cons x rest => exact ⟨hpages, before, page, part, rfl, rfl, hoffset, hsent, hfound⟩

/-- A move sends the next difference of the page in hand, or none. -/
theorem Through.move (h : p.Through others rows pages sent) (hmode : plan.mode = .continuous poll)
    (hrows : plan.scanned d p.way = rows) (hothers : plan.others d p.way = others)
    (hdistinct : Rows.Distinct rows)
    (hdistinct' : Rows.Distinct others) (hstop : m.stopped = false)
    (hd : d.Prompt plan.callLimit) (hflight : ∀ f ∈ p.flight, f.Prompt)
    (hcarries : p.Carries (fun _ => True) fun x => x.2.way = p.way)
    (hm : Fared plan m d p reply d' p') :
    ∃ sent', p'.Through others rows (pages ++ reply.toList.filterMap Reply.page?) sent' ∧
      plan.Sends p.way d sent d' sent' := by
  obtain ⟨hpages, hphase⟩ := h
  cases hm with
  | begun _ _ ha =>
    refine ⟨sent, ⟨?_, ?_⟩, .inl ⟨ha, rfl⟩⟩
    · simpa using hpages
    · simpa using hphase
  | paged hph ha =>
    simp only [hph] at hphase
    obtain ⟨hoffset, hsent⟩ := hphase
    obtain ⟨tail, htail⟩ := hpages
    have hpage : p.ahead plan d = tail.take plan.batch := by
      rw [ahead, hrows, ← htail, hoffset, List.drop_left]
    have hread : (pages ++ [p.ahead plan d]).flatten <+: rows := by
      rw [List.flatten_append, List.flatten_singleton, ← htail, hpage]
      exact (List.prefix_append_right_inj _).mpr (List.take_prefix ..)
    have hlocal : Rows.Distinct (p.ahead plan d) := by
      rw [ahead, hrows]
      exact hdistinct.page ..
    refine ⟨sent, ?_, .inl ⟨ha, rfl⟩⟩
    change (p.afterPage plan (.ok (p.ahead plan d))).Through others rows
      (pages ++ [p.ahead plan d]) sent
    by_cases hne : p.ahead plan d = []
    · rw [hne] at hread ⊢
      refine through_reportAll [] [] hmode hread hoffset ?_ rfl
      rw [hsent, List.append_nil]
    · rw [afterPage_of_distinct hlocal hne]
      exact ⟨hread, pages, rfl, rfl, hoffset, hsent⟩
  | unread _ _ hfine | uncompared _ _ hfine => exact absurd ⟨hstop, ⟨_, hd⟩, hflight⟩ hfine
  | compared hph ha =>
    simp only [hph] at hphase
    obtain ⟨before, rfl, rfl, hoffset, hsent⟩ := hphase
    refine ⟨sent, ?_, .inl ⟨ha, rfl⟩⟩
    rw [hothers, Way.mismatches_eq _ hdistinct']
    change (p.reportAll plan _ _).Through others rows ((before ++ [_]) ++ []) sent
    rw [List.append_nil]
    exact through_reportAll [] _ hmode hpages hoffset (by rw [hsent, List.append_nil]) rfl
  | @reported fetched id kind rest hph =>
    simp only [hph] at hphase
    obtain ⟨before, page, part, rfl, rfl, hoffset, hsent, hfound⟩ := hphase
    rw [Carries, hph] at hcarries
    refine ⟨sent ++ [(id, kind)], ?_, .inr ⟨id, kind, hcarries.1, rfl, rfl⟩⟩
    change (p.reportAll plan _ _).Through others rows ((before ++ [page]) ++ []) _
    rw [List.append_nil]
    refine through_reportAll (part ++ [(id, kind)]) rest hmode hpages hoffset ?_ ?_
    · rw [hsent, List.append_assoc]
    · rw [← hfound, List.append_assoc]
      rfl
  | unreported _ _ hfine => exact absurd ⟨hstop, ⟨_, hd.2⟩, hflight⟩ hfine
  | rested hph =>
    simp only [hph] at hphase
    refine ⟨sent, ?_, .inl ⟨.refl d, rfl⟩⟩
    change (p.enter .reading).Through others rows (pages ++ []) sent
    rw [List.append_nil]
    exact ⟨hpages, hphase⟩
  | disturbed _ hfine => exact absurd ⟨hstop, hflight⟩ hfine

/-- The rows that a pass is through with and those that it has in hand are the rows that it has
read, and what it has sent are the differences of the former and first differences of the latter. -/
theorem Through.examined (h : p.Through others rows pages sent) :
    p.examined pages ++ p.inHand pages = pages.flatten ∧
      ∃ part, sent = p.way.differences others (p.examined pages) ++ part ∧
        part <+: p.way.differences others (p.inHand pages) := by
  obtain ⟨-, hphase⟩ := h
  unfold Pass.examined Pass.inHand isBusy
  cases hph : p.phase with
  | reading | pausing =>
    simp only [hph, Bool.false_eq_true, if_false, List.append_nil] at hphase ⊢
    exact ⟨trivial, [], by rw [hphase.2, List.append_nil], List.nil_prefix⟩
  | comparing fetched page =>
    simp only [hph] at hphase
    obtain ⟨before, rfl, -, -, rfl⟩ := hphase
    simp only [if_true, List.dropLast_concat, List.getLast?_concat, Option.getD_some,
      List.flatten_append, List.flatten_singleton]
    exact ⟨trivial, [], (List.append_nil _).symm, List.nil_prefix⟩
  | reporting fetched id kind rest =>
    simp only [hph] at hphase
    obtain ⟨before, page, part, rfl, -, -, rfl, hfound⟩ := hphase
    simp only [if_true, List.dropLast_concat, List.getLast?_concat, Option.getD_some,
      List.flatten_append, List.flatten_singleton]
    exact ⟨trivial, part, rfl, _, hfound⟩
  | done r =>
    simp only [hph] at hphase

/-- The rows that a pass has read and a short page behind them are all rows. -/
theorem Through.append_short {way : Way} (h : p.Through others (plan.scanned d way) pages sent)
    (hway : p.way = way) (hph : p.phase = .reading)
    (hshort : (p.ahead plan d).length < plan.batch) :
    p.examined pages ++ p.ahead plan d = plan.scanned d way := by
  subst hway
  obtain ⟨⟨tail, htail⟩, hphase⟩ := h
  simp only [hph] at hphase
  have hpage : p.ahead plan d = tail.take plan.batch := by
    rw [ahead, ← htail, hphase.1, List.drop_left]
  rw [hpage, List.length_take] at hshort
  have hwhole : tail.take plan.batch = tail := List.take_of_length_le (by omega)
  simp only [Pass.examined, isBusy, hph, Bool.false_eq_true, if_false]
  rw [hpage, hwhole, htail]

end

end Pass

end Scan

/-! ## Watches -/

namespace Watch

variable {plan : Scan.Plan} {poll : Nat} {way : Scan.Way} {others : List ρ} {before : List Bytes}
  {seen : List (List ρ)} {w : Watch ρ} {x : Incident ρ}

/-- A watch in which a direction has read pages and has sent their differences, but for some of the
page in hand. -/
structure Reads (plan : Scan.Plan) (way : Scan.Way) (others : List ρ) (before : List Bytes)
    (seen : List (List ρ)) (w : Watch ρ) : Prop where
  sound : w.Sound plan
  apart : w.Apart
  lookup : plan.others w.site way = others
  sent : ∃ found sent, (w.scan.pass way).Through others (plan.scanned w.site way) seen found ∧
    sent way = plan.reports found ∧ Scan.Sent before sent (w.site.broker.log plan.topic)

theorem rows_perform (w : Watch ρ) (x : Incident ρ) (side : Side) :
    ((w.perform x).site.store side).rows = (x.edit side (w.site.store side).contents).rows := by
  rw [Store.rows, contents_perform]

/-- Rows come in behind those that are looked at. -/
theorem scanned_perform (way : Scan.Way) (hx : x.Extends (plan.pages way) w) :
    plan.scanned w.site way <+: plan.scanned (w.perform x).site way := by
  rw [Scan.Plan.scanned, Scan.Plan.scanned, rows_perform]
  cases x with
  | turn | publish | plan | planBroker => exact List.prefix_refl _
  | remove side id =>
    rw [Incident.edit, if_neg (Ne.symm hx)]
    exact List.prefix_refl _
  | put side r =>
    rw [Incident.edit]
    split
    · next hside =>
      rw [Contents.put_above (hx hside.symm), Rows.view, Rows.view, List.filter_append]
      exact List.prefix_append ..
    · exact List.prefix_refl _

/-- Nothing changes where the rows are looked up. -/
theorem others_perform (hx : x.Appends plan way w) :
    plan.others (w.perform x).site way = plan.others w.site way := by
  rw [Scan.Plan.others, Scan.Plan.others, rows_perform]
  cases x with
  | turn | publish | plan | planBroker => rfl
  | remove => exact hx.elim
  | put side r =>
    rw [Incident.edit, if_neg]
    · rfl
    · rw [hx.1]
      exact Side.other_ne _

theorem Reads.perform (h : w.Reads plan way others before seen)
    (hmode : plan.mode = .continuous poll) (hx : x.Appends plan way w) :
    (w.perform x).Reads plan way others before
      (seen ++ (w.reply? way x).toList.filterMap Scan.Reply.page?) := by
  have hscanned := scanned_perform way hx.extends
  have hothers := others_perform hx
  have hsound := h.sound.perform hmode (hx.allowed h.sound.planned)
  have hapart := h.apart.perform x
  have hplan := h.sound.planned
  obtain ⟨found, sent, hpass, hsent, hlog⟩ := h.sent
  -- only the turns of the direction change what it has read
  have kept (hpass' : (w.perform x).scan.pass way = w.scan.pass way)
      (hreply : w.reply? way x = none)
      {sent' : Scan.Way → List Report} (hsent' : sent' way = sent way)
      (hlog' : Scan.Sent before sent' ((w.perform x).site.broker.log plan.topic)) :
      (w.perform x).Reads plan way others before
        (seen ++ (w.reply? way x).toList.filterMap Scan.Reply.page?) := by
    refine ⟨hsound, hapart, hothers.trans h.lookup, found, sent', ?_, hsent'.trans hsent, hlog'⟩
    rw [hpass', hreply, Option.toList_none, List.filterMap_nil, List.append_nil]
    exact hpass.mono hscanned
  cases x with
  | put | remove | publish | plan | planBroker =>
    refine kept rfl rfl rfl ?_
    rwa [log_perform_of_ne w (by simp) hx.not_publishes]
  | turn other now =>
    rcases w.fared_turn other now with ⟨-, heq, hreply⟩ | ⟨site, p, hstep, hfared, heq⟩
    · refine kept (by rw [heq]) ?_ rfl (by rwa [heq])
      by_cases hother : other = way
      · rwa [← hother]
      · exact reply?_turn_of_ne hother w now
    rw [hplan] at hstep hfared
    by_cases hother : other = way
    · subst hother
      obtain ⟨t, ht⟩ := h.sound.table (plan.pages other)
      obtain ⟨u, hu⟩ := h.sound.table (plan.pages other).other
      have hway := h.apart.way other
      have hdistinct : Rows.Distinct (plan.scanned w.site other) :=
        Scan.Plan.distinct_scanned (by rw [Store.rows, ht]; exact t.distinct)
      have hdistinct' : Rows.Distinct others := by
        rw [← h.lookup, Scan.Plan.others, Store.rows, hu]
        exact u.distinct
      obtain ⟨found', hpass', hsends⟩ :=
        hpass.move hmode (by rw [hway]) (by rw [hway]; exact h.lookup)
        hdistinct hdistinct' rfl h.sound.prompt (h.sound.pass other).prompt
        (by rw [hway]; exact h.apart.carries other) hfared
      have hscan : (w.perform (.turn other now)).scan.pass other = p := by simp [heq]
      have hrows : plan.scanned (w.perform (.turn other now)).site other =
          plan.scanned w.site other :=
        plan.scanned_congr other (w.contents_perform _ _)
      rw [← hscan, ← hrows] at hpass'
      obtain ⟨sent', hlog', hsent', -⟩ := hlog.sends hsent (hway ▸ hsends)
      exact ⟨hsound, hapart, hothers.trans h.lookup, found', sent', hpass', hsent', by rwa [heq]⟩
    · have hsame : (w.perform (.turn other now)).scan.pass way = w.scan.pass way := by
        simp [heq, Ne.symm hother]
      have hreply := reply?_turn_of_ne hother w now
      rcases (h.apart.carries other).publishes (Scan.Pass.moved_of_step hstep) with
        ha | ⟨id, kind, hkind, rfl⟩
      · exact kept hsame hreply rfl (by rwa [heq, ha.broker.log])
      · obtain ⟨sent', hlog', -, hsent'⟩ := hlog.report hkind plan id
        refine kept hsame hreply (hsent' way (Ne.symm hother)) ?_
        rwa [heq, Broker.log_append, if_pos rfl]

theorem reads_start {d : Deployment ρ} (hd : d.Prompt plan.callLimit)
    (htables : ∀ side, ∃ t, (d.store side).contents = .table t) (way : Scan.Way) :
    ({ site := d, scan := { plan } } : Watch ρ).Reads plan way (plan.others d way)
      (d.broker.log plan.topic) [] := by
  refine ⟨sound_start hd htables, apart_start d plan, rfl, [], fun _ => [], ?_, rfl, [], by simp,
    ?_⟩
  · cases way <;> exact ⟨List.nil_prefix, rfl, rfl⟩
  · intro other
    rfl

/-- A direction of a scan that goes on without faults reads each row once. Let rows come in, on the
side that the direction goes through, with ids above all that are there, at any time. Then the rows
that it is through with and those of the page in hand begin the rows that it looks at; it has
published the differences of the rows that it is through with, and first differences of those in
hand; and when it is told of a page that is not full, these rows and the page are all rows. -/
theorem examined_prefix (hmode : plan.mode = .continuous poll) {d : Deployment ρ}
    (hd : d.Prompt plan.callLimit) (htables : ∀ side, ∃ t, (d.store side).contents = .table t)
    (way : Scan.Way) {incidents : List (Incident ρ)} {start w : Watch ρ}
    (hstart : start = { site := d, scan := { plan } })
    (hall : start.Throughout (fun w x => x.Appends plan way w) incidents)
    (hw : w = start.after incidents) {examined inHand : List ρ}
    (hexamined : examined = (w.scan.pass way).examined (start.pages way incidents))
    (hinHand : inHand = (w.scan.pass way).inHand (start.pages way incidents)) :
    examined ++ inHand <+: plan.scanned w.site way ∧ Rows.Distinct (examined ++ inHand) ∧
      (∃ (published : List Report) (part : List (Int × Mismatch)),
        w.log = start.log ++ published.map Report.encode ∧
        published.filter (fun r => r.kind.way = way) =
          plan.reports (way.differences (plan.others d way) examined ++ part) ∧
        part <+: way.differences (plan.others d way) inHand) ∧
      ∀ x page, w.reply? way x = some (.page page) → page.length < plan.batch →
        examined ++ page = plan.scanned w.site way := by
  subst hexamined hinHand
  have hreads : w.Reads plan way (plan.others d way) (d.broker.log plan.topic)
      (start.pages way incidents) := by
    have := hall.induction
      (I := fun told w => w.Reads plan way (plan.others d way) (d.broker.log plan.topic)
        ((told way).filterMap Scan.Reply.page?))
      (fun h hx => by
        rw [List.filterMap_append]
        exact h.perform hmode hx)
      (hstart ▸ reads_start hd htables way)
    rwa [← hw] at this
  obtain ⟨found, sent, hpass, hsent, published, hlog, hpublished⟩ := hreads.sent
  have hway := hreads.apart.way way
  obtain ⟨hrows, part, hfound, hpart⟩ := hpass.examined
  rw [hway] at hfound hpart
  have hfront := hrows ▸ hpass.1
  obtain ⟨t, ht⟩ := hreads.sound.table (plan.pages way)
  have hdistinct : Rows.Distinct (plan.scanned w.site way) :=
    Scan.Plan.distinct_scanned (by rw [Store.rows, ht]; exact t.distinct)
  refine ⟨hfront, hdistinct.sublist hfront.sublist, ⟨published, part, ?_, ?_, hpart⟩, ?_⟩
  · rw [log, hreads.sound.planned, hlog, hstart]
    rfl
  · rw [hpublished, hsent, hfound]
  · intro x page hx hshort
    obtain ⟨hph, rfl⟩ := w.ahead_of_reply? hx
    rw [hreads.sound.planned] at hshort ⊢
    exact hpass.append_short hway hph hshort

/-- A third row comes in before the page is read, one that is not looked at while the page is in
hand, and a fourth one when the third was reported. -/
theorem examined_prefix_sample :
    let turn : Incident Account := .turn .baseToTarget 0
    let incidents : List (Incident Account) := [turn, .put .src ⟨3, "cid", 30, 7⟩, turn,
      .put .src ⟨4, "dan", 40, 4⟩, turn, turn, turn, turn, .put .src ⟨5, "eve", 50, 8⟩]
    let w := sampleWatch.after incidents
    let examined := (w.scan.pass .baseToTarget).examined (sampleWatch.pages .baseToTarget incidents)
    let inHand := (w.scan.pass .baseToTarget).inHand (sampleWatch.pages .baseToTarget incidents)
    samplePlan.mode = .continuous 10 ∧ sampleWatch.site.Prompt samplePlan.callLimit ∧
      (∀ side, ∃ t, (sampleWatch.site.store side).contents = .table t) ∧
      sampleWatch.Throughout (fun w x => x.Appends samplePlan .baseToTarget w) incidents ∧
      examined ++ inHand <+: samplePlan.scanned w.site .baseToTarget ∧
      Rows.Distinct (examined ++ inHand) ∧ examined.map Entity.id = [1, 2, 3] ∧
      (samplePlan.scanned w.site .baseToTarget).map Entity.id = [1, 2, 3, 5] ∧
      w.log = [(samplePlan.report 3 .targetMissing).encode] := by
  intro turn incidents w examined inHand
  have hprompt : sampleWatch.site.Prompt samplePlan.callLimit := Deployment.prompt_ofRows ..
  have htables : ∀ side, ∃ t, (sampleWatch.site.store side).contents = .table t
    | .src | .dst => ⟨_, rfl⟩
  have hall : sampleWatch.Throughout (fun w x => x.Appends samplePlan .baseToTarget w) incidents :=
    ⟨trivial, ⟨rfl, by decide +kernel⟩, trivial, ⟨rfl, by decide +kernel⟩, trivial, trivial,
      trivial, trivial, ⟨rfl, by decide +kernel⟩, trivial⟩
  obtain ⟨hfront, hdistinct, -, -⟩ :=
    examined_prefix rfl hprompt htables .baseToTarget rfl hall rfl rfl rfl
  refine ⟨rfl, hprompt, htables, hall, hfront, hdistinct, ?_, ?_, ?_⟩
  · decide +kernel
  · decide +kernel
  · decide +kernel

end Watch

end Cutover
