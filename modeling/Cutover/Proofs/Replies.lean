import Cutover.Proofs.Watches

/-!
# What a pass is told

The stores tell a pass of its pages and of the rows that it looks up, or refuse to.
`Scan.Pass.reply?` is what the next move of a pass is told, and `Scan.Pass.Fared` names the moves
together with it; `Watch.replies` is what a direction is told in the course of some incidents. Main
statements: `Scan.Pass.fared_of_step`, and that what holds of the replies so far and of the watch
goes on to hold if each incident keeps it (`Watch.Throughout.induction`).
-/

namespace Cutover

variable {ρ : Type} [Entity ρ]

/-- The direction in which a mismatch is found. -/
def Mismatch.way : Mismatch → Scan.Way
  | .targetMissing | .differs => .baseToTarget
  | .baseMissing => .targetToBase

namespace Scan

/-! ## What a direction looks at -/

/-- From what time on the rows of a direction are looked at. -/
def Plan.watermark (plan : Plan) : Way → Option Int
  | .baseToTarget => plan.since
  | .targetToBase => none

/-- The rows that a direction goes through. -/
def Plan.scanned (plan : Plan) (d : Deployment ρ) (way : Way) : List ρ :=
  Rows.view (plan.watermark way) (d.store (plan.pages way)).rows

/-- The rows in which a direction looks its rows up. -/
def Plan.others (plan : Plan) (d : Deployment ρ) (way : Way) : List ρ :=
  (d.store (plan.pages way).other).rows

theorem Plan.distinct_scanned {plan : Plan} {d : Deployment ρ} {way : Way}
    (h : Rows.Distinct (d.store (plan.pages way)).rows) : Rows.Distinct (plan.scanned d way) :=
  h.sublist List.filter_sublist

theorem Plan.scanned_congr {d d' : Deployment ρ} (plan : Plan) (way : Way)
    (h : (d'.store (plan.pages way)).contents = (d.store (plan.pages way)).contents) :
    plan.scanned d' way = plan.scanned d way := by
  rw [scanned, scanned, Store.rows, Store.rows, h]

theorem Plan.others_congr {d d' : Deployment ρ} (plan : Plan) (way : Way)
    (h : (d'.store (plan.pages way).other).contents = (d.store (plan.pages way).other).contents) :
    plan.others d' way = plan.others d way := by
  rw [others, others, Store.rows, Store.rows, h]

/-- The page that a pass is about to read. -/
def Pass.ahead (plan : Plan) (d : Deployment ρ) (p : Pass ρ) : List ρ :=
  ((plan.scanned d p.way).drop p.offset).take plan.batch

theorem Pass.page_eq_ahead (plan : Plan) (d : Deployment ρ) (p : Pass ρ) :
    Rows.page (p.pageQuery plan) (d.store (p.pageSide plan)).rows = p.ahead plan d := by
  rw [ahead, Plan.scanned, ← pageSide_eq, Rows.page, pageQuery]
  cases p.way <;> rfl

theorem Pass.rows_lookupSide (plan : Plan) (d : Deployment ρ) (p : Pass ρ) :
    (d.store (p.lookupSide plan)).rows = plan.others d p.way := by
  rw [lookupSide, pageSide_eq]
  rfl

/-! ## Replies -/

/-- What a pass is told by the stores. -/
inductive Reply (ρ : Type) where
  /-- A page was read. -/
  | page (rows : List ρ)
  | unread
  /-- The rows of a page were looked up. -/
  | compared
  | uncompared
  deriving DecidableEq, Repr

/-- The page that is told of, if any. -/
def Reply.page? : Reply ρ → Option (List ρ)
  | .page rows => some rows
  | .unread | .compared | .uncompared => none

/-- What is told by progress with a call, if the call is answered. -/
def Reply.of? {α : Type} (ok : α → Reply ρ) (refused : Reply ρ) : Progress α → Option (Reply ρ)
  | .underway _ => none
  | .answered (.ok a) => some (ok a)
  | .answered (.error _) => some refused

namespace Pass

/-- What the next move of a pass is told. -/
def reply? (plan : Plan) (m : Moment) (d : Deployment ρ) (p : Pass ρ) : Option (Reply ρ) :=
  let limit := some plan.callLimit
  match p.phase with
  | .reading =>
    (d.call m limit (p.pageSide plan) (.findPage (p.pageQuery plan)) p.flight).bind
      fun (_, progress) => Reply.of? .page .unread progress
  | .comparing _ page =>
    match p.way with
    | .baseToTarget =>
      (d.call m limit plan.target (.findByIds (page.map Entity.id)) p.flight).bind
        fun (_, progress) => Reply.of? (fun _ => .compared) .uncompared progress
    | .targetToBase =>
      (d.call m limit plan.base (.findIds (page.map Entity.id)) p.flight).bind
        fun (_, progress) => Reply.of? (fun _ => .compared) .uncompared progress
  | _ => none

/-- What a move makes of a deployment and a pass, and what it is told. -/
inductive Fared (plan : Plan) (m : Moment) (d : Deployment ρ) (p : Pass ρ) :
    Option (Reply ρ) → Deployment ρ → Pass ρ → Prop where
  | begun {d' f} : (∀ r, p.phase ≠ .done r) → p.flight = none → d.Alike d' →
      Fared plan m d p none d' { p with flight := some f }
  | paged {d'} : p.phase = .reading → d.Alike d' →
      Fared plan m d p (some (.page (p.ahead plan d))) d'
        (afterPage plan p (.ok (p.ahead plan d)))
  | unread {d' e} : p.phase = .reading → d.Alike d' →
      ¬ (m.stopped = false ∧ (∃ l, d.Prompt l) ∧ ∀ f ∈ p.flight, f.Prompt) →
      Fared plan m d p (some .unread) d' (afterPage plan p (.error e))
  | compared {d' fetched page} : p.phase = .comparing fetched page → d.Alike d' →
      Fared plan m d p (some .compared) d'
        (afterLookup plan p fetched (.ok (p.way.mismatches page (plan.others d p.way))))
  | uncompared {d' fetched page e} : p.phase = .comparing fetched page → d.Alike d' →
      ¬ (m.stopped = false ∧ (∃ l, d.Prompt l) ∧ ∀ f ∈ p.flight, f.Prompt) →
      Fared plan m d p (some .uncompared) d' (afterLookup plan p fetched (.error e))
  | reported {fetched id kind rest} : p.phase = .reporting fetched id kind rest →
      Fared plan m d p none
        { d with broker := d.broker.append plan.topic (plan.report id kind).encode }
        (afterReport plan p fetched rest (.ok ()))
  | unreported {b e fetched id kind rest} : p.phase = .reporting fetched id kind rest →
      d.broker.Alike b →
      ¬ (m.stopped = false ∧ (∃ l, d.broker.Prompt l) ∧ ∀ f ∈ p.flight, f.Prompt) →
      Fared plan m d p none { d with broker := b } (afterReport plan p fetched rest (.error e))
  | rested : p.phase = .pausing → Fared plan m d p none d (afterPause p (.ok ()))
  | disturbed {e} : p.phase = .pausing →
      ¬ (m.stopped = false ∧ ∀ f ∈ p.flight, f.Prompt) →
      Fared plan m d p none d (afterPause p (.error e))

section Inversion

variable {plan : Plan} {m : Moment} {d d' : Deployment ρ} {p p' : Pass ρ}

/-- What the answer of a store makes of a pass and of what it is told. -/
private theorem fared_of_called {side : Side} {c : Call ρ} {progress : Progress c.Answer}
    {answer : Except Error c.Answer → Pass ρ} {ok : c.Answer → Reply ρ} {refused : Reply ρ}
    {a : c.Answer} (hdone : ∀ r, p.phase ≠ .done r) (hrun : ∀ s : Contents ρ, (s.run c).2 = s)
    (ha : ((d.store side).contents.run c).1 = .ok a)
    (hanswer : ∀ {d'}, d.Alike d' → Fared plan m d p (some (ok a)) d' (answer (.ok a)))
    (hrefused : ∀ {d' e}, d.Alike d' →
      ¬ (m.stopped = false ∧ (∃ l, d.Prompt l) ∧ ∀ f ∈ p.flight, f.Prompt) →
      Fared plan m d p (some refused) d' (answer (.error e)))
    (h : Deployment.Called d m (some plan.callLimit) side c p.flight d' progress) :
    Fared plan m d p (Reply.of? ok refused progress) d' (p.after answer progress) := by
  generalize hfl : p.flight = flight at h
  cases h with
  | begun _ hc => exact .begun hdone hfl (.setStore hc)
  | answered _ _ hc hplain =>
    rw [hrun] at hc
    rw [ha]
    exact hanswer (.setStore ⟨hc, hplain⟩)
  | failed hc _ hfine =>
    exact hrefused (.setStore hc) fun ⟨hs, ⟨l, hd⟩, hf⟩ => hfine ⟨hs, ⟨l, hd.1 side⟩, hfl ▸ hf⟩

theorem fared_of_step (h : p.step plan m d = some (d', p')) :
    Fared plan m d p (p.reply? plan m d) d' p' := by
  unfold step at h
  unfold reply?
  cases hph : p.phase with
  | reading =>
    simp only [hph] at h
    obtain ⟨⟨e, progress⟩, hc, heq⟩ := Option.map_eq_some_iff.mp h
    cases heq
    simp only [hc, Option.bind_some]
    refine fared_of_called (by simp [hph]) (fun _ => rfl) rfl (fun ha => ?_) (.unread hph)
      (Deployment.called_of_call hc)
    have : Fared plan m d p _ _ _ := .paged hph ha
    rwa [← page_eq_ahead] at this
  | comparing fetched page =>
    simp only [hph] at h
    cases hw : p.way with
    | baseToTarget =>
      simp only [hw] at h
      obtain ⟨⟨e, progress⟩, hc, heq⟩ := Option.map_eq_some_iff.mp h
      cases heq
      simp only [hc, Option.bind_some]
      refine fared_of_called (by simp [hph]) (fun _ => rfl) rfl (fun ha => ?_) (.uncompared hph)
        (Deployment.called_of_call hc)
      have : Fared plan m d p _ _ _ := .compared hph ha
      rwa [← rows_lookupSide, hw, lookupSide, pageSide, hw] at this
    | targetToBase =>
      simp only [hw] at h
      obtain ⟨⟨e, progress⟩, hc, heq⟩ := Option.map_eq_some_iff.mp h
      cases heq
      simp only [hc, Option.bind_some]
      refine fared_of_called (by simp [hph]) (fun _ => rfl)
        (congrArg Prod.fst (Contents.run_findIds ..)) (fun ha => ?_) (.uncompared hph)
        (Deployment.called_of_call hc)
      have : Fared plan m d p _ _ _ := .compared hph ha
      rwa [← rows_lookupSide, hw, lookupSide, pageSide, hw, Comparison.target, Side.other_other]
        at this
  | reporting fetched id kind rest =>
    simp only [hph] at h
    obtain ⟨⟨e, progress⟩, hc, heq⟩ := Option.map_eq_some_iff.mp h
    cases heq
    generalize hfl : p.flight = flight at hc
    cases Deployment.posted_of_publish hc with
    | begun _ ha => exact .begun (by simp [hph]) hfl (.withBroker ha)
    | answered => exact .reported hph
    | failed ha hfine => exact .unreported hph ha (hfl ▸ hfine)
  | pausing =>
    simp only [hph] at h
    obtain ⟨progress, hc, heq⟩ := Option.map_eq_some_iff.mp h
    cases heq
    obtain ⟨⟨_, q⟩, hstep, rfl⟩ := Option.map_eq_some_iff.mp hc
    generalize hfl : p.flight = flight at hstep
    cases Flight.moved_of_step hstep with
    | stopped hs => exact .disturbed hph fun hfine => by simp [hs] at hfine
    | started => exact .begun (by simp [hph]) hfl (.refl d)
    | refused _ _ hf =>
      refine .disturbed hph ?_
      rintro ⟨-, hfine⟩
      simp [(hfine _ hfl).1] at hf
    | late _ hr hd =>
      refine .disturbed hph ?_
      rintro ⟨-, hfine⟩
      simp [(hfine _ hfl).not_late hr] at hd
    | finished => exact .rested hph
  | done r =>
    simp only [hph] at h
    cases h

/-- A pass that has to wait is told nothing. -/
theorem reply?_of_step_eq_none (h : p.step plan m d = none) : p.reply? plan m d = none := by
  unfold step at h
  unfold reply?
  cases hph : p.phase with
  | reading =>
    simp only [hph, Option.map_eq_none_iff] at h
    simp only [h, Option.bind_none]
  | comparing fetched page =>
    simp only [hph] at h
    cases hw : p.way with
    | baseToTarget | targetToBase =>
      simp only [hw, Option.map_eq_none_iff] at h
      simp only [h, Option.bind_none]
  | reporting | pausing | done => rfl

end Inversion

end Pass

/-! ## Reports of a direction -/

theorem Way.way_of_mem_mismatches {way : Way} {page rows : List ρ} {x : Int × Mismatch}
    (h : x ∈ way.mismatches page rows) : x.2.way = way := by
  cases way with
  | baseToTarget =>
    obtain ⟨r, -, hx⟩ := List.mem_filterMap.mp h
    obtain ⟨kind, hkind, rfl⟩ := Option.map_eq_some_iff.mp hx
    unfold Mismatch.between at hkind
    split at hkind
    · split at hkind <;> cases hkind
      rfl
    · cases hkind
      rfl
    · contradiction
    · cases hkind
  | targetToBase =>
    obtain ⟨r, -, rfl⟩ := List.mem_map.mp h
    rfl

/-- A log has, behind what was in it before, only reports, of which each direction has sent its own
in this order. -/
def Sent (before : List Bytes) (sent : Way → List Report) (log : List Bytes) : Prop :=
  ∃ published : List Report, log = before ++ published.map Report.encode ∧
    ∀ way, published.filter (fun r => r.kind.way = way) = sent way

/-- A direction that reports a mismatch sends it behind what it sent, and the other sends
nothing. -/
theorem Sent.report {before log : List Bytes} {sent : Way → List Report} (h : Sent before sent log)
    {way : Way} {kind : Mismatch} (hkind : kind.way = way) (plan : Plan) (id : Int) :
    ∃ sent', Sent before sent' (log ++ [(plan.report id kind).encode]) ∧
      sent' way = sent way ++ [plan.report id kind] ∧ ∀ other, other ≠ way →
        sent' other = sent other := by
  obtain ⟨published, rfl, hsent⟩ := h
  subst hkind
  refine ⟨fun other => if kind.way = other then sent other ++ [plan.report id kind] else sent other,
    ⟨published ++ [plan.report id kind], by simp, fun other => ?_⟩, if_pos rfl,
    fun other hother => if_neg (Ne.symm hother)⟩
  rw [List.filter_append, hsent]
  by_cases hway : kind.way = other
  · simp [hway, Comparison.report]
  · simp [hway, Comparison.report]

/-- What is done in a direction sends the next mismatch that is found in it, or nothing. -/
def Plan.Sends (plan : Plan) (way : Way) (d : Deployment ρ) (found : List (Int × Mismatch))
    (d' : Deployment ρ) (found' : List (Int × Mismatch)) : Prop :=
  d.Alike d' ∧ found' = found ∨ ∃ id kind, kind.way = way ∧ found' = found ++ [(id, kind)] ∧
    d' = { d with broker := d.broker.append plan.topic (plan.report id kind).encode }

theorem Sent.sends {before : List Bytes} {sent : Way → List Report} {plan : Plan} {way : Way}
    {d d' : Deployment ρ} {found found' : List (Int × Mismatch)}
    (h : Sent before sent (d.broker.log plan.topic)) (hsent : sent way = plan.reports found)
    (hsends : plan.Sends way d found d' found') :
    ∃ sent', Sent before sent' (d'.broker.log plan.topic) ∧ sent' way = plan.reports found' ∧
      ∀ other, other ≠ way → sent' other = sent other := by
  rcases hsends with ⟨ha, rfl⟩ | ⟨id, kind, hkind, rfl, rfl⟩
  · exact ⟨sent, by rwa [ha.broker.log], hsent, fun _ _ => rfl⟩
  · obtain ⟨sent', hlog, hsent', hkept⟩ := h.report hkind plan id
    refine ⟨sent', ?_, ?_, hkept⟩
    · rwa [Broker.log_append, if_pos rfl]
    · rw [hsent', hsent, Plan.reports, Plan.reports, List.map_append]
      rfl

end Scan

/-! ## Watches -/

namespace Watch

/-- What the pass in a direction is told in an incident. -/
def reply? (way : Scan.Way) (w : Watch ρ) : Incident ρ → Option (Scan.Reply ρ)
  | .turn other now =>
    if other = way ∧ w.scan.isOver = false then
      (w.scan.pass way).reply? w.scan.plan ⟨now, false⟩ w.site
    else none
  | _ => none

/-- What the pass in a direction is told in the course of some incidents. -/
def replies (way : Scan.Way) (w : Watch ρ) : List (Incident ρ) → List (Scan.Reply ρ)
  | [] => []
  | x :: rest => (w.reply? way x).toList ++ (w.perform x).replies way rest

theorem after_append (w : Watch ρ) (past recent : List (Incident ρ)) :
    w.after (past ++ recent) = (w.after past).after recent := List.foldl_append

theorem replies_append (way : Scan.Way) (w : Watch ρ) (past recent : List (Incident ρ)) :
    w.replies way (past ++ recent) = w.replies way past ++ (w.after past).replies way recent := by
  induction past generalizing w with
  | nil => rfl
  | cons x rest ih =>
    change _ ++ (w.perform x).replies way (rest ++ recent) = _
    rw [ih, ← List.append_assoc]
    rfl

/-- The pages that a direction is told of in the course of some incidents. -/
def pages (way : Scan.Way) (w : Watch ρ) (incidents : List (Incident ρ)) : List (List ρ) :=
  (w.replies way incidents).filterMap Scan.Reply.page?

theorem pages_append (way : Scan.Way) (w : Watch ρ) (past recent : List (Incident ρ)) :
    w.pages way (past ++ recent) = w.pages way past ++ (w.after past).pages way recent := by
  rw [pages, replies_append, List.filterMap_append]
  rfl

/-- What a turn makes of a watch and of what the direction is told, if it does not have to wait. -/
theorem fared_turn (w : Watch ρ) (way : Scan.Way) (now : Nat) :
    w.scan.stepWay way ⟨now, false⟩ w.site = none ∧ w.perform (.turn way now) = w ∧
        w.reply? way (.turn way now) = none ∨ ∃ site p,
      (w.scan.pass way).step w.scan.plan ⟨now, false⟩ w.site = some (site, p) ∧
      Scan.Pass.Fared w.scan.plan ⟨now, false⟩ w.site (w.scan.pass way)
        (w.reply? way (.turn way now)) site p ∧
      w.perform (.turn way now) = { site, scan := w.scan.setPass p way } := by
  simp only [perform, reply?, Scan.stepWay]
  cases hr : w.scan.isOver with
  | true => exact .inl ⟨rfl, rfl, by simp⟩
  | false =>
    simp only [Bool.false_eq_true, if_false, and_self, if_true]
    cases hstep : (w.scan.pass way).step w.scan.plan ⟨now, false⟩ w.site with
    | none => exact .inl ⟨rfl, rfl, Scan.Pass.reply?_of_step_eq_none hstep⟩
    | some next =>
      obtain ⟨site, p⟩ := next
      exact .inr ⟨site, p, rfl, Scan.Pass.fared_of_step hstep, rfl⟩

theorem reply?_turn_of_ne {way other : Scan.Way} (h : other ≠ way) (w : Watch ρ) (now : Nat) :
    w.reply? way (.turn other now) = none :=
  if_neg fun hsame => h hsame.1

/-- An incident leaves a direction as it is and tells it nothing, or is a move of its pass. -/
theorem fared_perform (w : Watch ρ) (way : Scan.Way) (x : Incident ρ) :
    (w.perform x).scan.pass way = w.scan.pass way ∧ w.reply? way x = none ∨
      ∃ now p, x = .turn way now ∧ (w.perform x).scan.pass way = p ∧
        Scan.Pass.Fared w.scan.plan ⟨now, false⟩ w.site (w.scan.pass way) (w.reply? way x)
          (w.perform x).site p := by
  cases x with
  | put | remove | publish | plan | planBroker => exact .inl ⟨rfl, rfl⟩
  | turn other now =>
    by_cases hother : other = way
    · subst hother
      rcases w.fared_turn other now with ⟨-, heq, hreply⟩ | ⟨site, p, -, hm, heq⟩
      · exact .inl ⟨by rw [heq], hreply⟩
      · refine .inr ⟨now, p, rfl, by simp [heq], ?_⟩
        rwa [heq]
    · refine .inl ⟨?_, reply?_turn_of_ne hother w now⟩
      rcases w.fared_turn other now with ⟨-, heq, -⟩ | ⟨site, p, -, -, heq⟩
      · rw [heq]
      · simp [heq, Ne.symm hother]

/-- Without a turn nothing comes into a log but what somebody else publishes there. -/
theorem log_perform_of_ne (w : Watch ρ) {x : Incident ρ} {topic : String}
    (hturn : ∀ way now, x ≠ .turn way now) (hpublish : ∀ payload, x ≠ .publish topic payload) :
    (w.perform x).site.broker.log topic = w.site.broker.log topic := by
  cases x with
  | turn way now => exact absurd rfl (hturn way now)
  | put side | remove side | plan side =>
    simp only [perform, Deployment.edit, Deployment.setFaults, Deployment.broker_setStore]
  | publish other payload =>
    refine (Broker.log_append ..).trans (if_neg ?_)
    rintro rfl
    exact hpublish payload rfl
  | planBroker faults => exact (w.site.alike_setBrokerFaults faults).broker.log _

/-- A page that a direction is told of is the one that it was about to read. -/
theorem ahead_of_reply? (w : Watch ρ) {way : Scan.Way} {x : Incident ρ} {page : List ρ}
    (h : w.reply? way x = some (.page page)) :
    (w.scan.pass way).phase = .reading ∧ page = (w.scan.pass way).ahead w.scan.plan w.site := by
  rcases w.fared_perform way x with ⟨-, hnone⟩ | ⟨now, p, -, -, hm⟩
  · rw [hnone] at h
    cases h
  · rw [h] at hm
    cases hm with
    | paged hph => exact ⟨hph, rfl⟩

/-! ### Directions -/

/-- Each direction has in hand only mismatches that are found in it. -/
structure Apart (w : Watch ρ) : Prop where
  way : ∀ way, (w.scan.pass way).way = way
  carries : ∀ way, (w.scan.pass way).Carries (fun _ => True) fun x => x.2.way = way

theorem apart_start (site : Deployment ρ) (plan : Scan.Plan) :
    ({ site, scan := { plan } } : Watch ρ).Apart := by
  constructor
  · intro way
    cases way <;> rfl
  · intro way
    cases way <;> exact trivial

theorem Apart.perform {w : Watch ρ} (h : w.Apart) (x : Incident ρ) : (w.perform x).Apart := by
  cases x with
  | put | remove | publish | plan | planBroker => exact ⟨h.way, h.carries⟩
  | turn way now =>
    rcases w.perform_turn way now with heq | ⟨site, p, hm, heq⟩
    · rwa [heq]
    have hfound (page : List ρ) (_ : ∀ r ∈ page, True) (x : Int × Mismatch)
        (hx : x ∈ (w.scan.pass way).way.mismatches page
          (w.site.store ((w.scan.pass way).lookupSide w.scan.plan)).rows) : x.2.way = way :=
      (Scan.Way.way_of_mem_mismatches hx).trans (h.way way)
    obtain ⟨hway, hcarries⟩ := (h.carries way).move (fun _ _ => trivial) hfound hm
    rw [heq]
    constructor
    · intro other
      simp only [Scan.pass_setPass]
      split
      · next hother => rw [hway, h.way, hother]
      · exact h.way other
    · intro other
      simp only [Scan.pass_setPass]
      split
      · next hother => rwa [hother]
      · exact h.carries other

theorem Apart.after {w : Watch ρ} (h : w.Apart) (incidents : List (Incident ρ)) :
    (w.after incidents).Apart := by
  induction incidents generalizing w with
  | nil => exact h
  | cons x rest ih => exact ih (h.perform x)

/-! ### Courses of incidents -/

/-- Each incident is as `P` says when its turn comes. -/
def Throughout (P : Watch ρ → Incident ρ → Prop) (w : Watch ρ) : List (Incident ρ) → Prop
  | [] => True
  | x :: rest => P w x ∧ (w.perform x).Throughout P rest

instance decidableThroughout {P : Watch ρ → Incident ρ → Prop} [∀ w x, Decidable (P w x)] :
    (w : Watch ρ) → (incidents : List (Incident ρ)) → Decidable (w.Throughout P incidents)
  | _, [] => inferInstanceAs (Decidable True)
  | w, x :: rest =>
    have := decidableThroughout (P := P) (w.perform x) rest
    inferInstanceAs (Decidable (P w x ∧ (w.perform x).Throughout P rest))

theorem throughout_append {P : Watch ρ → Incident ρ → Prop} {w : Watch ρ}
    {past recent : List (Incident ρ)} :
    w.Throughout P (past ++ recent) ↔ w.Throughout P past ∧ (w.after past).Throughout P recent := by
  induction past generalizing w with
  | nil => exact (true_and _ ▸ Iff.rfl)
  | cons x rest ih => exact (and_congr_right' ih).trans and_assoc.symm

theorem Throughout.and {P Q : Watch ρ → Incident ρ → Prop} {w : Watch ρ}
    {incidents : List (Incident ρ)} (hP : w.Throughout P incidents)
    (hQ : w.Throughout Q incidents) :
    w.Throughout (fun w x => P w x ∧ Q w x) incidents := by
  induction incidents generalizing w with
  | nil => trivial
  | cons x rest ih => exact ⟨⟨hP.1, hQ.1⟩, ih hP.2 hQ.2⟩

/-- A reply that a direction is not told in the course of incidents it is told in none of them. -/
theorem throughout_of_not_mem_replies {way : Scan.Way} {reply : Scan.Reply ρ} {w : Watch ρ}
    {incidents : List (Incident ρ)} (h : reply ∉ w.replies way incidents) :
    w.Throughout (fun w x => w.reply? way x ≠ some reply) incidents := by
  induction incidents generalizing w with
  | nil => trivial
  | cons x rest ih =>
    rw [replies, List.mem_append, not_or, Option.mem_toList] at h
    exact ⟨h.1, ih h.2⟩

/-- What holds of the replies so far and of the watch goes on to hold if each incident keeps it. -/
theorem Throughout.induction {P : Watch ρ → Incident ρ → Prop}
    {I : (Scan.Way → List (Scan.Reply ρ)) → Watch ρ → Prop}
    (hstep : ∀ {told w x}, I told w → P w x →
      I (fun way => told way ++ (w.reply? way x).toList) (w.perform x))
    {w : Watch ρ} {incidents : List (Incident ρ)} (h : w.Throughout P incidents)
    (hw : I (fun _ => []) w) : I (fun way => w.replies way incidents) (w.after incidents) := by
  suffices ∀ told, I told w → I (fun way => told way ++ w.replies way incidents)
      (w.after incidents) from
    this _ hw
  clear hw
  induction incidents generalizing w with
  | nil =>
    intro told hw
    simp only [replies, List.append_nil]
    exact hw
  | cons x rest ih =>
    intro told hw
    simp only [replies, ← List.append_assoc]
    exact ih h.2 _ (hstep hw h.1)

end Watch

end Cutover
