import Cutover.Proofs.Acts

/-!
# Scans over a broker that fails

While a scan goes through stores to which nobody writes, the broker refuses what it likes, or takes
too long. Each direction does what it does on its own over a broker that publishes everything
(`Scan.Plan.alone`), as long as no publishing call is told that it was cancelled
(`Watch.Abreast.after`). Main statements: two scans of the same stores do the same exactly if no
publishing call is told so (`Watch.undisturbed_iff`), and what a direction does is what the stores
see of it (`Watch.history_after`).
-/

namespace Cutover

variable {ρ : Type} [Entity ρ]

namespace Scan

/-! ## A direction on its own -/

namespace Plan

variable {plan : Plan} {d : Deployment ρ} {way : Way} {n : Nat}

/-- A direction on its own over a broker that publishes whatever it is given, after some moves. Each
is made when the call that the pass waits for is answered. -/
def alone (plan : Plan) (d : Deployment ρ) (way : Way) : Nat → Deployment ρ × Pass ρ
  | 0 => ({ d with broker := {} }, { way })
  | n + 1 =>
    let s := plan.alone d way n
    (s.2.step plan s.2.due s.1).getD s

/-- What a direction on its own does in a move, unless it has come to its end. -/
def course (plan : Plan) (d : Deployment ρ) (way : Way) (n : Nat) : Option (Act ρ) :=
  let s := plan.alone d way n
  (s.2.act? plan s.2.due s.1).map Act.planned

/-- A direction on its own that has not come to its end moves. -/
theorem step_alone (h : ∀ r, (plan.alone d way n).2.phase ≠ .done r) :
    (plan.alone d way n).2.step plan (plan.alone d way n).2.due (plan.alone d way n).1 =
        some ((plan.alone d way (n + 1)).1, (plan.alone d way (n + 1)).2) ∧
      plan.course d way n =
        some ((plan.alone d way n).2.act plan (plan.alone d way n).2.due
          (plan.alone d way n).1).planned := by
  obtain ⟨next, hnext⟩ := Option.isSome_iff_exists.mp
      (Pass.step_due_isSome h plan (plan.alone d way n).1)
  simp only [alone, course, Pass.act?, hnext, Option.getD_some, Option.map_some, and_self]

/-- A direction on its own does not go back. -/
theorem offset_alone_le (plan : Plan) (d : Deployment ρ) (way : Way) {n n' : Nat} (h : n ≤ n') :
    (plan.alone d way n).2.offset ≤ (plan.alone d way n').2.offset := by
  induction h with
  | refl => exact Nat.le_refl _
  | @step k _ ih =>
    refine Nat.le_trans ih ?_
    rw [alone]
    cases hstep : (plan.alone d way k).2.step plan (plan.alone d way k).2.due
      (plan.alone d way k).1 with
    | none => exact Nat.le_refl _
    | some next => exact (Pass.moved_of_step hstep).offset_le

/-- A deployment with a pass that does not fail. -/
structure Unfailing (plan : Plan) (way : Way) (d : Deployment ρ) (p : Pass ρ) : Prop where
  regular : d.Regular plan.callLimit
  broker : d.broker.Prompt plan.callLimit
  bears : p.Bears
  way : p.way = way

theorem Unfailing.step {d' : Deployment ρ} {p p' : Pass ρ} {m : Moment} (h : plan.Unfailing way d p)
    (hstop : m.stopped = false) (hstep : p.step plan m d = some (d', p')) :
    plan.Unfailing way d' p' ∧ ¬ (p.act plan m d).IsCancelled := by
  have hmild : d.Mild plan.callLimit := ⟨fun side => (h.regular side).toMild, h.broker⟩
  obtain ⟨hmild', hbears⟩ := h.bears.step hstop hmild hstep
  have hacted := Pass.acted_of_step h.regular h.bears.onTime hstop hstep
  refine ⟨⟨hacted.regular h.regular, hmild'.broker, hbears, (Pass.way_of_step hstep).trans h.way⟩,
    ?_⟩
  exact fun hcancelled => hbears.unfailed _ (Pass.phase_of_result? (hacted.failed hcancelled))

theorem unfailing_alone (plan : Plan) (hd : d.Regular plan.callLimit) (way : Way) (n : Nat) :
    plan.Unfailing way (plan.alone d way n).1 (plan.alone d way n).2 := by
  induction n with
  | zero =>
    exact ⟨hd.withBroker _, ⟨rfl, ⟨fun _ => rfl, Nat.zero_le _⟩, rfl⟩,
      ⟨by simp [alone], by simp [alone]⟩, rfl⟩
  | succ n ih =>
    simp only [alone]
    cases hstep : (plan.alone d way n).2.step plan (plan.alone d way n).2.due
      (plan.alone d way n).1 with
    | none => exact ih
    | some next => exact (ih.step rfl hstep).1

end Plan

omit [Entity ρ] in
theorem result?_of_cancelled {s : Scan ρ} {way : Way}
    (h : ∀ way e, (s.pass way).result? = some (.error e) → e = .cancelled)
    (hway : (s.pass way).result? = some (.error .cancelled)) :
    s.result? = some (.error .cancelled) := by
  unfold result?
  split
  · next hforth => rw [h .baseToTarget _ hforth]
  · next hback _ => rw [h .targetToBase _ hback]
  · next hforth hback =>
    cases way with
    | baseToTarget => cases hway.symm.trans hforth
    | targetToBase => cases hway.symm.trans hback
  · next hforth hback _ =>
    cases way with
    | baseToTarget => exact absurd hway (hforth _)
    | targetToBase => exact absurd hway (hback _)

end Scan

/-! ## Watches -/

/-- What somebody else may do during a scan if no store is written to: publish elsewhere, and plan
faults of the broker. -/
def Incident.Outside (plan : Scan.Plan) : Incident ρ → Prop
  | .turn _ _ | .planBroker _ => True
  | .publish topic _ => topic ≠ plan.topic
  | .put _ _ | .remove _ _ | .plan _ _ => False

namespace Watch

/-- What the pass in a direction does in an incident, if it moves. -/
def act? (way : Scan.Way) (w : Watch ρ) : Incident ρ → Option (Scan.Act ρ)
  | .turn other now =>
    if other = way ∧ w.scan.isOver = false then
      (w.scan.pass way).act? w.scan.plan ⟨now, false⟩ w.site
    else none
  | _ => none

/-- What the pass in a direction does in the course of some incidents. -/
def acts (way : Scan.Way) (w : Watch ρ) : List (Incident ρ) → List (Scan.Act ρ)
  | [] => []
  | x :: rest => (w.act? way x).toList ++ (w.perform x).acts way rest

/-- The calls that a direction makes to stores in the course of some incidents. -/
def calls (way : Scan.Way) (w : Watch ρ) (incidents : List (Incident ρ)) : List (Side × Call ρ) :=
  (w.acts way incidents).filterMap Scan.Act.call?

/-- The reports that a direction tries to publish in the course of some incidents. -/
def tried (way : Scan.Way) (w : Watch ρ) (incidents : List (Incident ρ)) : List Report :=
  (w.acts way incidents).filterMap Scan.Act.report?

/-- The reports that a direction publishes in the course of some incidents. -/
def published (way : Scan.Way) (w : Watch ρ) (incidents : List (Incident ρ)) : List Report :=
  (w.acts way incidents).filterMap Scan.Act.published?

/-- A watch of a scan whose calls to stores are answered in time. -/
structure OnTime (plan : Scan.Plan) (w : Watch ρ) : Prop where
  planned : w.scan.plan = plan
  regular : w.site.Regular plan.callLimit
  pass : ∀ way, (w.scan.pass way).OnTime

/-- A watch in which each direction is as far as it is on its own after some moves. -/
structure Abreast (plan : Scan.Plan) (d : Deployment ρ) (n : Scan.Way → Nat) (w : Watch ρ) :
    Prop where
  like : ∀ way, (plan.alone d way (n way)).2.Like plan (w.scan.pass way)
  agrees : ∀ way, plan.AgreeOn way (plan.alone d way (n way)).1 w.site

variable {plan : Scan.Plan} {d : Deployment ρ} {w : Watch ρ} {x : Incident ρ} {n : Scan.Way → Nat}

theorem onTime_start (hd : d.Regular plan.callLimit) (b : Broker) :
    ({ site := { d with broker := b }, scan := { plan } } : Watch ρ).OnTime plan := by
  refine ⟨rfl, hd.withBroker b, fun way => ?_⟩
  cases way <;> exact ⟨by simp [Scan.pass], by simp [Scan.pass]⟩

theorem abreast_start (d : Deployment ρ) (plan : Scan.Plan) (b : Broker) :
    ({ site := { d with broker := b }, scan := { plan } } : Watch ρ).Abreast plan d fun _ => 0 := by
  refine ⟨fun way => ?_, fun way => ?_⟩
  · cases way <;> exact .refl ..
  · have hrefl := Scan.Plan.AgreeOn.refl plan way d
    exact (hrefl.withBroker _).symm.withBroker b

/-- What a turn makes of a watch, and what the directions do in it. -/
theorem act?_turn (w : Watch ρ) (way : Scan.Way) (now : Nat) :
    w.perform (.turn way now) = w ∧ (∀ other, w.act? other (.turn way now) = none) ∨ ∃ site p,
      w.scan.isOver = false ∧
      (w.scan.pass way).step w.scan.plan ⟨now, false⟩ w.site = some (site, p) ∧
      w.perform (.turn way now) = { site, scan := w.scan.setPass p way } ∧
      ∀ other, w.act? other (.turn way now) =
        if other = way then some ((w.scan.pass way).act w.scan.plan ⟨now, false⟩ w.site)
        else none := by
  simp only [perform, act?, Scan.stepWay]
  cases hr : w.scan.isOver with
  | true => exact .inl ⟨rfl, by simp⟩
  | false =>
    simp only [Bool.false_eq_true, if_false, and_true]
    cases hstep : (w.scan.pass way).step w.scan.plan ⟨now, false⟩ w.site with
    | none =>
      refine .inl ⟨rfl, fun other => ?_⟩
      split
      · next heq =>
        subst heq
        rw [Scan.Pass.act?, hstep]
        rfl
      · rfl
    | some next =>
      obtain ⟨site, p⟩ := next
      refine .inr ⟨site, p, trivial, rfl, rfl, fun other => ?_⟩
      by_cases heq : other = way
      · subst heq
        rw [if_pos rfl, if_pos rfl, Scan.Pass.act?, hstep]
        rfl
      · rw [if_neg heq, if_neg (Ne.symm heq)]

theorem OnTime.perform (h : w.OnTime plan) (hx : x.Outside plan) : (w.perform x).OnTime plan := by
  cases x with
  | put | remove | plan => exact hx.elim
  | publish | planBroker => exact ⟨h.planned, h.regular.withBroker _, h.pass⟩
  | turn way now =>
    rcases w.act?_turn way now with ⟨heq, -⟩ | ⟨site, p, -, hstep, heq, -⟩
    · rwa [heq]
    rw [h.planned] at hstep
    have hacted := Scan.Pass.acted_of_step h.regular (h.pass way) rfl hstep
    rw [heq]
    refine ⟨(Scan.plan_setPass ..).trans h.planned, hacted.regular h.regular, fun other => ?_⟩
    rw [Scan.pass_setPass]
    split
    · exact hacted.onTime h.regular (h.pass way)
    · exact h.pass other

/-- A direction that moves does what it does on its own, unless it is told that its report was
cancelled. -/
theorem Abreast.move (h : w.Abreast plan d n) (hw : w.OnTime plan) (hd : d.Regular plan.callLimit)
    {way : Scan.Way} {now : Nat} {site : Deployment ρ} {p : Scan.Pass ρ}
    (hstep : (w.scan.pass way).step plan ⟨now, false⟩ w.site = some (site, p))
    (hok : ¬ ((w.scan.pass way).act plan ⟨now, false⟩ w.site).IsCancelled) :
    (plan.alone d way (n way + 1)).2.Like plan p ∧
    plan.AgreeOn way (plan.alone d way (n way + 1)).1 site ∧
      plan.course d way (n way) = some
        ((w.scan.pass way).act plan ⟨now, false⟩ w.site).planned := by
  have halone := plan.unfailing_alone hd way (n way)
  have hlike := h.like way
  have hagrees := h.agrees way
  have hlive (r : Except Error Unit) : (plan.alone d way (n way)).2.phase ≠ .done r := by
    intro hdone
    rw [Scan.Pass.step_done (hlike.phase.trans hdone)] at hstep
    cases hstep
  obtain ⟨hnext, hact⟩ := Scan.Plan.step_alone hlive
  obtain ⟨hlike', hagrees', hplanned⟩ :=
    hlike.step (halone.way.symm ▸ hagrees) halone.regular hw.regular
    halone.bears.onTime (hw.pass way) rfl rfl hnext hstep (halone.step rfl hnext).2 hok
  rw [halone.way] at hagrees'
  rw [hact, hplanned]
  exact ⟨hlike', hagrees', rfl⟩

theorem Abreast.perform (h : w.Abreast plan d n) (hw : w.OnTime plan)
    (hd : d.Regular plan.callLimit)
    (hx : x.Outside plan) (hok : ∀ way, ∀ a ∈ w.act? way x, ¬ a.IsCancelled) :
    (w.perform x).Abreast plan d (fun way => n way + (w.act? way x).toList.length) ∧
      ∀ way, ∀ a ∈ w.act? way x, plan.course d way (n way) = some a.planned := by
  cases x with
  | put | remove | plan => exact hx.elim
  | publish | planBroker => exact ⟨⟨h.like, fun way => (h.agrees way).withBroker _⟩, by simp [act?]⟩
  | turn way now =>
    rcases w.act?_turn way now with ⟨heq, hnone⟩ | ⟨site, p, -, hstep, heq, hact⟩
    · rw [heq]
      simp only [hnone]
      exact ⟨h, by simp⟩
    rw [hw.planned] at hstep hact
    obtain ⟨hlike, hagrees, hcourse⟩ :=
      h.move hw hd hstep (hok way _ (by rw [hact, if_pos rfl]; rfl))
    have hacted := Scan.Pass.acted_of_step hw.regular (hw.pass way) rfl hstep
    have hway : (w.scan.pass way).way = way :=
      (h.like way).way.trans (plan.unfailing_alone hd way (n way)).way
    simp only [heq, hact]
    refine ⟨⟨fun other => ?_, fun other => ?_⟩, fun other a ha => ?_⟩
    · rw [Scan.pass_setPass]
      split
      · next hother => exact hother ▸ hlike
      · exact h.like other
    · split
      · next hother => exact hother ▸ hagrees
      · next hother => exact (h.agrees other).trans (hacted.agreeOn hw.regular (hway.symm ▸ hother))
    · split at ha
      · next hother =>
        cases ha
        exact hother ▸ hcourse
      · cases ha

/-- As long as no report is told to be cancelled, the directions do what they do on their own. -/
theorem Abreast.after (h : w.Abreast plan d n) (hw : w.OnTime plan) (hd : d.Regular plan.callLimit)
    {incidents : List (Incident ρ)} (hincidents : ∀ x ∈ incidents, x.Outside plan)
    (hok : ∀ way, ∀ a ∈ w.acts way incidents, ¬ a.IsCancelled) :
    (w.after incidents).Abreast plan d (fun way => n way + (w.acts way incidents).length) ∧
      ∀ way, (w.acts way incidents).map (some ·.planned) =
        (List.range' (n way) (w.acts way incidents).length).map (plan.course d way) := by
  induction incidents generalizing w n with
  | nil => exact ⟨h, fun _ => rfl⟩
  | cons x rest ih =>
    obtain ⟨hx, hrest⟩ := List.forall_mem_cons.mp hincidents
    simp only [acts, List.mem_append, Option.mem_toList] at hok
    obtain ⟨hnext, hcourse⟩ := h.perform hw hd hx fun way a ha => hok way a (.inl ha)
    obtain ⟨hafter, hcourses⟩ := ih hnext (hw.perform hx) hrest fun way a ha => hok way a (.inr ha)
    simp only [acts, List.length_append, ← Nat.add_assoc]
    refine ⟨hafter, fun way => ?_⟩
    -- a direction that moves in the first incident makes its move `n way` there
    rw [List.map_append, hcourses]
    cases ha : w.act? way x with
    | none => simp
    | some a =>
      rw [Option.toList_some, List.length_singleton, Nat.add_comm 1, List.range'_succ,
        List.map_cons, List.map_cons, hcourse way a ha]
      rfl

/-! ### What comes of a cancelled report -/

theorem result?_after_of_ended {r : Except Error Unit} (h : w.scan.result? = some r)
    (incidents : List (Incident ρ)) : (w.after incidents).scan.result? = some r := by
  induction incidents generalizing w with
  | nil => exact h
  | cons x rest ih =>
    refine ih (w := w.perform x) ?_
    cases x with
    | put | remove | publish | plan | planBroker => exact h
    | turn way now =>
      rcases w.act?_turn way now with ⟨heq, -⟩ | ⟨site, p, hlive, -⟩
      · rwa [heq]
      · rw [Scan.isOver_of_result? h] at hlive
        cases hlive

/-- A scan that is told that a report was cancelled fails. -/
theorem OnTime.failed (h : w.OnTime plan) (hx : x.Outside plan) {way : Scan.Way} {a : Scan.Act ρ}
    (ha : w.act? way x = some a) (hcancelled : a.IsCancelled) :
    (w.perform x).scan.result? = some (.error .cancelled) := by
  have hpass := (h.perform hx).pass
  suffices ((w.perform x).scan.pass way).result? = some (.error .cancelled) from
    Scan.result?_of_cancelled (fun other e he =>
      (hpass other).failed e (Scan.Pass.phase_of_result? he)) this
  cases x with
  | put | remove | publish | plan | planBroker => cases ha
  | turn other now =>
    rcases w.act?_turn other now with ⟨-, hnone⟩ | ⟨site, p, -, hstep, heq, hact⟩
    · rw [hnone] at ha
      cases ha
    rw [hact] at ha
    split at ha
    · next hway =>
      subst hway
      cases ha
      rw [h.planned] at hstep hcancelled
      rw [heq, Scan.pass_setPass, if_pos rfl]
      exact (Scan.Pass.acted_of_step h.regular (h.pass way) rfl hstep).failed hcancelled
    · cases ha

theorem OnTime.failed_after (h : w.OnTime plan) {incidents : List (Incident ρ)}
    (hincidents : ∀ x ∈ incidents, x.Outside plan) {way : Scan.Way} {a : Scan.Act ρ}
    (ha : a ∈ w.acts way incidents) (hcancelled : a.IsCancelled) :
    (w.after incidents).scan.result? = some (.error .cancelled) := by
  induction incidents generalizing w with
  | nil => cases ha
  | cons x rest ih =>
    obtain ⟨hx, hrest⟩ := List.forall_mem_cons.mp hincidents
    rcases List.mem_append.mp ha with ha | ha
    · exact result?_after_of_ended (h.failed hx (Option.mem_toList.mp ha) hcancelled) rest
    · exact ih (h.perform hx) hrest ha

/-! ### What is published -/

theorem sent_perform {before : List Bytes} {sent : Scan.Way → List Report} (h : w.OnTime plan)
    (hapart : w.Apart) (hx : x.Outside plan) (hsent : Scan.Sent before sent w.log) :
    Scan.Sent before (fun way => sent way ++ (w.act? way x).toList.filterMap Scan.Act.published?)
      (w.perform x).log := by
  cases x with
  | put | remove | plan => exact hx.elim
  | publish topic payload =>
    simp only [act?, Option.toList_none, List.filterMap_nil, List.append_nil]
    rwa [log, plan_perform, log_perform_of_ne w (by simp)]
    rintro _ heq
    cases heq
    exact hx (by rw [h.planned])
  | planBroker =>
    simp only [act?, Option.toList_none, List.filterMap_nil, List.append_nil]
    exact hsent
  | turn way now =>
    rcases w.act?_turn way now with ⟨heq, hnone⟩ | ⟨site, p, -, hstep, heq, hact⟩
    · rw [heq]
      simpa only [hnone, Option.toList_none, List.filterMap_nil, List.append_nil] using hsent
    rw [h.planned] at hstep hact
    rw [log, h.planned] at hsent
    have hacted := Scan.Pass.acted_of_step h.regular (h.pass way) rfl hstep
    rw [log, plan_perform, h.planned, heq]
    rcases hacted.log (hapart.carries way) with ⟨hnone, hlog⟩ | ⟨id, kind, hkind, hsome, hlog⟩
    · have hsame (other : Scan.Way) : (w.act? other (.turn way now)).toList.filterMap
          Scan.Act.published? = [] := by
        rw [hact]
        split
        · simp [hnone]
        · rfl
      simpa only [hsame, List.append_nil, hlog] using hsent
    · obtain ⟨sent', hsent', hway, hothers⟩ := hsent.report hkind plan id
      have hall : (fun other => sent other ++ (w.act? other (.turn way now)).toList.filterMap
          Scan.Act.published?) = sent' := by
        funext other
        rw [hact]
        split
        · next hother =>
          subst hother
          simp [hsome, hway]
        · next hother => simp [hothers other hother]
      rwa [hall, hlog]

theorem sent_after {before : List Bytes} {sent : Scan.Way → List Report} (h : w.OnTime plan)
    (hapart : w.Apart) {incidents : List (Incident ρ)}
    (hincidents : ∀ x ∈ incidents, x.Outside plan) (hsent : Scan.Sent before sent w.log) :
    Scan.Sent before (fun way => sent way ++ w.published way incidents)
      (w.after incidents).log := by
  induction incidents generalizing w sent with
  | nil =>
    simp only [published, acts, List.filterMap_nil, List.append_nil]
    exact hsent
  | cons x rest ih =>
    obtain ⟨hx, hrest⟩ := List.forall_mem_cons.mp hincidents
    simp only [published, acts, List.filterMap_append, ← List.append_assoc]
    exact ih (h.perform hx) (hapart.perform x) hrest (sent_perform h hapart hx hsent)

/-! ### What the stores see -/

/-- Of the calls that have the operations of a direction, a store sees in an incident those that the
direction makes. -/
theorem history_perform (hplan : w.scan.plan = plan) (hapart : w.Apart) (x : Incident ρ)
    (way : Scan.Way) (side : Side) :
    ((w.perform x).site.store side).history.filter (·.op = way.op plan side) =
      (w.site.store side).history.filter (·.op = way.op plan side) ++
        (((w.act? way x).toList.filterMap Scan.Act.call?).filter (·.1 = side)).map Prod.snd := by
  cases x with
  | publish | planBroker => simp [act?, perform, Deployment.setBrokerFaults]
  | put other | remove other | plan other =>
    simp only [act?, Option.toList_none, List.filterMap_nil, List.filter_nil, List.map_nil,
      List.append_nil, perform, Deployment.edit, Deployment.setFaults, Deployment.store_setStore]
    split
    · next hside =>
      rw [hside]
      rfl
    · rfl
  | turn other now =>
    rcases w.act?_turn other now with ⟨heq, hnone⟩ | ⟨site, p, -, hstep, heq, hact⟩
    · simp [heq, hnone]
    rw [hplan] at hstep hact
    obtain ⟨hhistory, hop⟩ := Scan.Pass.history_of_step rfl hstep side
    rw [hapart.way] at hop
    rw [heq, hact, hhistory, List.filter_append]
    congr 1
    -- the operation of a call tells whose it is
    cases hcall : ((w.scan.pass other).act plan ⟨now, false⟩ w.site).call? with
    | none => split <;> simp [hcall]
    | some made =>
      have hmade := hop made hcall
      by_cases hside : made.1 = side
      · subst hside
        split
        · next hway => simp [hcall, hmade, hway]
        · next hway => simp [hmade, Scan.Way.op_ne (Ne.symm hway)]
      · split <;> simp [hcall, hside]

theorem history_after (hplan : w.scan.plan = plan) (hapart : w.Apart)
    (incidents : List (Incident ρ)) (way : Scan.Way) (side : Side) :
    ((w.after incidents).site.store side).history.filter (·.op = way.op plan side) =
      (w.site.store side).history.filter (·.op = way.op plan side) ++
        ((w.calls way incidents).filter (·.1 = side)).map Prod.snd := by
  induction incidents generalizing w with
  | nil => simp [calls, acts, after]
  | cons x rest ih =>
    rw [calls, acts, List.filterMap_append, List.filter_append, List.map_append,
      ← List.append_assoc, ← history_perform hplan hapart x]
    exact ih ((w.plan_perform x).trans hplan) (hapart.perform x)

/-! ### Two scans of the same stores -/

/-- A scan that is no further than another one has not broken down, if that one has not. -/
theorem Abreast.isBroken_eq_false {n' : Scan.Way → Nat} {w' : Watch ρ} (h : w.Abreast plan d n)
    (h' : w'.Abreast plan d n') (hle : ∀ way, n way ≤ n' way)
    (hunbroken : w'.scan.isBroken = false) :
    w.scan.isBroken = false := by
  refine Scan.isBroken_eq_false_iff.mpr fun way => Scan.Pass.isBroken_eq_false_iff.mpr ?_
  have hsize := Scan.Pass.isBroken_eq_false_iff.mp (Scan.isBroken_eq_false_iff.mp hunbroken way)
  rw [(h'.like way).offset] at hsize
  rw [(h.like way).offset]
  exact Nat.lt_of_le_of_lt (plan.offset_alone_le d way (hle way)) hsize

/-- A direction that has come to its end has nothing more to do on its own. -/
theorem Abreast.course_eq_none (h : w.Abreast plan d n) {way : Scan.Way} {r : Except Error Unit}
    (hr : (w.scan.pass way).result? = some r) : plan.course d way (n way) = none := by
  have hdone := (h.like way).phase.symm.trans (Scan.Pass.phase_of_result? hr)
  simp only [Scan.Plan.course, Scan.Pass.act?, Scan.Pass.step_done hdone, Option.map_none]

/-- As long as no report is told to be cancelled, no direction fails. -/
theorem Abreast.result_eq_ok (h : w.Abreast plan d n) (hd : d.Regular plan.callLimit)
    {way : Scan.Way}
    {r : Except Error Unit} (hr : (w.scan.pass way).result? = some r) : r = .ok () := by
  have hdone := (h.like way).phase.symm.trans (Scan.Pass.phase_of_result? hr)
  have hbears := (plan.unfailing_alone hd way (n way)).bears
  cases r with
  | ok => rfl
  | error e => exact absurd hdone (hbears.unfailed e)

/-- A direction that does what it does on its own ends where that ends. -/
theorem length_le_of_course {way : Scan.Way} {acts : List (Scan.Act ρ)}
    (h : acts.map (some ·.planned) = (List.range' 0 acts.length).map (plan.course d way)) {n : Nat}
    (hn : plan.course d way n = none) : acts.length ≤ n := by
  by_contra hlt
  have hget := congrArg (·[n]?) h
  simp [Nat.not_le.mp hlt, hn] at hget

theorem planned_isPrefix {way : Scan.Way} {acts acts' : List (Scan.Act ρ)}
    (h : acts.map (some ·.planned) = (List.range' 0 acts.length).map (plan.course d way))
    (h' : acts'.map (some ·.planned) = (List.range' 0 acts'.length).map (plan.course d way))
    (hle : acts.length ≤ acts'.length) :
    acts.map Scan.Act.planned <+: acts'.map Scan.Act.planned := by
  have hrange : List.range' 0 acts.length <+: List.range' 0 acts'.length := by
    refine ⟨List.range' (0 + acts.length) (acts'.length - acts.length), ?_⟩
    rw [List.range'_append_1, Nat.add_sub_cancel' hle]
  have hsome := (hrange.map (plan.course d way)).filterMap id
  rw [← h, ← h', List.filterMap_map, List.filterMap_map] at hsome
  simpa only [Function.comp_def, id, ← List.filterMap_eq_map] using hsome

/-- Two scans of the same stores, over any brokers and with any faults of them, where the broker
publishes whatever the second scan gives it, and the second scan ends. It ends with success. Of the
first scan, as long as no publishing call is told that it was cancelled, each direction does what
the same direction of the second does, in the same order, and the scan goes on until it has done it
all. The first scan ends as the second, with the same calls to stores and the same reports tried, if
and only if no publishing call of it is told that it was cancelled; otherwise it fails. In any case
it publishes, of the reports that it tries to publish, those for which the broker says so. -/
theorem undisturbed_iff (hd : ∀ side, (d.store side).Regular plan.callLimit) {b b' : Broker}
    {start start' : Watch ρ} (hstart : start = { site := { d with broker := b }, scan := { plan } })
    (hstart' : start' = { site := { d with broker := b' }, scan := { plan } })
    {incidents incidents' : List (Incident ρ)} (hincidents : ∀ x ∈ incidents, x.Outside plan)
    (hincidents' : ∀ x ∈ incidents', x.Outside plan)
    (hpublished : ∀ way r outcome,
      .reports r outcome ∈ start'.acts way incidents' → outcome = .ok ())
    {w w' : Watch ρ} (hw : w = start.after incidents) (hw' : w' = start'.after incidents')
    {result : Except Error Unit} (hresult : w'.scan.result? = some result) :
    result = .ok () ∧
      Scan.Sent start.log (fun way => start.published way incidents) w.log ∧
      ((∀ way, ∀ a ∈ start.acts way incidents, ¬ a.IsCancelled) →
        (∀ way, (start.acts way incidents).map Scan.Act.planned <+: start'.acts way incidents') ∧
        (w.scan.result? = none →
          ∃ way t, ∀ now, t ≤ now → (w.scan.stepWay way ⟨now, false⟩ w.site).isSome)) ∧
      ((∃ way, ∃ a ∈ start.acts way incidents, a.IsCancelled) →
        w.scan.result? = some (.error .cancelled)) ∧
      ∀ r, w.scan.result? = some r →
        ((r = result ∧ ∀ way, start.calls way incidents = start'.calls way incidents' ∧
            start.tried way incidents = start'.tried way incidents') ↔
          ∀ way, ∀ a ∈ start.acts way incidents, ¬ a.IsCancelled) := by
  have hbegun : start.OnTime plan := hstart ▸ onTime_start hd b
  have hbegun' : start'.OnTime plan := hstart' ▸ onTime_start hd b'
  have hok' (way : Scan.Way) (a : Scan.Act ρ) (ha : a ∈ start'.acts way incidents') :
      ¬ a.IsCancelled := by
    rintro ⟨r, rfl⟩
    cases hpublished way r _ ha
  have hplanned' (way : Scan.Way) :
      (start'.acts way incidents').map Scan.Act.planned = start'.acts way incidents' := by
    refine (List.map_congr_left fun a ha => ?_).trans (List.map_id _)
    cases a with
    | asks | goesOn => rfl
    | reports r outcome =>
      obtain rfl := hpublished way r outcome ha
      rfl
  obtain ⟨hafter', hcourse'⟩ :=
    (hstart' ▸ abreast_start d plan b').after hbegun' hd hincidents' hok'
  simp only [Nat.zero_add, ← hw'] at hafter'
  obtain ⟨rfl, hunbroken', hdone'⟩ :=
    Scan.done_of_result? hresult fun way q hq => hafter'.result_eq_ok hd hq
  have hfailed (h : ∃ way, ∃ a ∈ start.acts way incidents, a.IsCancelled) :
      w.scan.result? = some (.error .cancelled) := by
    obtain ⟨way, a, ha, hcancelled⟩ := h
    rw [hw]
    exact hbegun.failed_after hincidents ha hcancelled
  -- the second scan is at its end, so the first one cannot be ahead of it
  have hbehind (hok : ∀ way, ∀ a ∈ start.acts way incidents, ¬ a.IsCancelled) :
      w.Abreast plan d (fun way => (start.acts way incidents).length) ∧ ∀ way,
        (start.acts way incidents).map Scan.Act.planned <+: start'.acts way incidents' := by
    obtain ⟨hafter, hcourse⟩ := (hstart ▸ abreast_start d plan b).after hbegun hd hincidents hok
    simp only [Nat.zero_add, ← hw] at hafter
    refine ⟨hafter, fun way => hplanned' way ▸ planned_isPrefix (hcourse way) (hcourse' way) ?_⟩
    exact length_le_of_course (hcourse way) (hafter'.course_eq_none (hdone' way))
  refine ⟨rfl, ?_, fun hok => ⟨(hbehind hok).2, fun hr => ?_⟩, hfailed,
    fun r hr => ⟨?_, fun hok => ?_⟩⟩
  · have hsent : Scan.Sent start.log (fun _ => []) start.log := ⟨[], by simp, fun _ => rfl⟩
    rw [hw]
    simpa only [List.nil_append] using sent_after hbegun (hstart ▸ apart_start ..) hincidents hsent
  · obtain ⟨hafter, hbefore⟩ := hbehind hok
    have hunbroken : w.scan.isBroken = false := by
      refine hafter.isBroken_eq_false hafter' (fun way => ?_) hunbroken'
      exact List.length_map _ ▸ (hbefore way).length_le
    have hlive := Scan.isOver_eq_false_iff.mpr ⟨hunbroken, hr⟩
    obtain ⟨way, hway⟩ := Scan.exists_undone hlive
    exact ⟨way, Scan.stepWay_isSome hlive hway⟩
  · rintro ⟨rfl, -⟩ way a ha hcancelled
    rw [hfailed ⟨way, a, ha, hcancelled⟩] at hr
    cases hr
  · obtain ⟨hafter, hbefore⟩ := hbehind hok
    obtain ⟨rfl, -, hdone⟩ := Scan.done_of_result? hr fun way q hq => hafter.result_eq_ok hd hq
    -- the first one is at its end, too, so it is not behind either
    have hsame (way : Scan.Way) :
        (start.acts way incidents).map Scan.Act.planned = start'.acts way incidents' := by
      refine (hbefore way).eq_of_length_le ?_
      rw [List.length_map]
      exact length_le_of_course (hcourse' way) (hafter.course_eq_none (hdone way))
    refine ⟨rfl, fun way => ?_⟩
    rw [calls, calls, tried, tried, ← hsame, List.filterMap_map, List.filterMap_map]
    refine ⟨congrArg (List.filterMap · _) ?_, congrArg (List.filterMap · _) ?_⟩
    · funext a
      cases a <;> rfl
    · funext a
      cases a <;> rfl

/-- Pages of one row: the first page of the base cannot be read, and of the first scan's reports the
first one is refused. -/
theorem undisturbed_iff_sample :
    let plan : Scan.Plan := .ofSide { batchSize := 1 } .src none .oneShot
    let d : Deployment Account :=
      { src :=
          (Store.ofTable "src" [⟨1, "ann", 10, 5⟩, ⟨2, "bob", 20, 6⟩, ⟨3, "cid", 30, 7⟩]).setScript
            "find_page" [some (.store "down")]
        dst := .ofTable "dst" [] }
    let scan (b : Broker) : Watch Account := { site := { d with broker := b }, scan := { plan } }
    let start := scan (({} : Broker).setScript .publish [some (.broker "down")])
    let incidents : List (Incident Account) :=
      List.replicate 2 (.turn .targetToBase 0) ++ List.replicate 16 (.turn .baseToTarget 0)
    (∀ side, (d.store side).Regular plan.callLimit) ∧ (∀ x ∈ incidents, x.Outside plan) ∧
      (∀ way r outcome, .reports r outcome ∈ (scan {}).acts way incidents → outcome = .ok ()) ∧
      ((scan {}).after incidents).scan.result? = some (.ok ()) ∧
      (start.after incidents).scan.result? = some (.ok ()) ∧
      (∀ way, start.calls way incidents = (scan {}).calls way incidents ∧
        start.tried way incidents = (scan {}).tried way incidents) ∧
      start.tried .baseToTarget incidents =
        [plan.report 2 .targetMissing, plan.report 3 .targetMissing] ∧
      (start.after incidents).log = [(plan.report 3 .targetMissing).encode] := by
  intro plan d scan start incidents
  have hd : ∀ side, (d.store side).Regular plan.callLimit
    | .src => by
      refine ⟨⟨Nat.zero_le _, fun op e he => ?_⟩, rfl⟩
      rw [show (d.store .src).script.getD op [] =
        if op = "find_page" then [some (.store "down")] else [] from Assoc.getD_put ..] at he
      split at he
      · cases List.mem_singleton.mp he
        rfl
      · cases he
    | .dst => ⟨⟨Nat.zero_le _, fun _ _ he => by cases he⟩, rfl⟩
  have hincidents : ∀ x ∈ incidents, x.Outside plan := by
    intro x hx
    simp only [incidents, List.mem_append, List.mem_replicate] at hx
    rcases hx with ⟨-, rfl⟩ | ⟨-, rfl⟩
    · trivial
    · trivial
  have hplanned : ∀ way, ∀ a ∈ (scan {}).acts way incidents, a.planned = a
    | .baseToTarget | .targetToBase => by decide +kernel
  have hpublished (way : Scan.Way) (r : Report) (outcome : Except Error Unit)
      (h : .reports r outcome ∈ (scan {}).acts way incidents) : outcome = .ok () := by
    have := hplanned way _ h
    simp only [Scan.Act.planned, Scan.Act.reports.injEq, true_and] at this
    exact this.symm
  have hok : ∀ way, ∀ a ∈ start.acts way incidents, ¬ a.IsCancelled
    | .baseToTarget | .targetToBase => by decide +kernel
  have hresult' : ((scan {}).after incidents).scan.result? = some (.ok ()) := by decide +kernel
  have hresult : (start.after incidents).scan.result? = some (.ok ()) := by decide +kernel
  obtain ⟨-, -, -, -, hend⟩ :=
    undisturbed_iff hd rfl rfl hincidents hincidents hpublished rfl rfl hresult'
  refine ⟨hd, hincidents, hpublished, hresult', hresult, ((hend _ hresult).mpr hok).2, ?_, ?_⟩
  · decide +kernel
  · decide +kernel

/-- The broker refuses the first of two reports with a word of cancellation, though nobody asks the
scan to stop: the scan fails, and does not try to publish the second one. -/
theorem cancelled_report_disturbs :
    let plan : Scan.Plan := .ofSide {} .src none .oneShot
    let d : Deployment Account := .ofRows [⟨1, "ann", 10, 5⟩, ⟨2, "bob", 20, 6⟩] [] .srcOnly
    let scan (b : Broker) : Watch Account := { site := { d with broker := b }, scan := { plan } }
    let start := scan (({} : Broker).setScript .publish [some .cancelled])
    let incidents : List (Incident Account) :=
      List.replicate 2 (.turn .targetToBase 0) ++ List.replicate 8 (.turn .baseToTarget 0)
    ((scan {}).after incidents).scan.result? = some (.ok ()) ∧
      (scan {}).published .baseToTarget incidents =
        [plan.report 1 .targetMissing, plan.report 2 .targetMissing] ∧
      (start.after incidents).scan.result? = some (.error .cancelled) ∧
      start.acts .baseToTarget incidents =
        [.asks .src (.findPage ⟨0, 100, none⟩), .goesOn, .asks .dst (.findByIds [1, 2]), .goesOn,
          .goesOn, .reports (plan.report 1 .targetMissing) (.error .cancelled)] ∧
      (start.after incidents).log = [] := by
  decide +kernel

end Watch

end Cutover
