import Cutover.Proofs.Replies

/-!
# Stores that refuse calls

Stores may refuse any call, as long as they do not say that the work was cancelled or took too long,
and answer or refuse each call within the limit of a call (`Deployment.Mild`); the broker publishes
whatever it is given. Then no pass fails: it leaves pages out, and sends what it finds on the
others. Main statement: `Scan.Pass.Bears.step`.
-/

namespace Cutover

variable {ρ : Type} [Entity ρ]

/-! ## Calls -/

/-- A call that will be answered, or refused without a word of cancellation, and not later than its
limit. -/
def Flight.Mild (f : Flight) : Prop :=
  (∀ e ∈ f.refused, e.isCancellation = false) ∧ ∀ t ∈ f.due, f.ready ≤ t

theorem Flight.Mild.not_late {f : Flight} (h : f.Mild) {now : Nat} (hr : now < f.ready) :
    f.isOverdue now = false :=
  Prompt.not_late (f := { f with refused := none }) ⟨rfl, h.2⟩ hr

/-- A store that may refuse calls, but none with a word of cancellation, and that answers within a
limit. -/
structure Store.Mild (limit : Nat) (s : Store ρ) : Prop where
  latency : s.faults.latency ≤ limit
  script : ∀ op e, some e ∈ s.script.getD op [] → e.isCancellation = false

namespace Store.Mild

variable {limit : Nat} {s : Store ρ}

theorem start (h : s.Mild limit) (c : Call ρ) :
    (s.start c).1.Mild limit ∧ (s.start c).2.delay ≤ limit ∧
      ∀ e ∈ (s.start c).2.refused, e.isCancellation = false := by
  unfold Store.start
  dsimp only
  split
  · exact ⟨⟨h.latency, h.script⟩, h.latency, by simp⟩
  · next first rest hscript =>
    refine ⟨⟨h.latency, fun op e he => ?_⟩, h.latency, fun e he => ?_⟩
    · rw [Assoc.getD_put] at he
      split at he
      · exact h.script c.op e (hscript ▸ List.mem_cons_of_mem _ he)
      · exact h.script op e he
    · obtain rfl : first = some e := he
      exact h.script c.op e (hscript ▸ List.mem_cons_self)

theorem finish (h : s.Mild limit) (c : Call ρ) :
    (s.finish c).2.Mild limit ∧ ∀ e, (s.finish c).1 = .error e → e.isCancellation = false := by
  unfold Store.finish
  split
  · next faults hfaults =>
    refine ⟨⟨?_, h.script⟩, fun e he => ?_⟩
    · rw [FaultPlan.eq_of_refusal? hfaults]
      exact h.latency
    · cases he
      rfl
  · refine ⟨⟨h.latency, h.script⟩, fun e he => ?_⟩
    cases c with
    | findPage | findByIds | findIds | count | upsert | delete => cases he
    | first id =>
      simp only [Contents.run] at he
      split at he
      · cases he
      · cases he
        rfl

end Store.Mild

/-- Stores that may refuse calls, but none with a word of cancellation, and a broker that publishes
whatever it is given; all of them answer within a limit. -/
structure Deployment.Mild (limit : Nat) (d : Deployment ρ) : Prop where
  stores : ∀ side, (d.store side).Mild limit
  broker : d.broker.Prompt limit

namespace Deployment.Mild

variable {limit : Nat} {d d' : Deployment ρ} {m : Moment} {flight : Option Flight}

theorem of_prompt (h : d.Prompt limit) : d.Mild limit := by
  refine ⟨fun side => ⟨(h.1 side).1.2, fun op e he => ?_⟩, h.2⟩
  rw [(h.1 side).2 op] at he
  cases he

theorem setStore (h : d.Mild limit) {s : Store ρ} (hs : s.Mild limit) (side : Side) :
    (d.setStore s side).Mild limit := by
  refine ⟨fun other => ?_, by simpa using h.broker⟩
  rw [store_setStore]
  split
  · exact hs
  · exact h.stores other

theorem withBroker (h : d.Mild limit) {b : Broker} (hb : b.Prompt limit) :
    ({ d with broker := b } : Deployment ρ).Mild limit :=
  ⟨fun side => by simpa using h.stores side, hb⟩

/-- A call that starts is going to be answered or refused in time, and an answer is no word of
cancellation. -/
theorem call (h : d.Mild limit) (hstop : m.stopped = false) {side : Side} {c : Call ρ}
    {p : Progress c.Answer} (hflight : ∀ f ∈ flight, f.Mild)
    (hc : d.call m (some limit) side c flight = some (d', p)) :
    d'.Mild limit ∧ (∀ f, p = .underway f → f.Mild) ∧
      ∀ e, p = .answered (.error e) → e.isCancellation = false := by
  obtain ⟨⟨s, q⟩, hstep, heq⟩ := Option.map_eq_some_iff.mp hc
  cases heq
  have hs := h.stores side
  cases Flight.moved_of_step hstep with
  | stopped hstopped =>
    rw [hstop] at hstopped
    cases hstopped
  | started =>
    obtain ⟨hs', hdelay, hrefused⟩ := hs.start c
    refine ⟨h.setStore hs' side, fun f hf => ?_, by simp⟩
    cases hf
    refine ⟨hrefused, fun t ht => ?_⟩
    cases ht
    exact Nat.add_le_add_left hdelay _
  | @refused f e _ _ hf =>
    refine ⟨h.setStore hs side, by simp, fun e' he => ?_⟩
    cases he
    exact (hflight f rfl).1 e hf
  | finished =>
    obtain ⟨hs', herror⟩ := hs.finish c
    refine ⟨h.setStore hs' side, by simp, fun e he => herror e ?_⟩
    injection he
  | late _ hr hd =>
    rw [(hflight _ rfl).not_late hr] at hd
    cases hd

/-- A message that starts is going to be published in time. -/
theorem publish (h : d.Mild limit) (hstop : m.stopped = false) {topic : String} {payload : Bytes}
    {p : Progress Unit} (hflight : ∀ f ∈ flight, f.Prompt)
    (hc : d.publish m (some limit) topic payload flight = some (d', p)) :
    d'.Mild limit ∧ (∀ f, p = .underway f → f.Prompt) ∧ ∀ r, p = .answered r → r = .ok () := by
  cases Deployment.posted_of_publish hc with
  | begun _ _ hp =>
    obtain ⟨hf, hb⟩ := hp limit (by simp) h.broker
    refine ⟨h.withBroker hb, fun f hf' => ?_, by simp⟩
    cases hf'
    exact hf
  | answered => exact ⟨h.withBroker h.broker, by simp, fun r hr => by cases hr; rfl⟩
  | failed _ hfine => exact absurd ⟨hstop, ⟨limit, h.broker⟩, hflight⟩ hfine

theorem setFaults (h : d.Mild limit) {faults : FaultPlan} (hf : faults.latency ≤ limit)
    (side : Side) :
    (d.setFaults side faults).Mild limit :=
  h.setStore (s := { d.store side with faults }) ⟨hf, (h.stores side).script⟩ side

theorem setBrokerFaults (h : d.Mild limit) {faults : FaultPlan} (hf : faults.Prompt limit) :
    (d.setBrokerFaults faults).Mild limit :=
  h.withBroker ⟨h.broker.1, hf, h.broker.2.2⟩

end Deployment.Mild

/-! ## Passes -/

namespace Scan.Pass

/-- Whether a pass gets on with whatever becomes of a call. It can do without what it asks a
store. -/
def Copes (p : Pass ρ) (f : Flight) : Prop :=
  match p.phase with
  | .reading | .comparing _ _ => f.Mild
  | .reporting _ _ _ _ | .pausing | .done _ => f.Prompt

/-- A pass that has not failed, and does not by the call that it waits for. -/
structure Bears (p : Pass ρ) : Prop where
  unfailed : ∀ e, p.phase ≠ .done (.error e)
  flight : ∀ f ∈ p.flight, p.Copes f

variable {plan : Plan} {m : Moment} {d d' : Deployment ρ} {p p' : Pass ρ}

omit [Entity ρ] in
theorem Bears.reports (h : p.Bears) {fetched : Nat} {id : Int} {kind : Mismatch}
    {rest : List (Int × Mismatch)} (hph : p.phase = .reporting fetched id kind rest) :
    ∀ f ∈ p.flight, f.Prompt := by
  intro f hf
  have := h.flight f hf
  rwa [Copes, hph] at this

omit [Entity ρ] in
theorem bears_enter (p : Pass ρ) {phase : Phase ρ} (h : ∀ e, phase ≠ .done (.error e)) :
    (p.enter phase).Bears :=
  ⟨h, by simp [enter]⟩

omit [Entity ρ] in
theorem bears_turn (plan : Plan) (p : Pass ρ) (fetched : Nat) : (p.turn plan fetched).Bears := by
  unfold turn
  cases plan.mode <;> split <;> exact bears_enter _ (by simp)

omit [Entity ρ] in
theorem bears_leaveOut {next : Pass ρ → Pass ρ} (h : ∀ q, (next q).Bears) :
    (p.leaveOut plan next).Bears := by
  unfold leaveOut
  dsimp only
  split
  · exact bears_enter _ (by simp)
  · exact h _

omit [Entity ρ] in
theorem bears_reportAll (plan : Plan) (p : Pass ρ) (fetched : Nat) (found : List (Int × Mismatch)) :
    (p.reportAll plan fetched found).Bears := by
  cases found with
  | nil => exact bears_turn plan { p with failures := 0 } fetched
  | cons x rest => exact bears_enter p (by simp)

theorem bears_afterPage {r : Except Error (List ρ)}
    (h : ∀ e, r = .error e → e.isCancellation = false) :
    (p.afterPage plan r).Bears := by
  cases r with
  | error e =>
    rw [afterPage, h e rfl]
    exact bears_leaveOut fun q => bears_enter _ (by simp)
  | ok rows =>
    unfold afterPage
    dsimp only
    split
    · exact bears_reportAll ..
    · exact bears_enter p (by simp)

omit [Entity ρ] in
theorem bears_afterLookup {fetched : Nat} {r : Except Error (List (Int × Mismatch))}
    (h : ∀ e, r = .error e → e.isCancellation = false) : (p.afterLookup plan fetched r).Bears := by
  cases r with
  | error e =>
    rw [afterLookup, h e rfl]
    exact bears_leaveOut fun q => bears_turn plan q fetched
  | ok found => exact bears_reportAll ..

theorem Bears.isCancellation_of_page {e : Error} (h : (p.afterPage plan (.error e)).Bears) :
    e.isCancellation = false := by
  cases he : e.isCancellation with
  | false => rfl
  | true =>
    rw [afterPage, he] at h
    exact absurd rfl (h.unfailed e)

omit [Entity ρ] in
theorem Bears.isCancellation_of_lookup {e : Error} {fetched : Nat}
    (h : (p.afterLookup plan fetched (.error e)).Bears) : e.isCancellation = false := by
  cases he : e.isCancellation with
  | false => rfl
  | true =>
    rw [afterLookup, he] at h
    exact absurd rfl (h.unfailed e)

omit [Entity ρ] in
theorem bears_after {α : Type} {answer : Except Error α → Pass ρ} {progress : Progress α}
    (hunderway : ∀ f, progress = .underway f → ({ p with flight := some f } : Pass ρ).Bears)
    (hanswer : ∀ r, progress = .answered r → (answer r).Bears) :
    (p.after answer progress).Bears := by
  cases progress with
  | underway f => exact hunderway f rfl
  | answered r => exact hanswer r rfl

/-- A move of a pass that nobody asks to stop does not make it fail. -/
theorem Bears.step (h : p.Bears) (hstop : m.stopped = false) (hd : d.Mild plan.callLimit)
    (hm : p.step plan m d = some (d', p')) : d'.Mild plan.callLimit ∧ p'.Bears := by
  obtain ⟨hunfailed, hflight⟩ := h
  have hwaits {f : Flight} (hf : p.Copes f) : ({ p with flight := some f } : Pass ρ).Bears := by
    refine ⟨hunfailed, fun g hg => ?_⟩
    cases hg
    exact hf
  have hmap {α : Type} {r : Except Error α} {φ : α → List (Int × Mismatch)}
      (hr : ∀ e, r = .error e → e.isCancellation = false) (e : Error) (he : r.map φ = .error e) :
      e.isCancellation = false := by
    cases r with
    | error => cases he; exact hr _ rfl
    | ok => cases he
  unfold Pass.step at hm
  cases hph : p.phase with
  | reading =>
    have hkind (f : Flight) : p.Copes f ↔ f.Mild := by rw [Copes, hph]
    simp only [hph] at hm
    simp only [hkind] at hflight hwaits
    obtain ⟨⟨e, progress⟩, hc, heq⟩ := Option.map_eq_some_iff.mp hm
    cases heq
    obtain ⟨hd', hunderway, hanswer⟩ := hd.call hstop hflight hc
    refine ⟨hd', bears_after (fun f hf => hwaits (hunderway f hf)) fun r hr => bears_afterPage ?_⟩
    exact fun e he => hanswer e (hr.trans (congrArg _ he))
  | comparing fetched page =>
    have hkind (f : Flight) : p.Copes f ↔ f.Mild := by rw [Copes, hph]
    simp only [hph] at hm
    simp only [hkind] at hflight hwaits
    cases hw : p.way with
    | baseToTarget | targetToBase =>
      simp only [hw] at hm
      obtain ⟨⟨e, progress⟩, hc, heq⟩ := Option.map_eq_some_iff.mp hm
      cases heq
      obtain ⟨hd', hunderway, hanswer⟩ := hd.call hstop hflight hc
      refine ⟨hd', bears_after (fun f hf => hwaits (hunderway f hf)) fun r hr =>
        bears_afterLookup (hmap ?_)⟩
      exact fun e he => hanswer e (hr.trans (congrArg _ he))
  | reporting fetched id kind rest =>
    have hkind (f : Flight) : p.Copes f ↔ f.Prompt := by rw [Copes, hph]
    simp only [hph] at hm
    simp only [hkind] at hflight hwaits
    obtain ⟨⟨e, progress⟩, hc, heq⟩ := Option.map_eq_some_iff.mp hm
    cases heq
    obtain ⟨hd', hunderway, hanswer⟩ := hd.publish hstop hflight hc
    refine ⟨hd', bears_after (fun f hf => hwaits (hunderway f hf)) fun r hr => ?_⟩
    obtain rfl := hanswer r hr
    exact bears_reportAll ..
  | pausing =>
    have hkind (f : Flight) : p.Copes f ↔ f.Prompt := by rw [Copes, hph]
    simp only [hph] at hm
    simp only [hkind] at hflight hwaits
    obtain ⟨progress, hc, heq⟩ := Option.map_eq_some_iff.mp hm
    cases heq
    obtain ⟨⟨_, q⟩, hstep, rfl⟩ := Option.map_eq_some_iff.mp hc
    generalize hfl : p.flight = flight at hstep hflight
    refine ⟨hd, ?_⟩
    cases Flight.moved_of_step hstep with
    | stopped hs =>
      rw [hstop] at hs
      cases hs
    | started =>
      refine hwaits ⟨rfl, fun t ht => ?_⟩
      cases ht
    | @refused f e _ _ hf =>
      rw [(hflight f rfl).1] at hf
      cases hf
    | @late f _ hr hdue =>
      rw [(hflight f rfl).not_late hr] at hdue
      cases hdue
    | finished => exact bears_enter p (by simp)
  | done r =>
    simp only [hph] at hm
    cases hm

end Scan.Pass

end Cutover
