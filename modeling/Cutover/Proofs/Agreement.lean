import Cutover.Proofs.Refusals

/-!
# Stores that agree

The calls of a direction have operations of their own (`Scan.Way.op`), and a store that refuses
calls only by their operation answers each direction as if the other one were not there. Stores that
agree on an operation cannot be told apart by its calls (`Store.AgreeOn`). Main statements: a call
to stores that agree on its operation comes to the same (`Store.Served.same`), and does not show in
the calls of other operations (`Store.Served.agreeOn`).
-/

namespace Cutover

variable {ρ : Type} [Entity ρ]

/-! ## Stores that refuse by operation -/

/-- A store that answers within a limit, and refuses calls as is planned for their operations, but
none with a word of cancellation. -/
structure Store.Regular (limit : Nat) (s : Store ρ) : Prop extends s.Mild limit where
  named : s.faults.armed.getD FaultPlan.anyOperation 0 = 0

/-- Stores that the calls of an operation cannot tell apart. -/
structure Store.AgreeOn (op : String) (s t : Store ρ) : Prop where
  name : t.name = s.name
  contents : t.contents = s.contents
  script : t.script.getD op [] = s.script.getD op []
  armed : t.faults.armed.getD op 0 = s.faults.armed.getD op 0

theorem FaultPlan.refusal?_of_named {f : FaultPlan} (h : f.armed.getD anyOperation 0 = 0)
    (op : String) :
    f.refusal? op = f.spend op := by
  unfold refusal?
  rw [spend_eq f anyOperation, if_pos h]
  cases f.spend op <;> rfl

omit [Entity ρ] in
theorem Call.op_ne_anyOperation (c : Call ρ) : c.op ≠ FaultPlan.anyOperation := by
  cases c <;> simp [op, FaultPlan.anyOperation]

namespace Store

variable {limit : Nat} {op : String} {s s' t : Store ρ} {c : Call ρ}

theorem AgreeOn.refl (op : String) (s : Store ρ) : s.AgreeOn op s := ⟨rfl, rfl, rfl, rfl⟩

theorem AgreeOn.symm (h : s.AgreeOn op t) : t.AgreeOn op s :=
  ⟨h.name.symm, h.contents.symm, h.script.symm, h.armed.symm⟩

theorem AgreeOn.trans (h : s.AgreeOn op s') (h' : s'.AgreeOn op t) : s.AgreeOn op t :=
  ⟨h'.name.trans h.name, h'.contents.trans h.contents, h'.script.trans h.script,
    h'.armed.trans h.armed⟩

theorem AgreeOn.start (h : s.AgreeOn c.op t) :
    (s.start c).1.AgreeOn c.op (t.start c).1 ∧ (t.start c).2.refused = (s.start c).2.refused := by
  unfold Store.start
  dsimp only
  rw [h.script]
  split
  · next hs => exact ⟨⟨h.name, h.contents, h.script, h.armed⟩, rfl⟩
  · refine ⟨⟨h.name, h.contents, ?_, h.armed⟩, rfl⟩
    rw [Assoc.getD_put, Assoc.getD_put, if_pos rfl, if_pos rfl]

/-- A call that starts does not show in the calls of other operations. -/
theorem agreeOn_start (hop : op ≠ c.op) (s : Store ρ) : s.AgreeOn op (s.start c).1 := by
  unfold Store.start
  dsimp only
  split
  · exact ⟨rfl, rfl, rfl, rfl⟩
  · exact ⟨rfl, rfl, (Assoc.getD_put ..).trans (if_neg hop), rfl⟩

theorem Regular.start (h : s.Regular limit) (c : Call ρ) : (s.start c).1.Regular limit := by
  refine ⟨(h.toMild.start c).1, ?_⟩
  unfold Store.start
  dsimp only
  split <;> exact h.named

theorem Regular.finish_eq (h : s.Regular limit) (c : Call ρ) :
    s.finish c = match s.faults.spend c.op with
      | some faults => (.error (FaultPlan.refusal s.name c.op), { s with faults })
      | none => ((s.contents.run c).1, { s with contents := (s.contents.run c).2 }) := by
  have hspend := FaultPlan.refusal?_of_named h.named c.op
  cases hs : s.faults.spend c.op <;> simp only [Store.finish, hspend, hs]

theorem Regular.finish (h : s.Regular limit) (c : Call ρ) : (s.finish c).2.Regular limit := by
  refine ⟨(h.toMild.finish c).1, ?_⟩
  rw [h.finish_eq, FaultPlan.spend_eq]
  split
  · next heq =>
    split at heq
    · cases heq
    · cases heq
      exact (Assoc.getD_put ..).trans ((if_neg (Ne.symm c.op_ne_anyOperation)).trans h.named)
  · exact h.named

theorem AgreeOn.finish (h : s.AgreeOn c.op t) (hs : s.Regular limit) (ht : t.Regular limit) :
    (t.finish c).1 = (s.finish c).1 ∧ (s.finish c).2.AgreeOn c.op (t.finish c).2 := by
  rw [hs.finish_eq, ht.finish_eq, FaultPlan.spend_eq, FaultPlan.spend_eq, h.armed]
  by_cases hzero : s.faults.armed.getD c.op 0 = 0
  · simp only [hzero, if_true, h.contents, true_and]
    exact ⟨h.name, rfl, h.script, h.armed⟩
  · simp only [hzero, if_false, h.name, true_and]
    refine ⟨rfl, h.contents, h.script, ?_⟩
    rw [Assoc.getD_put, Assoc.getD_put, if_pos rfl, if_pos rfl]

/-- A call that reads does not show in the calls of other operations when it ends. -/
theorem Regular.agreeOn_finish (h : s.Regular limit) (hop : op ≠ c.op)
    (hread : (s.contents.run c).2 = s.contents) : s.AgreeOn op (s.finish c).2 := by
  rw [h.finish_eq, FaultPlan.spend_eq]
  split
  · next heq =>
    split at heq
    · cases heq
    · cases heq
      exact ⟨rfl, rfl, rfl, (Assoc.getD_put ..).trans (if_neg hop)⟩
  · exact ⟨rfl, hread, rfl, rfl⟩

/-! ### What a call comes to -/

/-- What a move makes of a store and of a call to it that is answered in time. -/
inductive Served (s : Store ρ) (c : Call ρ) :
    Option Flight → Store ρ → Progress c.Answer → Prop where
  | begun {f} : f.Mild → f.refused = (s.start c).2.refused →
      Served s c none (s.start c).1 (.underway f)
  | refused {f e} : f.refused = some e → Served s c (some f) s (.answered (.error e))
  | finished {f} : f.refused = none → Served s c (some f) (s.finish c).2 (.answered (s.finish c).1)

variable {flight flight' : Option Flight} {p p' : Progress c.Answer}

theorem Served.regular (h : s.Served c flight t p) (hs : s.Regular limit) : t.Regular limit := by
  cases h with
  | begun => exact hs.start c
  | refused => exact hs
  | finished => exact hs.finish c

theorem Served.agreeOn (h : s.Served c flight t p) (hs : s.Regular limit) (hop : op ≠ c.op)
    (hread : (s.contents.run c).2 = s.contents) : s.AgreeOn op t := by
  cases h with
  | begun => exact agreeOn_start hop s
  | refused => exact .refl op s
  | finished => exact hs.agreeOn_finish hop hread

/-- An answer is no word of cancellation. -/
theorem Served.isCancellation (h : s.Served c flight t p) (hs : s.Regular limit)
    (hflight : ∀ f ∈ flight, f.Mild) {e : Error} (hp : p = .answered (.error e)) :
    e.isCancellation = false := by
  cases h with
  | begun => cases hp
  | @refused f e' hf =>
    cases hp
    exact (hflight f rfl).1 e hf
  | finished =>
    injection hp with hp
    exact (hs.toMild.finish c).2 e hp

/-- Progress that comes to the same, perhaps at another time. -/
inductive Same {α : Type} : Progress α → Progress α → Prop where
  | underway {f f' : Flight} : f'.refused = f.refused → Same (.underway f) (.underway f')
  | answered {r : Except Error α} : Same (.answered r) (.answered r)

/-- A call to stores that agree on its operation comes to the same. -/
theorem Served.same (h : s.Served c flight s' p) {t' : Store ρ} (h' : t.Served c flight' t' p')
    (hst : s.AgreeOn c.op t) (hs : s.Regular limit) (ht : t.Regular limit)
    (hflight : flight'.map Flight.refused = flight.map Flight.refused) :
    s'.AgreeOn c.op t' ∧ Same p p' := by
  cases h with
  | begun _ hf =>
    cases h' with
    | begun _ hf' => exact ⟨hst.start.1, .underway (by rw [hf', hf, hst.start.2])⟩
    | refused | finished => cases hflight
  | refused hf =>
    cases h' with
    | begun => cases hflight
    | refused hf' =>
      simp only [Option.map_some, hf, hf', Option.some_inj] at hflight
      exact ⟨hst, hflight ▸ .answered⟩
    | finished hf' => simp [hf, hf'] at hflight
  | finished hf =>
    cases h' with
    | begun => cases hflight
    | refused hf' => simp [hf, hf'] at hflight
    | finished =>
      obtain ⟨hanswer, hagree⟩ := hst.finish hs ht
      exact ⟨hagree, hanswer ▸ .answered⟩

end Store

namespace Deployment

/-- Stores that refuse calls by their operations only. -/
def Regular (limit : Nat) (d : Deployment ρ) : Prop := ∀ side, (d.store side).Regular limit

variable {limit : Nat} {d d' : Deployment ρ} {m : Moment} {side : Side} {c : Call ρ}
  {flight : Option Flight}

theorem Regular.setStore (h : d.Regular limit) {s : Store ρ} (hs : s.Regular limit) (side : Side) :
    (d.setStore s side).Regular limit := by
  intro other
  rw [store_setStore]
  split
  · exact hs
  · exact h other

theorem Regular.withBroker (h : d.Regular limit) (b : Broker) :
    ({ d with broker := b } : Deployment ρ).Regular limit := by
  intro side
  rw [store_withBroker]
  exact h side

theorem Regular.served (h : d.Regular limit) (hstop : m.stopped = false) {p : Progress c.Answer}
    (hflight : ∀ f ∈ flight, f.Mild) (hc : d.call m (some limit) side c flight = some (d', p)) :
    ∃ s, d' = d.setStore s side ∧ (d.store side).Served c flight s p := by
  obtain ⟨⟨s, q⟩, hstep, heq⟩ := Option.map_eq_some_iff.mp hc
  cases heq
  refine ⟨s, rfl, ?_⟩
  cases Flight.moved_of_step hstep with
  | stopped hstopped =>
    rw [hstop] at hstopped
    cases hstopped
  | started =>
    obtain ⟨-, hdelay, hrefused⟩ := (h side).toMild.start c
    refine .begun ⟨hrefused, fun t ht => ?_⟩ rfl
    cases ht
    exact Nat.add_le_add_left hdelay _
  | refused _ _ hf => exact .refused hf
  | finished _ _ hf => exact .finished hf
  | late _ hr hd =>
    rw [(hflight _ rfl).not_late hr] at hd
    cases hd

end Deployment

/-! ## Directions -/

namespace Scan

/-- The operation with which a direction calls a store. -/
def Way.op (plan : Plan) (way : Way) (side : Side) : String :=
  if side = plan.pages way then "find_page"
  else
    match way with
    | .baseToTarget => "find_by_ids"
    | .targetToBase => "find_ids"

/-- The directions call no store with the same operation. -/
theorem Way.op_ne {plan : Plan} {way other : Way} (h : other ≠ way) (side : Side) :
    other.op plan side ≠ way.op plan side := by
  have hbase := Side.other_ne plan.base
  cases way <;> cases other <;>
    simp only [ne_eq, not_true_eq_false, not_false_eq_true, reduceCtorEq] at h <;>
    simp only [op, Plan.pages, Comparison.target]
  all_goals
    by_cases hside : side = plan.base
    · simp [hside, hbase.symm]
    · by_cases hother : side = plan.base.other
      · simp [hother, hbase]
      · simp [hside, hother]

/-- Deployments that the calls of a direction cannot tell apart. -/
def Plan.AgreeOn (plan : Plan) (way : Way) (d e : Deployment ρ) : Prop :=
  ∀ side, (d.store side).AgreeOn (way.op plan side) (e.store side)

namespace Plan.AgreeOn

variable {plan : Plan} {way : Way} {d d' e : Deployment ρ}

theorem refl (plan : Plan) (way : Way) (d : Deployment ρ) : plan.AgreeOn way d d :=
  fun _ => .refl ..

theorem symm (h : plan.AgreeOn way d e) : plan.AgreeOn way e d := fun side => (h side).symm

theorem trans (h : plan.AgreeOn way d d') (h' : plan.AgreeOn way d' e) : plan.AgreeOn way d e :=
  fun side => (h side).trans (h' side)

theorem withBroker (h : plan.AgreeOn way d e) (b : Broker) :
    plan.AgreeOn way d { e with broker := b } := by
  intro side
  rw [Deployment.store_withBroker]
  exact h side

theorem setStore (h : plan.AgreeOn way d e) {side : Side} {s t : Store ρ}
    (hst : s.AgreeOn (way.op plan side) t) :
    plan.AgreeOn way (d.setStore s side) (e.setStore t side) := by
  intro other
  rw [Deployment.store_setStore, Deployment.store_setStore]
  split
  · next heq => rwa [heq]
  · exact h other

end Plan.AgreeOn

/-! ## Passes -/

namespace Pass

variable {plan : Plan} {m : Moment} {d d' : Deployment ρ} {p p' q : Pass ρ}

/-- The call that a pass makes to a store, and what the answer makes of the pass. -/
inductive Asks (plan : Plan) (p : Pass ρ) :
    (side : Side) → (c : Call ρ) → (Except Error c.Answer → Pass ρ) → Prop where
  | page : p.phase = .reading →
      Asks plan p (p.pageSide plan) (.findPage (p.pageQuery plan)) (p.afterPage plan)
  | rows {fetched page} : p.phase = .comparing fetched page → p.way = .baseToTarget →
      Asks plan p plan.target (.findByIds (page.map Entity.id))
        fun r => p.afterLookup plan fetched (r.map (baseMismatches page))
  | ids {fetched page} : p.phase = .comparing fetched page → p.way = .targetToBase →
      Asks plan p plan.base (.findIds (page.map Entity.id))
        fun r => p.afterLookup plan fetched (r.map (targetMismatches page))

theorem asks_cases (plan : Plan) (p : Pass ρ) : (∃ side c answer, p.Asks plan side c answer) ∨
    (∃ fetched id kind rest, p.phase = .reporting fetched id kind rest) ∨ p.phase = .pausing ∨
      ∃ r, p.phase = .done r := by
  cases hph : p.phase with
  | reading => exact .inl ⟨_, _, _, .page hph⟩
  | comparing fetched page =>
    cases hway : p.way with
    | baseToTarget => exact .inl ⟨_, _, _, .rows hph hway⟩
    | targetToBase => exact .inl ⟨_, _, _, .ids hph hway⟩
  | reporting fetched id kind rest => exact .inr (.inl ⟨_, _, _, _, rfl⟩)
  | pausing => exact .inr (.inr (.inl rfl))
  | done r => exact .inr (.inr (.inr ⟨r, rfl⟩))

section Asks

variable {side : Side} {c : Call ρ} {answer : Except Error c.Answer → Pass ρ}

theorem Asks.step (h : p.Asks plan side c answer) (m : Moment) (d : Deployment ρ) :
    p.step plan m d = (d.call m (some plan.callLimit) side c p.flight).map
      fun (d, progress) => (d, p.after answer progress) := by
  unfold Pass.step
  cases h with
  | page hph => simp only [hph]
  | rows hph hway | ids hph hway => simp only [hph, hway]

theorem Asks.op (h : p.Asks plan side c answer) : c.op = p.way.op plan side := by
  have hbase := Side.other_ne plan.base
  unfold Way.op
  cases h with
  | page =>
    rw [pageSide_eq, if_pos rfl]
    rfl
  | rows _ hway => simp [hway, Plan.pages, Comparison.target, hbase, Call.op]
  | ids _ hway => simp [hway, Plan.pages, Comparison.target, hbase.symm, Call.op]

theorem Asks.read (h : p.Asks plan side c answer) (s : Contents ρ) : (s.run c).2 = s := by
  cases h <;> rfl

theorem Asks.bears (h : p.Asks plan side c answer) {r : Except Error c.Answer}
    (hr : ∀ e, r = .error e → e.isCancellation = false) : (answer r).Bears := by
  cases h with
  | page => exact bears_afterPage hr
  | rows | ids =>
    refine bears_afterLookup fun e he => ?_
    cases r with
    | error e' =>
      cases he
      exact hr _ rfl
    | ok => cases he

theorem Asks.phase (h : p.Asks plan side c answer) :
    p.phase = .reading ∨ ∃ fetched page, p.phase = .comparing fetched page := by
  cases h with
  | page hph => exact .inl hph
  | rows hph | ids hph => exact .inr ⟨_, _, hph⟩

omit [Entity ρ] in
theorem reportAll_withFlight (plan : Plan) (p : Pass ρ) (flight : Option Flight) (fetched : Nat)
    (found : List (Int × Mismatch)) :
    ({ p with flight } : Pass ρ).reportAll plan fetched found = p.reportAll plan fetched found := by
  cases found <;> rfl

/-- What the answer makes of a pass does not depend on when it was asked for. -/
theorem Asks.withFlight (h : p.Asks plan side c answer) (flight : Option Flight) :
    ({ p with flight } : Pass ρ).Asks plan side c answer := by
  have hpage : ({ p with flight } : Pass ρ).afterPage plan = p.afterPage plan := by
    funext r
    cases r with
    | error e => rfl
    | ok rows =>
      unfold afterPage
      dsimp only
      split
      · exact reportAll_withFlight ..
      · rfl
  have hlookup (fetched : Nat) :
      ({ p with flight } : Pass ρ).afterLookup plan fetched = p.afterLookup plan fetched := by
    funext r
    cases r with
    | error e => rfl
    | ok found => exact reportAll_withFlight ..
  cases h with
  | page hph => exact hpage ▸ .page (p := { p with flight }) hph
  | rows hph hway =>
    have hrows : ({ p with flight } : Pass ρ).Asks plan _ _ _ := .rows hph hway
    rwa [hlookup] at hrows
  | ids hph hway =>
    have hids : ({ p with flight } : Pass ρ).Asks plan _ _ _ := .ids hph hway
    rwa [hlookup] at hids

end Asks

theorem step_reporting {fetched : Nat} {id : Int} {kind : Mismatch} {rest : List (Int × Mismatch)}
    (h : p.phase = .reporting fetched id kind rest) (m : Moment) (d : Deployment ρ) :
    p.step plan m d =
      (d.publish m (some plan.callLimit) plan.topic (plan.report id kind).encode p.flight).map
      fun (d, progress) => (d, p.after (p.afterReport plan fetched rest) progress) := by
  unfold Pass.step
  simp only [h]

theorem step_pausing (h : p.phase = .pausing) (m : Moment) (d : Deployment ρ) :
    p.step plan m d = (Flight.pause m (plan.mode.poll?.getD 0) p.flight).map
      fun progress => (d, p.after p.afterPause progress) := by
  unfold Pass.step
  simp only [h]

theorem step_done {r : Except Error Unit} (h : p.phase = .done r) (m : Moment) (d : Deployment ρ) :
    p.step plan m d = none := by
  unfold Pass.step
  simp only [h]

end Pass

end Scan

end Cutover
