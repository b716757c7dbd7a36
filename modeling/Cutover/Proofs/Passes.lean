import Cutover.Proofs.Calls
import Cutover.Scan

/-!
# What a pass can do

`Scan.Pass.Moved` names the moves of a pass: a call begins, a page comes, the rows of a page are
compared, a mismatch is reported, a pause ends, or a call fails. No move changes the rows of a
store, and only a report changes a log.
-/

namespace Cutover

variable {ρ : Type} [Entity ρ]

/-- A deployment with the same rows, logs, offsets and policy. -/
structure Deployment.Alike (d d' : Deployment ρ) : Prop where
  stores : ∀ side, (d.store side).Alike (d'.store side)
  broker : d.broker.Alike d'.broker
  policy : d'.policy = d.policy

namespace Deployment.Alike

theorem refl (d : Deployment ρ) : d.Alike d := ⟨fun _ => .refl _, .refl _, rfl⟩

theorem contents {d d' : Deployment ρ} (h : d.Alike d') (side : Side) :
    (d'.store side).contents = (d.store side).contents := (h.stores side).contents

theorem setStore {d : Deployment ρ} {s : Store ρ} {side : Side} (h : (d.store side).Alike s) :
    d.Alike (d.setStore s side) := by
  refine ⟨fun other => ?_, ?_, by simp⟩
  · rw [store_setStore]
    split
    · next heq => rwa [heq]
    · exact .refl _
  · rw [broker_setStore]
    exact .refl _

theorem withBroker {d : Deployment ρ} {b : Broker} (h : d.broker.Alike b) :
    d.Alike { d with broker := b } :=
  ⟨fun side => by cases side <;> exact .refl _, h, rfl⟩

end Deployment.Alike

namespace Scan

/-- The mismatches of a page, with the rows in which it is looked up. -/
def Way.mismatches (way : Way) (page rows : List ρ) : List (Int × Mismatch) :=
  match way with
  | .baseToTarget => baseMismatches page (Rows.ofIds (page.map Entity.id) rows)
  | .targetToBase => targetMismatches page ((Rows.ofIds (page.map Entity.id) rows).map Entity.id)

namespace Pass

/-- The side in which the rows of a page are looked up. -/
def lookupSide (plan : Plan) (p : Pass ρ) : Side := (p.pageSide plan).other

/-- The offset from which a pass goes on when it is through with its page. -/
def next (p : Pass ρ) : Nat :=
  match p.phase with
  | .comparing fetched _ | .reporting fetched _ _ _ => p.offset + fetched
  | .reading | .pausing | .done _ => p.offset

omit [Entity ρ] in
theorem offset_le_next (p : Pass ρ) : p.offset ≤ p.next := by
  unfold next
  split <;> omega

/-- What a failed call makes of a pass. -/
def fail (plan : Plan) (p : Pass ρ) (e : Error) : Pass ρ :=
  match p.phase with
  | .reading => afterPage plan p (.error e)
  | .comparing fetched _ => afterLookup plan p fetched (.error e)
  | .reporting fetched _ _ rest => afterReport plan p fetched rest (.error e)
  | .pausing => afterPause p (.error e)
  | .done _ => p

/-- What a move makes of a deployment and a pass. -/
inductive Moved (plan : Plan) (m : Moment) (d : Deployment ρ) (p : Pass ρ) :
    Deployment ρ → Pass ρ → Prop where
  | begun {d' f} : (∀ r, p.phase ≠ .done r) → m.stopped = false → p.flight = none → d.Alike d' →
      (∀ l ≤ plan.callLimit, d.Prompt l → f.Prompt ∧ d'.Prompt l) →
      Moved plan m d p d' { p with flight := some f }
  | paged {d' f} : p.phase = .reading → p.flight = some f → d.Alike d' →
      (∀ l, d.Prompt l → d'.Prompt l) →
      Moved plan m d p d'
        (afterPage plan p (.ok (Rows.page (p.pageQuery plan) (d.store (p.pageSide plan)).rows)))
  | compared {d' f fetched page} : p.phase = .comparing fetched page → p.flight = some f →
      d.Alike d' → (∀ l, d.Prompt l → d'.Prompt l) →
      Moved plan m d p d'
        (afterLookup plan p fetched
          (.ok (p.way.mismatches page (d.store (p.lookupSide plan)).rows)))
  | reported {f fetched id kind rest} : p.phase = .reporting fetched id kind rest →
      p.flight = some f →
      Moved plan m d p
        { d with broker := d.broker.append plan.topic (plan.report id kind).encode }
        (afterReport plan p fetched rest (.ok ()))
  | rested : p.phase = .pausing → Moved plan m d p d (afterPause p (.ok ()))
  | failed {d' e} : (∀ r, p.phase ≠ .done r) → d.Alike d' →
      ¬ (m.stopped = false ∧ (∃ l, d.Prompt l) ∧ ∀ f ∈ p.flight, f.Prompt) →
      Moved plan m d p d' (p.fail plan e)

section Inversion

variable {plan : Plan} {m : Moment} {d d' : Deployment ρ} {p p' : Pass ρ}

private theorem moved_of_called {side : Side} {c : Call ρ} {progress : Progress c.Answer}
    {answer : Except Error c.Answer → Pass ρ} (hdone : ∀ r, p.phase ≠ .done r)
    (hread : ∀ s : Contents ρ, (s.run c).2 = s) (hfail : ∀ e, answer (.error e) = p.fail plan e)
    (hanswer : ∀ f d', p.flight = some f → d.Alike d' → (∀ l, d.Prompt l → d'.Prompt l) →
      Moved plan m d p d' (answer ((d.store side).contents.run c).1))
    (h : Deployment.Called d m (some plan.callLimit) side c p.flight d' progress) :
    Moved plan m d p d' (p.after answer progress) := by
  generalize hfl : p.flight = flight at h
  cases h with
  | begun hs hc _ hp =>
    exact .begun hdone hs hfl (.setStore hc) fun l hl hd =>
      have ⟨hf, hs⟩ := hp l (by simpa using hl) (hd.1 side)
      ⟨hf, hd.setStore hs side⟩
  | answered hs hr hc hplain hp =>
    rw [hread] at hc
    exact hanswer _ _ hfl (.setStore ⟨hc, hplain⟩) fun l hd => hd.setStore (hp l (hd.1 side)) side
  | failed hc _ hfine =>
    rw [after, hfail]
    exact .failed hdone (.setStore hc) fun ⟨hs, ⟨l, hd⟩, hf⟩ =>
      hfine ⟨hs, ⟨l, hd.1 side⟩, hfl ▸ hf⟩

theorem moved_of_step (h : p.step plan m d = some (d', p')) : Moved plan m d p d' p' := by
  unfold step at h
  cases hph : p.phase with
  | reading =>
    simp only [hph] at h
    obtain ⟨⟨e, progress⟩, hc, heq⟩ := Option.map_eq_some_iff.mp h
    cases heq
    refine moved_of_called (by simp [hph]) (fun _ => rfl) (fun e => by simp [fail, hph]) ?_
      (Deployment.called_of_call hc)
    exact fun f d' hf ha hp => .paged hph hf ha hp
  | comparing fetched page =>
    simp only [hph] at h
    cases hw : p.way with
    | baseToTarget =>
      simp only [hw] at h
      obtain ⟨⟨e, progress⟩, hc, heq⟩ := Option.map_eq_some_iff.mp h
      cases heq
      refine moved_of_called (by simp [hph]) (fun _ => rfl)
        (fun e => by simp [fail, hph, Except.map]) ?_ (Deployment.called_of_call hc)
      intro f d' hf ha hp
      have : Moved plan m d p d' _ := .compared hph hf ha hp
      rwa [hw, lookupSide, pageSide, hw] at this
    | targetToBase =>
      simp only [hw] at h
      obtain ⟨⟨e, progress⟩, hc, heq⟩ := Option.map_eq_some_iff.mp h
      cases heq
      refine moved_of_called (by simp [hph]) (fun _ => rfl)
        (fun e => by simp [fail, hph, Except.map]) ?_ (Deployment.called_of_call hc)
      intro f d' hf ha hp
      have : Moved plan m d p d' _ := .compared hph hf ha hp
      rw [Contents.run_findIds]
      rwa [hw, lookupSide, pageSide, hw, Comparison.target, Side.other_other] at this
  | reporting fetched id kind rest =>
    simp only [hph] at h
    obtain ⟨⟨e, progress⟩, hc, heq⟩ := Option.map_eq_some_iff.mp h
    cases heq
    generalize hfl : p.flight = flight at hc
    cases Deployment.posted_of_publish hc with
    | begun hs ha hp =>
      exact .begun (by simp [hph]) hs hfl (.withBroker ha) fun l hl hd =>
        have ⟨hf, hb⟩ := hp l (by simpa using hl) hd.2
        ⟨hf, fun side => by simpa using hd.1 side, hb⟩
    | answered hs hr => exact .reported hph hfl
    | failed ha hfine =>
      rename_i b err
      have : p.after (afterReport plan p fetched rest) (.answered (.error err)) =
          p.fail plan err := by simp [after, fail, hph]
      rw [this]
      exact .failed (by simp [hph]) (.withBroker ha) fun ⟨hs, ⟨l, hd⟩, hf⟩ =>
        hfine ⟨hs, ⟨l, hd.2⟩, hfl ▸ hf⟩
  | pausing =>
    simp only [hph] at h
    obtain ⟨progress, hc, heq⟩ := Option.map_eq_some_iff.mp h
    cases heq
    obtain ⟨⟨_, q⟩, hstep, rfl⟩ := Option.map_eq_some_iff.mp hc
    have hfail (e : Error) : p.after (afterPause p) (.answered (.error e)) = p.fail plan e := by
      simp [after, fail, hph]
    generalize hfl : p.flight = flight at hstep
    cases Flight.moved_of_step hstep with
    | stopped hs =>
      rw [hfail]
      refine .failed (by simp [hph]) (.refl _) fun hfine => ?_
      simp [hs] at hfine
    | started hs =>
      refine .begun (by simp [hph]) hs hfl (.refl _) fun l _ hd => ⟨⟨rfl, ?_⟩, hd⟩
      intro t ht
      cases ht
    | refused hs hr hf =>
      rw [hfail]
      refine .failed (by simp [hph]) (.refl _) fun ⟨_, _, hfine⟩ => ?_
      simp [(hfine _ hfl).1] at hf
    | late hs hr hd =>
      rw [hfail]
      refine .failed (by simp [hph]) (.refl _) fun ⟨_, _, hfine⟩ => ?_
      simp [(hfine _ hfl).not_late hr] at hd
    | finished hs hr hf => exact .rested hph
  | done r =>
    simp only [hph] at h
    cases h

/-- A pass that has not ended moves once the delay of its call is over. -/
theorem step_isSome (hdone : ∀ r, p.phase ≠ .done r) (hr : ∀ f ∈ p.flight, f.ready ≤ m.now) :
    (p.step plan m d).isSome := by
  unfold step
  cases hph : p.phase with
  | reading => simpa using Deployment.call_isSome hr
  | comparing fetched page =>
    cases hw : p.way with
    | baseToTarget => simpa using Deployment.call_isSome hr
    | targetToBase => simpa using Deployment.call_isSome hr
  | reporting fetched id kind rest => simpa using Deployment.publish_isSome hr
  | pausing =>
    simp only [Flight.pause, Option.isSome_map]
    rw [Option.isSome_iff_ne_none]
    intro hn
    obtain ⟨-, f, hf, hlt, -⟩ := Flight.step_eq_none_iff.mp hn
    exact absurd (hr f hf) (Nat.not_le.mpr hlt)
  | done r => exact absurd hph (hdone r)

end Inversion

/-- No move of a pass changes the rows of a store. -/
theorem Moved.contents {plan : Plan} {m : Moment} {d d' : Deployment ρ} {p p' : Pass ρ}
    (h : Moved plan m d p d' p') (side : Side) :
    (d'.store side).contents = (d.store side).contents := by
  cases h with
  | begun _ _ _ ha => exact ha.contents side
  | paged _ _ ha => exact ha.contents side
  | compared _ _ ha => exact ha.contents side
  | reported => simp
  | rested => rfl
  | failed _ ha => exact ha.contents side

/-! ### Offsets -/

section Offset

variable {plan : Plan} {p p' : Pass ρ}

omit [Entity ρ] in
theorem offset_turn (plan : Plan) (p : Pass ρ) (fetched : Nat) :
    (p.turn plan fetched).offset = p.offset + fetched := by
  unfold turn
  cases plan.mode <;> split <;> rfl

omit [Entity ρ] in
theorem offset_le_reportAll (plan : Plan) (p : Pass ρ) (fetched : Nat)
    (found : List (Int × Mismatch)) : p.offset ≤ (p.reportAll plan fetched found).offset := by
  cases found with
  | nil => exact Nat.le.intro (offset_turn plan { p with failures := 0 } fetched).symm
  | cons x rest => exact Nat.le_refl _

omit [Entity ρ] in
theorem offset_le_leaveOut {next : Pass ρ → Pass ρ}
    (h : ∀ q : Pass ρ, q.offset = p.offset → p.offset ≤ (next q).offset) :
    p.offset ≤ (p.leaveOut plan next).offset := by
  unfold leaveOut
  dsimp only
  split
  · exact Nat.le_refl _
  · exact h _ rfl

theorem offset_le_fail (plan : Plan) (p : Pass ρ) (e : Error) :
    p.offset ≤ (p.fail plan e).offset := by
  unfold fail
  split
  · unfold afterPage
    dsimp only
    split
    · exact Nat.le_refl _
    · exact offset_le_leaveOut fun q hq => hq ▸ Nat.le_add_right q.offset plan.batch
  · unfold afterLookup
    dsimp only
    split
    · exact Nat.le_refl _
    · exact offset_le_leaveOut fun q hq => hq ▸ Nat.le.intro (offset_turn plan q _).symm
  · unfold afterReport
    split
    · exact Nat.le_refl _
    · exact offset_le_reportAll ..
  · exact Nat.le_refl _
  · exact Nat.le_refl _

/-- No move takes a pass back. -/
theorem Moved.offset_le {m : Moment} {d d' : Deployment ρ} (h : Moved plan m d p d' p') :
    p.offset ≤ p'.offset := by
  cases h with
  | begun | rested => exact Nat.le_refl _
  | paged =>
    unfold afterPage
    dsimp only
    split
    · exact offset_le_reportAll ..
    · exact Nat.le_refl _
  | compared | reported => exact offset_le_reportAll ..
  | failed => exact offset_le_fail ..

end Offset

/-! ### What a pass has in hand -/

/-- The rows of the page that a pass compares are as `P` says, and what it has to report is as `Q`
says. -/
def Carries (P : ρ → Prop) (Q : Int × Mismatch → Prop) (p : Pass ρ) : Prop :=
  match p.phase with
  | .comparing _ page => ∀ r ∈ page, P r
  | .reporting _ id kind rest => Q (id, kind) ∧ ∀ x ∈ rest, Q x
  | _ => True

section Carries

variable {plan : Plan} {P P' : ρ → Prop} {Q Q' : Int × Mismatch → Prop} {p p' : Pass ρ}

omit [Entity ρ] in
theorem Carries.mono (h : p.Carries P Q) (hP : ∀ r, P r → P' r) (hQ : ∀ x, Q x → Q' x) :
    p.Carries P' Q' := by
  unfold Carries at h ⊢
  split
  · next hph =>
    simp only [hph] at h
    exact fun r hr => hP r (h r hr)
  · next hph =>
    simp only [hph] at h
    exact ⟨hQ _ h.1, fun x hx => hQ x (h.2 x hx)⟩
  · trivial

omit [Entity ρ] in
theorem carries_turn (plan : Plan) (p : Pass ρ) (n : Nat) :
    (p.turn plan n).way = p.way ∧ (p.turn plan n).Carries P Q := by
  unfold turn
  cases plan.mode <;> split <;> exact ⟨rfl, trivial⟩

omit [Entity ρ] in
theorem carries_leaveOut {next : Pass ρ → Pass ρ}
    (h : ∀ q, q.way = p.way → (next q).way = p.way ∧ (next q).Carries P Q) :
    (p.leaveOut plan next).way = p.way ∧ (p.leaveOut plan next).Carries P Q := by
  unfold leaveOut
  dsimp only
  split
  · exact ⟨rfl, trivial⟩
  · exact h _ rfl

omit [Entity ρ] in
theorem carries_reportAll {n : Nat} {found : List (Int × Mismatch)} (h : ∀ x ∈ found, Q x) :
    (p.reportAll plan n found).way = p.way ∧ (p.reportAll plan n found).Carries P Q := by
  cases found with
  | nil => exact carries_turn plan _ n
  | cons x rest => exact ⟨rfl, List.forall_mem_cons.mp h⟩

theorem Carries.fail (h : p.Carries P Q) (plan : Plan) (e : Error) :
    (p.fail plan e).way = p.way ∧ (p.fail plan e).Carries P Q := by
  unfold Pass.fail
  unfold Carries at h
  split
  · unfold afterPage
    dsimp only
    split
    · exact ⟨rfl, trivial⟩
    · exact carries_leaveOut fun q hq => ⟨hq, trivial⟩
  · unfold afterLookup
    dsimp only
    split
    · exact ⟨rfl, trivial⟩
    · exact carries_leaveOut fun q hq => hq ▸ carries_turn plan q _
  · next hph =>
    rw [hph] at h
    unfold afterReport
    split
    · exact ⟨rfl, trivial⟩
    · exact carries_reportAll h.2
  · exact ⟨rfl, trivial⟩
  · next hph => exact ⟨rfl, by simp only [Carries, hph]⟩

theorem dedup_subset (rows : List ρ) : dedup rows ⊆ rows := by
  induction rows with
  | nil => exact List.Subset.refl _
  | cons r rest ih =>
    intro s hs
    rcases List.mem_cons.mp hs with rfl | hs
    · exact List.mem_cons_self
    · exact List.mem_cons_of_mem _ (ih (List.mem_filter.mp hs).1)

/-- A pass that reads rows as `P` says and finds mismatches as `Q` says has nothing else in hand. -/
theorem Carries.move {m : Moment} {d d' : Deployment ρ} (h : p.Carries P Q)
    (hpage : ∀ r ∈ (d.store (p.pageSide plan)).rows, P r)
    (hfound : ∀ page, (∀ r ∈ page, P r) →
      ∀ x ∈ p.way.mismatches page (d.store (p.lookupSide plan)).rows, Q x)
    (hm : Moved plan m d p d' p') : p'.way = p.way ∧ p'.Carries P Q := by
  cases hm with
  | begun => exact ⟨rfl, h⟩
  | paged =>
    simp only [afterPage]
    split
    · exact carries_turn plan { p with failures := 0 } _
    · next r page heq =>
      refine ⟨rfl, fun s hs => hpage s ?_⟩
      have hmem := dedup_subset _ (heq ▸ hs)
      exact (List.mem_filter.mp (List.mem_of_mem_drop (List.mem_of_mem_take hmem))).1
  | compared hph =>
    rw [Carries, hph] at h
    exact carries_reportAll (hfound _ h)
  | reported hph =>
    rw [Carries, hph] at h
    exact carries_reportAll h.2
  | rested => exact ⟨rfl, trivial⟩
  | failed => exact h.fail plan _

/-- A pass changes nothing but what is published, which is what it has to report. -/
theorem Carries.publishes {m : Moment} {d d' : Deployment ρ} (h : p.Carries P Q)
    (hm : Moved plan m d p d' p') :
    d.Alike d' ∨ ∃ id kind, Q (id, kind) ∧
      d' = { d with broker := d.broker.append plan.topic (plan.report id kind).encode } := by
  cases hm with
  | begun _ _ _ ha | paged _ _ ha | compared _ _ ha | failed _ ha => exact .inl ha
  | reported hph =>
    rw [Carries, hph] at h
    exact .inr ⟨_, _, h.1, rfl⟩
  | rested => exact .inl (.refl _)

end Carries

end Pass

/-! ## Scans -/

omit [Entity ρ] in
@[simp] theorem plan_setPass (s : Scan ρ) (p : Pass ρ) (way : Way) :
    (s.setPass p way).plan = s.plan := by cases way <;> rfl

omit [Entity ρ] in
@[simp] theorem pass_setPass (s : Scan ρ) (p : Pass ρ) (way other : Way) :
    (s.setPass p way).pass other = if other = way then p else s.pass other := by
  cases way <;> cases other <;> rfl

omit [Entity ρ] in
theorem Pass.phase_of_result? {p : Pass ρ} {r : Except Error Unit} (h : p.result? = some r) :
    p.phase = .done r := by
  unfold Pass.result? at h
  split at h
  · next hph => cases h; exact hph
  · cases h

omit [Entity ρ] in
theorem Pass.isBroken_eq_false_iff {p : Pass ρ} : p.isBroken = false ↔ p.offset < UInt64.size := by
  rw [isBroken, decide_eq_false_iff_not, Nat.not_le]

omit [Entity ρ] in
theorem isBroken_eq_false_iff {s : Scan ρ} :
    s.isBroken = false ↔ ∀ way, (s.pass way).isBroken = false := by
  rw [isBroken, Bool.or_eq_false_iff]
  refine ⟨fun h way => ?_, fun h => ⟨h .baseToTarget, h .targetToBase⟩⟩
  cases way with
  | baseToTarget => exact h.1
  | targetToBase => exact h.2

omit [Entity ρ] in
theorem isOver_eq_false_iff {s : Scan ρ} :
    s.isOver = false ↔ s.isBroken = false ∧ s.result? = none := by
  simp [isOver]

omit [Entity ρ] in
theorem isOver_of_result? {s : Scan ρ} {r : Except Error Unit} (h : s.result? = some r) :
    s.isOver = true := by simp [isOver, h]

omit [Entity ρ] in
/-- A scan that is over has a result, unless it has broken down. -/
theorem exists_result_of_isOver {s : Scan ρ} (h : s.isOver = true) (hbroken : s.isBroken = false) :
    ∃ r, s.result? = some r := by
  rw [isOver, hbroken, Bool.false_or] at h
  exact Option.isSome_iff_exists.mp h

omit [Entity ρ] in
/-- A scan of which no pass has come to its end has no result. -/
theorem result?_eq_none {s : Scan ρ} (h : ∀ way, (s.pass way).result? = none) :
    s.result? = none := by
  have hforth : s.forth.result? = none := h .baseToTarget
  have hback : s.back.result? = none := h .targetToBase
  rw [result?, hforth, hback]

omit [Entity ρ] in
/-- A scan that goes on has a pass that goes on. -/
theorem exists_undone {s : Scan ρ} (h : s.isOver = false) :
    ∃ way, (s.pass way).result? = none := by
  obtain ⟨hbroken, h⟩ := isOver_eq_false_iff.mp h
  unfold result? at h
  split at h
  · cases h
  · cases h
  · simp [hbroken] at h
  · next hforth hback hok =>
    cases hf : s.forth.result? with
    | none => exact ⟨.baseToTarget, hf⟩
    | some r =>
      cases hb : s.back.result? with
      | none => exact ⟨.targetToBase, hb⟩
      | some q =>
        cases r with
        | error e => exact absurd hf (hforth e)
        | ok _ =>
          cases q with
          | error e => exact absurd hb (hback e)
          | ok _ => exact absurd hb (hok hf)

omit [Entity ρ] in
theorem done_of_result? {s : Scan ρ} {r : Except Error Unit} (h : s.result? = some r)
    (hok : ∀ way q, (s.pass way).result? = some q → q = .ok ()) :
    r = .ok () ∧ s.isBroken = false ∧ ∀ way, (s.pass way).result? = some (.ok ()) := by
  unfold result? at h
  split at h
  · next hf => cases hok .baseToTarget _ hf
  · next hb _ => cases hok .targetToBase _ hb
  · next hf hb =>
    split at h
    · cases h
    · next hbroken =>
      cases h
      refine ⟨rfl, by simpa using hbroken, fun way => ?_⟩
      cases way with
      | baseToTarget => exact hf
      | targetToBase => exact hb
  · cases h

end Scan

end Cutover
