import Cutover.Proofs.Passes
import Cutover.Consumer
import Mathlib.Data.Option.Basic

/-!
# What a consumer can do

`Repair.Moved` and `Consumer.Moved` name the moves of a repair and of a consumer. While a message is
handled, logs only grow and no offset is committed (`Broker.Grown`); only the end of the handling
commits one.
-/

namespace Cutover

variable {ρ : Type} [Entity ρ]

/-! ## Logs that grow -/

/-- A broker with the same committed offsets, whose logs may be longer. -/
structure Broker.Grown (b b' : Broker) : Prop where
  log : ∀ t, b.log t <+: b'.log t
  committed : ∀ g t, b'.committedOffset g t = b.committedOffset g t
  rewind : b'.script.getD .rewind [] = b.script.getD .rewind []

/-- A broker with the same logs and committed offsets, which publishes as before. -/
structure Broker.Quiet (b b' : Broker) : Prop where
  topics : b'.topics = b.topics
  committed : b'.committed = b.committed
  rewind : b'.script.getD .rewind [] = b.script.getD .rewind []
  prompt : ∀ l, b.Prompt l → b'.Prompt l

namespace Broker

theorem Grown.refl (b : Broker) : b.Grown b := ⟨fun _ => List.prefix_refl _, fun _ _ => rfl, rfl⟩

theorem Quiet.log {b b' : Broker} (h : b.Quiet b') (t : String) : b'.log t = b.log t :=
  log_congr h.topics t

theorem Quiet.grown {b b' : Broker} (h : b.Quiet b') : b.Grown b' :=
  ⟨fun t => h.log t ▸ List.prefix_refl _,
    fun g t => by rw [committedOffset, committedOffset, h.committed], h.rewind⟩

theorem Alike.grown {b b' : Broker} (h : b.Alike b') : b.Grown b' :=
  ⟨fun t => h.log t ▸ List.prefix_refl _, fun g t => h.committedOffset g t, h.script _ (by decide)⟩

theorem grown_append (b : Broker) (topic : String) (payload : Bytes) :
    b.Grown (b.append topic payload) := by
  refine ⟨fun t => ?_, fun _ _ => rfl, rfl⟩
  rw [log_append]
  split
  · next heq => rw [heq]; exact List.prefix_append ..
  · exact List.prefix_refl _

theorem scripted_ne {b : Broker} {op other : BrokerOp} (h : other ≠ op) :
    (b.scripted op).2.script.getD other [] = b.script.getD other [] := by
  unfold scripted
  split
  · rfl
  · rw [Assoc.getD_put, if_neg h]

theorem fields_scripted (b : Broker) (op : BrokerOp) :
    (b.scripted op).2.topics = b.topics ∧ (b.scripted op).2.committed = b.committed ∧
      (b.scripted op).2.closed = b.closed := by
  unfold scripted
  split <;> exact ⟨rfl, rfl, rfl⟩

theorem Prompt.scripted {l : Nat} {b : Broker} (h : b.Prompt l) (op : BrokerOp) :
    (b.scripted op).2.Prompt l := by
  unfold Broker.scripted
  split
  · exact h
  · next hs =>
    refine ⟨h.1, h.2.1, ?_⟩
    rw [Assoc.getD_put]
    split
    · next heq =>
      rw [← heq, h.2.2] at hs
      cases hs
    · exact h.2.2

theorem quiet_scripted {b : Broker} {op : BrokerOp} (h : op ≠ .rewind) :
    b.Quiet (b.scripted op).2 := by
  obtain ⟨htopics, hcommitted, -⟩ := b.fields_scripted op
  exact ⟨htopics, hcommitted, scripted_ne h.symm, fun _ hb => hb.scripted op⟩

end Broker

namespace Deployment

variable {d d' : Deployment ρ} {m : Moment} {flight : Option Flight}

theorem Called.grown {limit : Option Nat} {side : Side} {c : Call ρ} {p : Progress c.Answer}
    (h : Called d m limit side c flight d' p) : d.broker.Grown d'.broker := by
  cases h <;> rw [broker_setStore] <;> exact .refl _

theorem Posted.grown {limit : Option Nat} {topic : String} {payload : Bytes} {p : Progress Unit}
    (h : Posted d m limit topic payload flight d' p) : d.broker.Grown d'.broker := by
  cases h with
  | begun _ ha | failed ha => exact ha.grown
  | answered => exact d.broker.grown_append topic payload

end Deployment

theorem Scan.Pass.Moved.grown {plan : Scan.Plan} {m : Moment} {d d' : Deployment ρ}
    {p p' : Scan.Pass ρ} (h : Moved plan m d p d' p') : d.broker.Grown d'.broker := by
  cases h with
  | begun _ _ _ ha | paged _ _ ha | compared _ _ ha | failed _ ha => exact ha.broker.grown
  | reported => exact d.broker.grown_append _ _
  | rested => exact .refl _

theorem Scan.Pass.Moved.policy {plan : Scan.Plan} {m : Moment} {d d' : Deployment ρ}
    {p p' : Scan.Pass ρ} (h : Moved plan m d p d' p') : d'.policy = d.policy := by
  cases h with
  | begun _ _ _ ha | paged _ _ ha | compared _ _ ha | failed _ ha => exact ha.policy
  | reported | rested => rfl

/-! ## Repairs -/

namespace Repair

/-- What a move makes of a deployment and a repair. -/
inductive Moved (m : Moment) (d : Deployment ρ) (r : Repair ρ) :
    Deployment ρ → Repair ρ → Prop where
  | begun {d' f} : r.flight = none → d.Alike d' →
      ((∀ side, (d.store side).Plain) → f.refused = none) → (∀ l, d.Prompt l → f.Prompt) →
      Moved m d r d' { r with flight := some f }
  | found {d' row} : r.phase = .reading → Rows.first? r.id (d.store r.base).rows = some row →
      d.Alike d' → Moved m d r d' (r.enter (.writing row))
  | missed {d'} : r.phase = .reading → Rows.first? r.id (d.store r.base).rows = none →
      d.Alike d' → Moved m d r d' (r.enter .removing)
  | written {s row} : r.phase = .writing row →
      s.contents = (d.store r.base.other).contents.put row →
      ((d.store r.base.other).Plain → s.Plain) →
      Moved m d r (d.setStore s r.base.other) (r.enter (.done (.ok ())))
  | removed {s} : r.phase = .removing →
      s.contents = (d.store r.base.other).contents.remove r.id →
      ((d.store r.base.other).Plain → s.Plain) →
      Moved m d r (d.setStore s r.base.other) (r.enter (.done (.ok ())))
  | failed {d' e} : d.Alike d' →
      ¬ (m.stopped = false ∧ (∃ l, d.Prompt l) ∧ ∀ f ∈ r.flight, f.Prompt) →
      Moved m d r d' (r.enter (.done (.error e)))
  /-- A store that says that it has no such row, though it has not looked. -/
  | misled {d'} : (∃ f ∈ r.flight, f.refused ≠ none) → d.Alike d' →
      Moved m d r d' (r.enter .removing)

variable {m : Moment} {d d' : Deployment ρ} {r r' : Repair ρ}

omit [Entity ρ] in
private theorem after_refused {e : Error} (he : e ≠ .notFound) :
    r.after r.afterRead (.answered (.error e)) = r.enter (.done (.error e)) := by
  cases e <;> first | rfl | contradiction

/-- A repair that waits for the answer to a write, which succeeds unless the call fails. -/
private theorem moved_of_write {c : Call ρ} {progress : Progress c.Answer}
    (hanswer : ∃ a, ((d.store r.base.other).contents.run c).1 = .ok a)
    (hdone : ∀ s : Store ρ, s.contents = ((d.store r.base.other).contents.run c).2 →
      ((d.store r.base.other).Plain → s.Plain) →
      Moved m d r (d.setStore s r.base.other) (r.enter (.done (.ok ()))))
    (h : Deployment.Called d m none r.base.other c r.flight d' progress) :
    Moved m d r d' (r.after r.afterWrite progress) := by
  generalize hfl : r.flight = flight at h
  cases h with
  | begun _ hs hplain hp =>
    exact .begun hfl (.setStore hs) (fun h => hplain (h _)) fun l hd => (hp l rfl (hd.1 _)).1
  | answered _ _ hs hplain _ =>
    obtain ⟨a, ha⟩ := hanswer
    rw [ha]
    exact hdone _ hs hplain
  | failed hs _ hfine =>
    exact .failed (.setStore hs) fun ⟨hm, ⟨l, hd⟩, hf⟩ => hfine ⟨hm, ⟨l, hd.1 _⟩, hfl ▸ hf⟩

theorem moved_of_step (h : r.step m d = some (d', r')) : Moved m d r d' r' := by
  unfold step at h
  cases hph : r.phase with
  | reading =>
    simp only [hph] at h
    obtain ⟨⟨e, p⟩, hc, heq⟩ := Option.map_eq_some_iff.mp h
    cases heq
    generalize hfl : r.flight = flight at hc
    cases Deployment.called_of_call hc with
    | begun _ hs hplain hp =>
      exact .begun hfl (.setStore hs) (fun h => hplain (h _)) fun l hd => (hp l rfl (hd.1 _)).1
    | answered _ _ hs hplain _ =>
      cases hf : Rows.first? r.id (d.store r.base).rows with
      | some row =>
        rw [Contents.run_first_some hf] at hs ⊢
        exact .found hph hf (.setStore ⟨hs, hplain⟩)
      | none =>
        rw [Contents.run_first_none hf] at hs ⊢
        exact .missed hph hf (.setStore ⟨hs, hplain⟩)
    | @failed _ s e hs hne hfine =>
      have hbad : ¬ (m.stopped = false ∧ (∃ l, d.Prompt l) ∧ ∀ f ∈ r.flight, f.Prompt) :=
        fun ⟨hm, ⟨l, hd⟩, hf⟩ => hfine ⟨hm, ⟨l, hd.1 _⟩, hfl ▸ hf⟩
      by_cases hex : ∃ f ∈ r.flight, f.refused ≠ none
      · by_cases he : e = .notFound
        · subst he
          exact .misled hex (.setStore hs)
        · rw [after_refused he]
          exact .failed (.setStore hs) hbad
      · have he : e ≠ .notFound :=
          hne fun f hf => Classical.not_not.mp fun hc => hex ⟨f, hfl ▸ hf, hc⟩
        rw [after_refused he]
        exact .failed (.setStore hs) hbad
  | writing row =>
    simp only [hph] at h
    obtain ⟨⟨e, p⟩, hc, heq⟩ := Option.map_eq_some_iff.mp h
    cases heq
    exact moved_of_write ⟨_, rfl⟩ (fun _ => .written hph) (Deployment.called_of_call hc)
  | removing =>
    simp only [hph] at h
    obtain ⟨⟨e, p⟩, hc, heq⟩ := Option.map_eq_some_iff.mp h
    cases heq
    exact moved_of_write ⟨_, rfl⟩ (fun _ => .removed hph) (Deployment.called_of_call hc)
  | done x =>
    simp only [hph] at h
    cases h

end Repair

/-! ## What every call keeps -/

/-- A relation between the deployments before and after every call. -/
structure Deployment.Frames (R : Deployment ρ → Deployment ρ → Prop) : Prop where
  refl : ∀ d, R d d
  call : ∀ {d d' : Deployment ρ} {m : Moment} {limit : Option Nat} {side : Side} {c : Call ρ}
    {flight : Option Flight} {p : Progress c.Answer},
    d.call m limit side c flight = some (d', p) → R d d'
  publish : ∀ {d d' : Deployment ρ} {m : Moment} {limit : Option Nat} {topic : String}
    {payload : Bytes} {flight : Option Flight} {p : Progress Unit},
    d.publish m limit topic payload flight = some (d', p) → R d d'

namespace Deployment.Frames

variable {R : Deployment ρ → Deployment ρ → Prop} (hR : Frames R) {m : Moment} {d d' : Deployment ρ}
include hR

theorem lookup {c : Comparison} {side : Side} {id : Int} {w w' : Lookup ρ}
    (h : w.step c side id m d = some (d', w')) : R d d' := by
  cases w with
  | found | failed => cases h
  | asking flight =>
    obtain ⟨⟨e, p⟩, hc, heq⟩ := Option.map_eq_some_iff.mp h
    cases heq
    exact hR.call hc

theorem check {c c' : RowCheck ρ} (h : c.step m d = some (d', c')) : R d d' := by
  unfold RowCheck.step at h
  split at h
  · rcases (Option.orElse_eq_some ..).mp h with h | ⟨-, h⟩
    · obtain ⟨⟨e, w⟩, hw, heq⟩ := Option.map_eq_some_iff.mp h
      cases heq
      exact hR.lookup hw
    · obtain ⟨⟨e, w⟩, hw, heq⟩ := Option.map_eq_some_iff.mp h
      cases heq
      exact hR.lookup hw
  · obtain ⟨⟨e, p⟩, hp, heq⟩ := Option.map_eq_some_iff.mp h
    cases heq
    exact hR.publish hp
  · cases h

theorem repair {r r' : Repair ρ} (h : r.step m d = some (d', r')) : R d d' := by
  unfold Repair.step at h
  split at h
  · obtain ⟨⟨e, p⟩, hc, heq⟩ := Option.map_eq_some_iff.mp h
    cases heq
    exact hR.call hc
  · obtain ⟨⟨e, p⟩, hc, heq⟩ := Option.map_eq_some_iff.mp h
    cases heq
    exact hR.call hc
  · obtain ⟨⟨e, p⟩, hc, heq⟩ := Option.map_eq_some_iff.mp h
    cases heq
    exact hR.call hc
  · cases h

/-- What every call keeps, the handling of a message keeps. -/
theorem handling {w w' : Handling ρ} (h : w.step m d = some (d', w')) : R d d' := by
  cases w with
  | repair r =>
    obtain ⟨⟨e, r'⟩, hr, heq⟩ := Option.map_eq_some_iff.mp h
    cases heq
    exact hR.repair hr
  | check c =>
    obtain ⟨⟨e, c'⟩, hc, heq⟩ := Option.map_eq_some_iff.mp h
    cases heq
    exact hR.check hc
  | wait ms outcome flight =>
    obtain ⟨p, -, heq⟩ := Option.map_eq_some_iff.mp h
    cases heq
    exact hR.refl _
  | ended outcome => cases h

end Deployment.Frames

namespace Deployment

theorem frames_grown : Frames (ρ := ρ) fun d d' => d.broker.Grown d'.broker where
  refl _ := .refl _
  call h := (called_of_call h).grown
  publish h := (posted_of_publish h).grown

theorem frames_prompt (l : Nat) : Frames (ρ := ρ) fun d d' => d.Prompt l → d'.Prompt l where
  refl _ := id
  call h hd := hd.call h
  publish h hd := hd.publish h

/-- No call changes the policy. -/
theorem frames_policy : Frames (ρ := ρ) fun d d' => d'.policy = d.policy where
  refl _ := rfl
  call h := by
    obtain ⟨⟨s, p⟩, -, heq⟩ := Option.map_eq_some_iff.mp h
    cases heq
    exact policy_setStore ..
  publish h := by
    obtain ⟨⟨b, p⟩, -, heq⟩ := Option.map_eq_some_iff.mp h
    cases heq
    rfl

theorem Prompt.withBroker {l : Nat} {d : Deployment ρ} {b : Broker} (hd : d.Prompt l)
    (hb : b.Prompt l) : ({ d with broker := b } : Deployment ρ).Prompt l :=
  ⟨fun side => by simpa using hd.1 side, hb⟩

end Deployment

theorem Handling.grown_step {m : Moment} {d d' : Deployment ρ} {w w' : Handling ρ}
    (h : w.step m d = some (d', w')) :
    d.broker.Grown d'.broker := Deployment.frames_grown.handling h

/-! ## Consumers -/

namespace Consumer

/-- Whether a consumer handles a message. -/
def IsHandling (c : Consumer ρ) : Prop := ∃ message work due, c.phase = .handling message work due

/-- Whether a consumer is a member of a group that reads a topic. -/
def IsMember (group topic : String) (c : Consumer ρ) : Prop :=
  c.subscription.group = group ∧ c.subscription.topic = topic

/-- What a move makes of a deployment and a consumer. -/
inductive Moved (d : Deployment ρ) (c : Consumer ρ) : Deployment ρ → Consumer ρ → Prop where
  | ended : Moved d c d { c with phase := .done }
  | idled {b phase} : c.phase ≠ .done → ¬ c.IsHandling →
      ¬ ({ c with phase } : Consumer ρ).IsHandling →
      d.broker.Quiet b → Moved d c { d with broker := b } { c with phase }
  | skipped {message subscription} : c.phase = .waiting →
      d.broker.poll c.subscription = .message message subscription →
      c.handler.begin d message.payload = none →
      Moved d c (acknowledge d { c with subscription } message)
        { c with subscription, phase := .asking }
  | began {message subscription id work handler due log} : c.phase = .waiting →
      d.broker.poll c.subscription = .message message subscription →
      c.handler.begin d message.payload = some (id, work, handler) →
      Moved d c d { c with subscription, handler, log, phase := .handling message work due }
  | worked {message work due now d' work'} : c.phase = .handling message work due →
      work.result? = none → work.step ⟨now, false⟩ d = some (d', work') →
      Moved d c d' { c with phase := .handling message work' due }
  | succeeded {message work due} : c.phase = .handling message work due →
      work.result? = some (.ok ()) →
      Moved d c (acknowledge d c message) { c with phase := .asking }
  | failed {message work due} : c.phase = .handling message work due →
      Moved d c (goBack d c message).1 { (goBack d c message).2 with phase := .resting none }

theorem moved_of_onOutcome {d d' : Deployment ρ} {c c' : Consumer ρ} {message : Delivery}
    {work : Handling ρ} {due : Nat} {outcome : Except Error Unit}
    (hph : c.phase = .handling message work due)
    (hok : outcome = .ok () → work.result? = some (.ok ()))
    (h : onOutcome d c message outcome = (d', c')) : Moved d c d' c' := by
  unfold onOutcome at h
  split at h
  · cases h
    exact .succeeded hph (hok rfl)
  · cases h
    exact .ended
  · cases h
    exact .failed hph

theorem moved_of_step {now : Nat} {d d' : Deployment ρ} {c c' : Consumer ρ}
    (h : c.step now d = some (d', c')) : Moved d c d' c' := by
  unfold step at h
  split at h
  · cases h
  split at h
  · cases h
    exact .ended
  unfold proceed at h
  cases hph : c.phase with
  | asking =>
    simp only [hph] at h
    have hq : d.broker.Quiet (d.broker.scripted .next).2 := Broker.quiet_scripted (by decide)
    have hidle : ¬ c.IsHandling := by simp [IsHandling, hph]
    split at h
    · next hs =>
      cases h
      rw [hs] at hq
      exact .idled (by simp [hph]) hidle (by simp [IsHandling]) hq
    · next hs =>
      cases h
      rw [hs] at hq
      exact .idled (by simp [hph]) hidle (by simp [IsHandling]) hq
  | waiting =>
    simp only [hph] at h
    split at h
    · cases h
      exact .ended
    · next message subscription hpoll =>
      have hm := Option.some.inj h
      unfold onMessage at hm
      split at hm
      · next hnone =>
        cases hm
        exact .skipped hph hpoll hnone
      · next hsome =>
        cases hm
        exact .began hph hpoll hsome
    · cases h
  | handling message work due =>
    simp only [hph] at h
    split at h
    · next outcome hres =>
      exact moved_of_onOutcome hph (fun heq => heq ▸ hres) (Option.some.inj h)
    · next hres =>
      split at h
      · next hstep =>
        cases h
        exact .worked hph hres hstep
      · split at h
        · exact moved_of_onOutcome hph (by simp) (Option.some.inj h)
        · cases h
  | resting flight =>
    simp only [hph] at h
    obtain ⟨p, -, heq⟩ := Option.map_eq_some_iff.mp h
    have hidle : ¬ c.IsHandling := by simp [IsHandling, hph]
    split at heq
    · cases heq
      exact .idled (by simp [hph]) hidle (by simp [IsHandling]) ⟨rfl, rfl, rfl, fun _ => id⟩
    · cases heq
      exact .idled (by simp [hph]) hidle (by simp [IsHandling]) ⟨rfl, rfl, rfl, fun _ => id⟩
  | done =>
    simp only [hph] at h
    cases h

/-- To acknowledge a message is to commit no more than the offset after it. -/
theorem acknowledge_spec (d : Deployment ρ) (c : Consumer ρ) (message : Delivery) :
    ∃ b, acknowledge d c message = { d with broker := b } ∧ b.topics = d.broker.topics ∧
      b.script.getD .rewind [] = d.broker.script.getD .rewind [] ∧
      (∀ l, d.broker.Prompt l → b.Prompt l) ∧
      ∀ group topic i, i < b.committedOffset group topic →
        i < d.broker.committedOffset group topic ∨
          c.IsMember group topic ∧ i ≤ message.offset := by
  have hq : d.broker.Quiet (d.broker.scripted .ack).2 := Broker.quiet_scripted (by decide)
  unfold acknowledge
  split
  · next b hs =>
    rw [hs] at hq
    refine ⟨b, rfl, hq.topics, hq.rewind, hq.prompt, fun group topic i hi => .inl ?_⟩
    rwa [Broker.committedOffset, hq.committed] at hi
  · next b hs =>
    rw [hs] at hq
    refine ⟨_, rfl, hq.topics, hq.rewind, hq.prompt, fun group topic i hi => ?_⟩
    rw [Broker.committedOffset_ack, Broker.committedOffset, hq.committed] at hi
    split at hi
    · next heq =>
      obtain ⟨hg, ht⟩ := Prod.mk.inj heq
      have hnext : Broker.nextOffset message.offset ≤ message.offset + 1 := Nat.mod_le ..
      by_cases hold : i < d.broker.committed.getD (group, topic) 0
      · exact .inl hold
      · exact .inr ⟨⟨hg.symm, ht.symm⟩, by omega⟩
    · exact .inl hi

/-- To go back to a message is to move the cursor of a consumer, unless that is refused. -/
theorem goBack_spec (d : Deployment ρ) (c : Consumer ρ) (message : Delivery) :
    ∃ b s, goBack d c message = ({ d with broker := b }, { c with subscription := s }) ∧
      b.topics = d.broker.topics ∧ b.committed = d.broker.committed ∧
      (∀ l, d.broker.Prompt l → b.Prompt l) ∧ s.group = c.subscription.group ∧
      s.topic = c.subscription.topic ∧
      (d.broker.script.getD .rewind [] = [] →
        b = d.broker ∧ s = c.subscription.rewind message.offset) := by
  have hfields := d.broker.fields_scripted .rewind
  have hprompt (l : Nat) (h : d.broker.Prompt l) := h.scripted .rewind
  unfold goBack
  split
  · next e b hs =>
    rw [hs] at hfields hprompt
    refine ⟨b, c.subscription, rfl, hfields.1, hfields.2.1, hprompt, rfl, rfl, fun h => ?_⟩
    rw [Broker.scripted, h] at hs
    cases hs
  · next b hs =>
    rw [hs] at hfields hprompt
    refine ⟨b, _, rfl, hfields.1, hfields.2.1, hprompt, rfl, rfl, fun h => ⟨?_, rfl⟩⟩
    rw [Broker.scripted, h] at hs
    cases hs
    rfl

theorem Moved.prompt {d d' : Deployment ρ} {c c' : Consumer ρ} {l : Nat} (h : c.Moved d d' c')
    (hd : d.Prompt l) : d'.Prompt l := by
  cases h with
  | ended | began => exact hd
  | idled _ _ _ hq => exact hd.withBroker (hq.prompt l hd.2)
  | worked _ _ hstep => exact (Deployment.frames_prompt l).handling hstep hd
  | @skipped message subscription =>
    obtain ⟨b, heq, -, -, hb, -⟩ := acknowledge_spec d { c with subscription } message
    rw [heq]
    exact hd.withBroker (hb l hd.2)
  | @succeeded message =>
    obtain ⟨b, heq, -, -, hb, -⟩ := acknowledge_spec d c message
    rw [heq]
    exact hd.withBroker (hb l hd.2)
  | @failed message =>
    obtain ⟨b, s, heq, -, -, hb, -⟩ := goBack_spec d c message
    rw [heq]
    exact hd.withBroker (hb l hd.2)

/-- A consumer does not change the policy. -/
theorem Moved.policy {d d' : Deployment ρ} {c c' : Consumer ρ} (h : c.Moved d d' c') :
    d'.policy = d.policy := by
  cases h with
  | ended | began | idled => rfl
  | worked _ _ hstep => exact Deployment.frames_policy.handling hstep
  | @skipped message subscription =>
    obtain ⟨b, heq, -⟩ := acknowledge_spec d { c with subscription } message
    rw [heq]
  | @succeeded message =>
    obtain ⟨b, heq, -⟩ := acknowledge_spec d c message
    rw [heq]
  | @failed message =>
    obtain ⟨b, s, heq, -⟩ := goBack_spec d c message
    rw [heq]

theorem poll_eq_message {b : Broker} {s s' : Subscription} {message : Delivery}
    (h : b.poll s = .message message s') :
    message = { topic := s.topic, offset := s.cursor, payload := message.payload } ∧
      (b.log s.topic)[s.cursor]? = some message.payload ∧
      s' = { s with cursor := s.cursor + 1 } := by
  unfold Broker.poll at h
  split at h
  · cases h
  split at h
  · next hp =>
    cases h
    exact ⟨rfl, hp, rfl⟩
  · cases h

end Consumer

end Cutover
