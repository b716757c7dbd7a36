import Cutover.Proofs.Handlings
import Cutover.Proofs.Work
import Cutover.Migration.Operations

/-!
# Histories

A history is a list of happenings: a task takes its turn, time passes, or somebody does something to
the migration. Whatever is said of a migration after every history is said of every order of its
tasks. `Migration.Moved` names what a turn does.
-/

namespace Cutover

variable {ρ : Type} [Entity ρ]

/-- Something that happens to a migration. -/
inductive Happening (ρ : Type) [Entity ρ] where
  /-- A task takes its turn. If it has to wait, nothing happens. -/
  | turn (t : Turn)
  | time (now : Nat)
  | order (o : Order)
  | stopJob (n : Nat)
  /-- A consumer starts. -/
  | join (handler : Handler) (group topic : String) (limit backoff : Nat) (stopped : Bool)
  | stop (n : Nat)
  | abort (n : Nat)
  | startRun (scan : Scan ρ) (stopped : Bool)
  | stopRun (n : Nat)
  /-- A message is given to be published. -/
  | post (topic : String) (payload : Bytes) (ms : Nat)
  /-- Other faults are planned for a store. -/
  | plan (side : Side) (faults : FaultPlan)
  | planBroker (faults : FaultPlan)
  /-- Somebody else writes to a store. -/
  | edit (side : Side) (store : Store ρ)
  | close

namespace Migration

/-- The migration after something has happened to it. -/
def perform (m : Migration ρ) : Happening ρ → Migration ρ
  | .turn t => (m.move t).getD m
  | .time now => m.setNow now
  | .order o =>
    match m.obey o with
    | .ok (_, m) => m
    | .error _ => m
  | .stopJob n => m.stopJob n
  | .join handler group topic limit backoff stopped =>
    (m.startConsumer handler group topic limit backoff stopped).2
  | .stop n => m.stopConsumer n
  | .abort n => m.abortConsumer n
  | .startRun scan stopped => (m.startRun scan stopped).2
  | .stopRun n => m.stopRun n
  | .post topic payload ms => m.publishLater topic payload ms
  | .plan side faults => { m with site := m.site.setFaults side faults }
  | .planBroker faults => { m with site := m.site.setBrokerFaults faults }
  | .edit side store => m.setStore store side
  | .close => m.setBroker m.site.broker.close

/-- The migration after a history. -/
def after (m : Migration ρ) (history : List (Happening ρ)) : Migration ρ := history.foldl perform m

theorem after_append (m : Migration ρ) (past rest : List (Happening ρ)) :
    m.after (past ++ rest) = (m.after past).after rest := List.foldl_append

theorem after_concat (m : Migration ρ) (past : List (Happening ρ)) (h : Happening ρ) :
    m.after (past ++ [h]) = (m.after past).perform h := by
  rw [after_append]
  rfl

end Migration

/-! ## Turns -/

theorem Scan.moved_of_stepWay {way : Scan.Way} {m : Moment} {d d' : Deployment ρ} {s s' : Scan ρ}
    (h : s.stepWay way m d = some (d', s')) :
    s.isOver = false ∧
      ∃ p, Scan.Pass.Moved s.plan m d (s.pass way) d' p ∧ s' = s.setPass p way := by
  unfold stepWay at h
  split at h
  · cases h
  · next hr =>
    obtain ⟨⟨e, p⟩, hstep, heq⟩ := Option.map_eq_some_iff.mp h
    cases heq
    exact ⟨by simpa using hr, p, Scan.Pass.moved_of_step hstep, rfl⟩

/-- What every call keeps, a message that is published later keeps. -/
theorem Deployment.Frames.post {R : Deployment ρ → Deployment ρ → Prop} (hR : Deployment.Frames R)
    {now : Nat} {d d' : Deployment ρ} {p p' : Post} (h : p.step now d = some (d', p')) :
    R d d' := by
  unfold Post.step at h
  split at h
  · cases h
  · obtain ⟨⟨e, q⟩, hp, heq⟩ := Option.map_eq_some_iff.mp h
    cases heq
    exact hR.publish hp

namespace Migration

/-- What a turn makes of a migration. -/
inductive Moved (m : Migration ρ) : Turn → Migration ρ → Prop where
  | job {n way j d' p} : m.scheduler.jobs[n]? = some j → j.isBlocked m.scheduler.jobs = false →
      j.scan.isOver = false →
      Scan.Pass.Moved j.scan.plan ⟨m.now, j.stopped⟩ m.site (j.scan.pass way) d' p →
      Moved m (.job n way) { m with
        site := d'
        scheduler := { m.scheduler with
          jobs := m.scheduler.jobs.set n { j with scan := j.scan.setPass p way } } }
  | consumer {n c d' c'} : m.consumers[n]? = some c → c.Moved m.site d' c' →
      Moved m (.consumer n) { m with site := d', consumers := m.consumers.set n c' }
  | run {n way r d' p} : m.runs[n]? = some r →
      Scan.Pass.Moved r.scan.plan ⟨m.now, r.stopped⟩ m.site (r.scan.pass way) d' p →
      Moved m (.run n way)
        { m with site := d', runs := m.runs.set n { r with scan := r.scan.setPass p way } }
  | post {n p d' p'} : m.posts[n]? = some p → p.step m.now m.site = some (d', p') →
      Moved m (.post n) { m with site := d', posts := m.posts.set n p' }

theorem moved_of_move {m m' : Migration ρ} {t : Turn} (h : m.move t = some m') : Moved m t m' := by
  cases t with
  | job n way =>
    obtain ⟨j, hj, h⟩ := Option.bind_eq_some_iff.mp h
    obtain ⟨⟨d, j'⟩, hstep, h⟩ := Option.bind_eq_some_iff.mp h
    cases h
    unfold Job.step at hstep
    split at hstep
    · cases hstep
    · next hb =>
      obtain ⟨⟨d, s⟩, hway, heq⟩ := Option.map_eq_some_iff.mp hstep
      cases heq
      obtain ⟨hr, p, hp, rfl⟩ := Scan.moved_of_stepWay hway
      exact .job hj (by simpa using hb) hr hp
  | consumer n =>
    obtain ⟨c, hc, h⟩ := Option.bind_eq_some_iff.mp h
    obtain ⟨⟨d, c'⟩, hstep, h⟩ := Option.bind_eq_some_iff.mp h
    cases h
    exact .consumer hc (Consumer.moved_of_step hstep)
  | run n way =>
    obtain ⟨r, hr, h⟩ := Option.bind_eq_some_iff.mp h
    obtain ⟨⟨d, r'⟩, hstep, h⟩ := Option.bind_eq_some_iff.mp h
    cases h
    obtain ⟨⟨d, s⟩, hway, heq⟩ := Option.map_eq_some_iff.mp hstep
    cases heq
    obtain ⟨-, p, hp, rfl⟩ := Scan.moved_of_stepWay hway
    exact .run hr hp
  | post n =>
    obtain ⟨p, hp, h⟩ := Option.bind_eq_some_iff.mp h
    obtain ⟨⟨d, p'⟩, hstep, h⟩ := Option.bind_eq_some_iff.mp h
    cases h
    exact .post hp hstep

theorem perform_turn (m : Migration ρ) (t : Turn) :
    m.perform (.turn t) = m ∨ ∃ m', m.perform (.turn t) = m' ∧ Moved m t m' := by
  cases h : m.move t with
  | none => exact .inl (by rw [perform, h]; rfl)
  | some m' => exact .inr ⟨m', by rw [perform, h]; rfl, moved_of_move h⟩

theorem perform_consumer {m : Migration ρ} {n : Nat} {c c' : Consumer ρ} {d' : Deployment ρ}
    (hc : m.consumers[n]? = some c) (h : c.step m.now m.site = some (d', c')) :
    m.perform (.turn (.consumer n)) = { m with site := d', consumers := m.consumers.set n c' } := by
  have hmove : m.move (.consumer n) =
      some { m with site := d', consumers := m.consumers.set n c' } := by
    simp only [move, hc, Option.bind_eq_bind, Option.bind_some, h]
    rfl
  rw [perform, hmove]
  rfl

theorem obey_ok {m m' : Migration ρ} {o : Order} {a : Option Nat} (h : m.obey o = .ok (a, m')) :
    ∃ policy scheduler, m.scheduler.run m.config m.site.policy o = .ok (a, policy, scheduler) ∧
      m' = { m with site := { m.site with policy }, scheduler } := by
  unfold obey at h
  cases hv : m.config.validate with
  | error e => rw [hv] at h; cases h
  | ok u =>
    cases hr : m.scheduler.run m.config m.site.policy o with
    | error e => rw [hv, hr] at h; cases h
    | ok x =>
      rw [hv, hr] at h
      cases h
      exact ⟨_, _, rfl, rfl⟩

theorem perform_order (m : Migration ρ) (o : Order) :
    m.perform (.order o) = m ∨ ∃ a policy scheduler,
      m.scheduler.run m.config m.site.policy o = .ok (a, policy, scheduler) ∧
        m.perform (.order o) = { m with site := { m.site with policy }, scheduler } := by
  simp only [perform]
  cases ho : m.obey o with
  | error e => exact .inl rfl
  | ok x =>
    obtain ⟨a, m'⟩ := x
    obtain ⟨policy, scheduler, hrun, heq⟩ := obey_ok ho
    exact .inr ⟨a, policy, scheduler, hrun, heq⟩

/-- What a consumer that starts makes of a migration, if it is not refused. -/
theorem startConsumer_cases (m : Migration ρ) (handler : Handler) (group topic : String)
    (limit backoff : Nat) (stopped : Bool) :
    ∃ b, m.site.broker.Quiet b ∧
      ((m.startConsumer handler group topic limit backoff stopped).2 = m.setBroker b ∨
        (m.startConsumer handler group topic limit backoff stopped).2 =
          { m.setBroker b with
            consumers := m.consumers ++ [{
              subscription := m.site.broker.subscribe group topic
              handler, limit, backoff, stopped }] }) := by
  have hq : m.site.broker.Quiet (m.site.broker.scripted .subscribe).2 :=
    Broker.quiet_scripted (by decide)
  unfold startConsumer subscribe refusable
  cases hs : m.site.broker.scripted .subscribe with
  | mk e b =>
    rw [hs] at hq
    refine ⟨b, hq, ?_⟩
    cases e with
    | some e => exact .inl rfl
    | none =>
      have hc : b.committed = m.site.broker.committed := hq.committed
      refine .inr ?_
      simp only [Broker.subscribe, Broker.committedOffset, hc]
      rfl

end Migration

/-! ## What happens to the consumers -/

/-- A consumer at the same place, unless it has ended. -/
def Consumer.Kept (c c' : Consumer ρ) : Prop :=
  c'.subscription = c.subscription ∧ c'.handler = c.handler ∧
    (c'.phase = c.phase ∨ c'.phase = .done)

omit [Entity ρ] in
theorem Consumer.Kept.refl (c : Consumer ρ) : c.Kept c := ⟨rfl, rfl, .inl rfl⟩

namespace Migration

/-- What something that happens makes of the broker and the consumers: one of the consumers moves,
or logs may grow, consumers may end and one may join. -/
inductive Stirred (m : Migration ρ) : Happening ρ → Migration ρ → Prop where
  | moved {n c d' c'} : m.consumers[n]? = some c → c.Moved m.site d' c' →
      Stirred m (.turn (.consumer n)) { m with site := d', consumers := m.consumers.set n c' }
  | kept {h m'} : m.site.broker.Grown m'.site.broker →
      (∀ c' ∈ m'.consumers, ∃ c ∈ m.consumers, c.Kept c') → Stirred m h m'
  | joined {handler group topic limit backoff stopped c m'} :
      m.site.broker.Grown m'.site.broker → c.subscription = m.site.broker.subscribe group topic →
      c.handler = handler → c.phase = .asking → m'.consumers = m.consumers ++ [c] →
      Stirred m (.join handler group topic limit backoff stopped) m'

theorem kept_modify {m : Migration ρ} {n : Nat} {f : Consumer ρ → Consumer ρ}
    (hf : ∀ c : Consumer ρ, c.Kept (f c)) (c' : Consumer ρ) (h : c' ∈ m.consumers.modify n f) :
    ∃ c ∈ m.consumers, c.Kept c' := by
  obtain ⟨i, hi⟩ := List.mem_iff_getElem?.mp h
  rw [List.getElem?_modify] at hi
  obtain ⟨c, hc, rfl⟩ := Option.map_eq_some_iff.mp hi
  refine ⟨c, List.mem_of_getElem? hc, ?_⟩
  split
  · exact hf c
  · exact .refl c

theorem stirred_perform (m : Migration ρ) (h : Happening ρ) : Stirred m h (m.perform h) := by
  have same {m' : Migration ρ} (h : Happening ρ) (hb : m.site.broker.Grown m'.site.broker)
      (hc : m'.consumers = m.consumers) : Stirred m h m' :=
    .kept hb fun c hm => ⟨c, hc ▸ hm, .refl c⟩
  cases h with
  | turn t =>
    rcases m.perform_turn t with heq | ⟨m', heq, hmoved⟩
    · rw [heq]
      exact same _ (.refl _) rfl
    · rw [heq]
      cases hmoved with
      | job _ _ _ hp => exact same _ hp.grown rfl
      | consumer hc hmove => exact .moved hc hmove
      | run _ hp => exact same _ hp.grown rfl
      | post _ hp => exact same _ (Deployment.frames_grown.post hp) rfl
  | time | stopJob | startRun | stopRun | post => exact same _ (.refl _) rfl
  | order o =>
    rcases m.perform_order o with heq | ⟨a, policy, scheduler, -, heq⟩
    · rw [heq]
      exact same _ (.refl _) rfl
    · rw [heq]
      exact same _ (.refl _) rfl
  | join handler group topic limit backoff stopped =>
    have hperform : m.perform (.join handler group topic limit backoff stopped) =
        (m.startConsumer handler group topic limit backoff stopped).2 := rfl
    obtain ⟨b, hq, heq | heq⟩ := m.startConsumer_cases handler group topic limit backoff stopped
    · rw [hperform, heq]
      exact same _ hq.grown rfl
    · rw [hperform, heq]
      exact .joined hq.grown rfl rfl rfl rfl
  | stop n => exact .kept (.refl _) (kept_modify fun c => ⟨rfl, rfl, .inl rfl⟩)
  | abort n => exact .kept (.refl _) (kept_modify fun c => ⟨rfl, rfl, .inr rfl⟩)
  | plan side faults => exact same _ (m.site.alike_setFaults side faults).broker.grown rfl
  | planBroker faults => exact same _ ⟨fun _ => List.prefix_refl _, fun _ _ => rfl, rfl⟩ rfl
  | edit side store =>
    refine same _ ?_ rfl
    change m.site.broker.Grown (m.site.setStore store side).broker
    rw [Deployment.broker_setStore]
    exact .refl _
  | close => exact same _ ⟨fun _ => List.prefix_refl _, fun _ _ => rfl, rfl⟩ rfl

/-- What something that happens makes of the consumer with a number: it stays at the same place or
ends, it moves, or it has just joined. -/
theorem consumer_perform {m : Migration ρ} {h : Happening ρ} {n : Nat} {c' : Consumer ρ}
    (hc' : (m.perform h).consumers[n]? = some c') :
    (∃ c, m.consumers[n]? = some c ∧
      (c.Kept c' ∨ h = .turn (.consumer n) ∧ c.Moved m.site (m.perform h).site c')) ∨
      m.consumers[n]? = none ∧ c'.phase = .asking := by
  have same {m' : Migration ρ} (hm' : m'.consumers = m.consumers)
      (hc' : m'.consumers[n]? = some c') :
      ∃ c, m.consumers[n]? = some c ∧ (c.Kept c' ∨ h = .turn (.consumer n) ∧
        c.Moved m.site (m.perform h).site c') := ⟨c', hm' ▸ hc', .inl (.refl c')⟩
  have modified {i : Nat} {f : Consumer ρ → Consumer ρ} (hf : ∀ c : Consumer ρ, c.Kept (f c))
      (hc' : (m.consumers.modify i f)[n]? = some c') :
      ∃ c, m.consumers[n]? = some c ∧ (c.Kept c' ∨ h = .turn (.consumer n) ∧
        c.Moved m.site (m.perform h).site c') := by
    rw [List.getElem?_modify] at hc'
    obtain ⟨c, hc, rfl⟩ := Option.map_eq_some_iff.mp hc'
    refine ⟨c, hc, .inl ?_⟩
    split
    · exact hf c
    · exact .refl c
  cases h with
  | turn t =>
    rcases m.perform_turn t with heq | ⟨m', heq, hmoved⟩
    · exact .inl (same (by rw [heq]) hc')
    · cases hmoved with
      | @consumer i c d' c'' hc hmove =>
        by_cases hi : i = n
        · subst hi
          rw [heq, List.getElem?_set_self (List.getElem?_eq_some_iff.mp hc).1] at hc'
          cases hc'
          exact .inl ⟨c, hc, .inr ⟨rfl, by rw [heq]; exact hmove⟩⟩
        · rw [heq, List.getElem?_set_ne hi] at hc'
          exact .inl ⟨c', hc', .inl (.refl c')⟩
      | job | run | post => exact .inl (same (by rw [heq]) hc')
  | order o =>
    rcases m.perform_order o with heq | ⟨a, policy, scheduler, -, heq⟩
    · exact .inl (same (by rw [heq]) hc')
    · exact .inl (same (by rw [heq]) hc')
  | join handler group topic limit backoff stopped =>
    obtain ⟨b, -, heq | heq⟩ := m.startConsumer_cases handler group topic limit backoff stopped
    · exact .inl (same (by rw [perform, heq]; rfl) hc')
    · rw [perform, heq, List.getElem?_append] at hc'
      split at hc'
      · exact .inl ⟨c', hc', .inl (.refl c')⟩
      · next hn =>
        refine .inr ⟨List.getElem?_eq_none_iff.mpr (Nat.not_lt.mp hn), ?_⟩
        rw [List.getElem?_singleton] at hc'
        split at hc'
        · cases hc'
          rfl
        · cases hc'
  | stop i => exact .inl (modified (f := Consumer.stop) (fun c => ⟨rfl, rfl, .inl rfl⟩) hc')
  | abort i => exact .inl (modified (f := Consumer.abort) (fun c => ⟨rfl, rfl, .inr rfl⟩) hc')
  | _ => exact .inl (same rfl hc')

/-! ## Turns in the course of a history -/

/-- In the course of a history a task takes a turn, with the migration before and after it as `Q`
says. -/
def Takes (m : Migration ρ) (t : Turn) (Q : Migration ρ → Migration ρ → Prop)
    (history : List (Happening ρ)) : Prop :=
  ∃ past rest, history = past ++ .turn t :: rest ∧
    Q (m.after past) ((m.after past).perform (.turn t))

theorem Takes.concat {m : Migration ρ} {t : Turn} {Q : Migration ρ → Migration ρ → Prop}
    {past : List (Happening ρ)} (h : m.Takes t Q past) (x : Happening ρ) :
    m.Takes t Q (past ++ [x]) := by
  obtain ⟨before, since, rfl, hQ⟩ := h
  exact ⟨before, since ++ [x], by simp, hQ⟩

theorem takes_last {m : Migration ρ} {t : Turn} {Q : Migration ρ → Migration ρ → Prop}
    {past : List (Happening ρ)} (hQ : Q (m.after past) ((m.after past).perform (.turn t))) :
    m.Takes t Q (past ++ [.turn t]) :=
  ⟨past, [], rfl, hQ⟩

/-! ## The configuration stays -/

theorem config_perform (m : Migration ρ) (x : Happening ρ) : (m.perform x).config = m.config := by
  cases x with
  | turn t =>
    rcases m.perform_turn t with heq | ⟨m', heq, hmoved⟩
    · rw [heq]
    · rw [heq]
      cases hmoved <;> rfl
  | order o =>
    rcases m.perform_order o with heq | ⟨_, _, _, -, heq⟩
    · rw [heq]
    · rw [heq]
  | join handler group topic limit backoff stopped =>
    simp only [perform]
    obtain ⟨_, -, heq | heq⟩ := m.startConsumer_cases handler group topic limit backoff stopped
    · rw [heq]
      rfl
    · rw [heq]
      rfl
  | _ => rfl

theorem config_after (m : Migration ρ) (history : List (Happening ρ)) :
    (m.after history).config = m.config := by
  induction history generalizing m with
  | nil => rfl
  | cons x rest ih => exact (ih (m.perform x)).trans (m.config_perform x)

end Migration

end Cutover
