import Cutover.Proofs.Deliveries
import Cutover.Proofs.Endings

/-!
# Messages in order

A consumer takes the messages of its topic one after the other, from the committed offset at which
it starts. It goes back to a message until it has handled it with success, and passes by what it
cannot read. So what it has handled with success (`Migration.handled`) is what can be read up to its
place, in order and once each, and what it passes is committed. Main statement:
`Migration.handled_in_order`.
-/

namespace Cutover

variable {ρ : Type} [Entity ρ] {group topic : String}

/-! ## Brokers that refuse nothing to their members -/

/-- A broker that refuses nothing, except perhaps what is published. -/
def Broker.Obliging (b : Broker) : Prop := ∀ op, op ≠ .publish → b.script.getD op [] = []

theorem Broker.Obliging.scripted {b : Broker} (h : b.Obliging) {op : BrokerOp}
    (hop : op ≠ .publish) :
    b.scripted op = (none, b) := by
  rw [Broker.scripted, h op hop]

/-- A member that finds nothing has read its topic to the end. -/
theorem Broker.length_le_of_poll {b : Broker} {s : Subscription} (h : b.poll s = .nothing) :
    (b.log s.topic).length ≤ s.cursor := by
  unfold Broker.poll at h
  split at h
  · cases h
  split at h
  · cases h
  · next hnone => exact List.getElem?_eq_none_iff.mp hnone

theorem Broker.Obliging.alike {b b' : Broker} (h : b.Obliging) (ha : b.Alike b') : b'.Obliging :=
  fun op hop => (ha.script op hop).trans (h op hop)

namespace Deployment

/-- No call makes the broker refuse more to its members. -/
theorem frames_obliging : Frames (ρ := ρ) fun d d' => d.broker.Obliging → d'.broker.Obliging where
  refl _ := id
  call hc h := by
    obtain ⟨⟨s, p⟩, -, heq⟩ := Option.map_eq_some_iff.mp hc
    cases heq
    rwa [broker_setStore]
  publish hp h := by
    cases posted_of_publish hp with
    | begun _ ha | failed ha => exact h.alike ha
    | answered => exact h

end Deployment

theorem Scan.Pass.Moved.obliging {plan : Scan.Plan} {m : Moment} {d d' : Deployment ρ}
    {p p' : Scan.Pass ρ}
    (hm : Moved plan m d p d' p') (h : d.broker.Obliging) : d'.broker.Obliging := by
  cases hm with
  | begun _ _ _ ha | paged _ _ ha | compared _ _ ha | failed _ ha => exact h.alike ha.broker
  | reported | rested => exact h

namespace Consumer

variable {now : Nat} {d d' : Deployment ρ} {c c' : Consumer ρ}

theorem acknowledge_of_obliging (h : d.broker.Obliging) (c : Consumer ρ) (message : Delivery) :
    acknowledge d c message = { d with broker := d.broker.ack c.subscription message.offset } := by
  rw [acknowledge, h.scripted (by decide)]

theorem goBack_of_obliging (h : d.broker.Obliging) (c : Consumer ρ) (message : Delivery) :
    goBack d c message =
      (d, { c with subscription := c.subscription.rewind message.offset }) := by
  rw [goBack, h.scripted (by decide)]

theorem obliging_of_onOutcome (h : d.broker.Obliging) (message : Delivery)
    (outcome : Except Error Unit) :
    (onOutcome d c message outcome).1.broker.Obliging := by
  unfold onOutcome
  split
  · rw [acknowledge_of_obliging h]
    exact h
  · exact h
  · rw [goBack_of_obliging h]
    exact h

theorem obliging_of_step (h : d.broker.Obliging) (hstep : c.step now d = some (d', c')) :
    d'.broker.Obliging := by
  unfold step at hstep
  split at hstep
  · cases hstep
  split at hstep
  · cases hstep
    exact h
  unfold proceed at hstep
  cases hph : c.phase with
  | asking =>
    simp only [hph, h.scripted (show BrokerOp.next ≠ .publish by decide)] at hstep
    cases hstep
    exact h
  | waiting =>
    simp only [hph] at hstep
    split at hstep
    · cases hstep
      exact h
    · next message subscription _ =>
      have heq := Option.some.inj hstep
      unfold onMessage at heq
      split at heq
      · cases heq
        rw [acknowledge_of_obliging h]
        exact h
      · cases heq
        exact h
    · cases hstep
  | handling message work due =>
    simp only [hph] at hstep
    split at hstep
    · next outcome _ =>
      have := obliging_of_onOutcome (c := c) h message outcome
      rwa [Option.some.inj hstep] at this
    · split at hstep
      · next hwork =>
        cases hstep
        exact Deployment.frames_obliging.handling hwork h
      · split at hstep
        · have := obliging_of_onOutcome (c := c) h message (.error .deadlineExceeded)
          rwa [Option.some.inj hstep] at this
        · cases hstep
  | resting flight =>
    simp only [hph] at hstep
    obtain ⟨p, -, heq⟩ := Option.map_eq_some_iff.mp hstep
    split at heq
    · cases heq
      exact h
    · cases heq
      exact h
  | done =>
    simp only [hph] at hstep
    cases hstep

/-- No move of a consumer takes back what is committed. -/
theorem Moved.committed_le (hm : c.Moved d d' c') (h : d.broker.Obliging) (group topic : String) :
    d.broker.committedOffset group topic ≤ d'.broker.committedOffset group topic := by
  have hack (c : Consumer ρ) (message : Delivery) : d.broker.committedOffset group topic ≤
      (acknowledge d c message).broker.committedOffset group topic := by
    rw [acknowledge_of_obliging h, Broker.committedOffset_ack]
    split
    · exact Nat.le_max_left ..
    · exact Nat.le_refl _
  cases hm with
  | ended | began => exact Nat.le_refl _
  | idled _ _ _ hq => exact Nat.le_of_eq (hq.grown.committed ..).symm
  | worked _ _ hstep => exact Nat.le_of_eq ((Handling.grown_step hstep).committed ..).symm
  | skipped | succeeded => exact hack _ _
  | failed => simp only [goBack_of_obliging h, Nat.le_refl]

/-- The offset of the message that a consumer has just handled with success, if any. -/
def succeeded? (c : Consumer ρ) : Option Nat :=
  match c.phase with
  | .handling message work _ =>
    match work.result? with
    | some (.ok ()) => some message.offset
    | _ => none
  | _ => none

omit [Entity ρ] in
theorem succeeded?_handling {message : Delivery} {work : Handling ρ} {due : Nat}
    (hph : c.phase = .handling message work due) :
    c.succeeded? = if work.result? = some (.ok ()) then some message.offset else none := by
  unfold succeeded?
  rw [hph]
  dsimp only
  split
  · next h => rw [if_pos h]
  · next h => rw [if_neg h]

/-- A consumer that has handled a message with success goes on to the next one, unless it ends. -/
theorem phase_of_succeeded (h : c.succeeded?.isSome) (hstep : c.step now d = some (d', c')) :
    c'.phase = .asking ∨ c'.phase = .done := by
  unfold step at hstep
  split at hstep
  · cases hstep
  split at hstep
  · cases hstep
    exact .inr rfl
  cases hph : c.phase with
  | handling message work due =>
    rw [succeeded?_handling hph] at h
    split at h
    · next hres =>
      simp only [proceed, hph, hres, onOutcome] at hstep
      cases hstep
      exact .inl rfl
    · cases h
  | asking | waiting | resting | done => simp [succeeded?, hph] at h

/-- A consumer that has just handled a message with success does not have to wait. -/
theorem succeeded?_of_step_eq_none (hstep : c.step now d = none) : c.succeeded? = none := by
  cases hph : c.phase with
  | handling message work due =>
    rw [succeeded?_handling hph]
    split
    · next hres =>
      unfold step at hstep
      rw [if_neg (by simp [isDone, hph])] at hstep
      split at hstep
      · cases hstep
      · simp [proceed, hph, hres] at hstep
    · rfl
  | asking | waiting | resting | done => simp [succeeded?, hph]

omit [Entity ρ] in
/-- What a member that follows its topic handles with success is at its place, and it can read
it. -/
theorem Follows.succeeded {log : List Bytes} (hf : c.Follows topic c.handler.reads log) {i : Nat}
    (h : c.succeeded? = some i) :
    i = c.position ∧ ∃ payload, log[i]? = some payload ∧ c.handler.reads payload = true := by
  cases hph : c.phase with
  | handling message work due =>
    rw [succeeded?_handling hph] at h
    split at h
    · cases h
      obtain ⟨-, hat, hread, -⟩ := hf.handling _ _ _ hph
      refine ⟨?_, message.payload, hat, hread⟩
      rw [position, hph]
    · cases h
  | asking | waiting | resting | done => simp [succeeded?, hph] at h

theorem Moved.reads (hm : c.Moved d d' c') : c'.handler.reads = c.handler.reads := by
  cases hm with
  | ended | idled | skipped | worked | succeeded => rfl
  | began _ _ hbegin => exact (Handler.reads_of_begin_some hbegin).2
  | @failed message =>
    obtain ⟨b, s, heq, -⟩ := goBack_spec d c message
    rw [heq]

/-- What a move makes of a member that follows its topic: it stays at its place, and has not just
handled the message there with success; or it passes the message there, which it has just handled
with success if it can read it, and commits the offset behind it. A member that ends does no
more. -/
theorem Follows.step (hf : c.Follows topic c.handler.reads (d.broker.log topic))
    (hm : c.IsMember group topic) (hb : d.broker.Obliging) (hstep : c.step now d = some (d', c')) :
    c.succeeded? = none ∧ (c'.phase ≠ .done → c'.position = c.position) ∨
      ∃ payload, (d.broker.log topic)[c.position]? = some payload ∧
        c.succeeded? = (if c.handler.reads payload then some c.position else none) ∧
        (c'.phase ≠ .done → c'.position = c.position + 1 ∧
          Broker.nextOffset c.position ≤ d'.broker.committedOffset group topic) := by
  have hplace {x : Consumer ρ} (hx : ¬ x.IsHandling) :
      x.position = x.subscription.cursor ∧ x.succeeded? = none := by
    cases hph : x.phase with
    | handling => exact absurd ⟨_, _, _, hph⟩ hx
    | asking | waiting | resting | done => simp [position, succeeded?, hph]
  have hcommit (c : Consumer ρ) (hm : c.IsMember group topic) (message : Delivery) :
      Broker.nextOffset message.offset ≤
        (d.broker.ack c.subscription message.offset).committedOffset group topic := by
    rw [Broker.committedOffset_ack, if_pos (by rw [hm.1, hm.2])]
    exact Nat.le_max_right ..
  cases moved_of_step hstep with
  | ended =>
    cases hs : c.succeeded? with
    | none => exact .inl ⟨rfl, by simp⟩
    | some i =>
      obtain ⟨rfl, payload, hat, hread⟩ := hf.succeeded hs
      exact .inr ⟨payload, hat, by rw [if_pos hread], by simp⟩
  | idled _ hidle hidle' =>
    exact .inl ⟨(hplace hidle).2, fun _ => (hplace hidle').1.trans (hplace hidle).1.symm⟩
  | @skipped message subscription hph hpoll hnone =>
    obtain ⟨hmessage, hat, rfl⟩ := poll_eq_message hpoll
    obtain ⟨hposition, hnot⟩ := hplace (x := c) (by simp [IsHandling, hph])
    rw [hm.2] at hat
    rw [hposition, hnot, acknowledge_of_obliging hb]
    refine .inr ⟨message.payload, hat, ?_, fun _ => ⟨rfl, ?_⟩⟩
    · rw [Handler.reads_of_begin_none hnone]
      rfl
    · have hoffset : message.offset = c.subscription.cursor := congrArg Delivery.offset hmessage
      rw [← hoffset]
      exact hcommit { c with subscription :=
        { c.subscription with cursor := message.offset + 1 } } hm message
  | @began message subscription id work handler due log hph hpoll hsome =>
    obtain ⟨hmessage, -, rfl⟩ := poll_eq_message hpoll
    obtain ⟨hposition, hnot⟩ := hplace (x := c) (by simp [IsHandling, hph])
    refine .inl ⟨hnot, fun _ => ?_⟩
    rw [hposition, hmessage]
    rfl
  | @worked message work due now d' work' hph hres =>
    rw [succeeded?_handling hph, hres, position, position, hph]
    exact .inl ⟨rfl, fun _ => rfl⟩
  | @succeeded message work due hph hres =>
    obtain ⟨-, hat, hread, hcursor⟩ := hf.handling _ _ _ hph
    rw [succeeded?_handling hph, hres, if_pos rfl, acknowledge_of_obliging hb, position, position,
      hph]
    exact .inr ⟨message.payload, hat, by rw [if_pos hread],
      fun _ => ⟨hcursor, hcommit c hm message⟩⟩
  | @failed message work due hph =>
    obtain ⟨-, -, -, hcursor⟩ := hf.handling _ _ _ hph
    refine .inl ⟨?_, fun _ => ?_⟩
    · cases hs : c.succeeded? with
      | none => rfl
      | some i =>
        have hphase := phase_of_succeeded (by simp [hs]) hstep
        rcases hphase with h | h <;> cases h
    · rw [goBack_of_obliging hb, position, position, hph]
      simp [Subscription.rewind, hcursor]

end Consumer

/-! ## Migrations whose broker refuses nothing to its members -/

namespace Migration

variable {m : Migration ρ} {x : Happening ρ}

/-- What the turn of a consumer makes of a migration. -/
theorem perform_turn_consumer (m : Migration ρ) (n : Nat) :
    m.perform (.turn (.consumer n)) = m ∧
      (∀ c, m.consumers[n]? = some c → c.step m.now m.site = none) ∨
      ∃ c d' c', m.consumers[n]? = some c ∧ c.step m.now m.site = some (d', c') ∧
        m.perform (.turn (.consumer n)) =
          { m with site := d', consumers := m.consumers.set n c' } := by
  cases hc : m.consumers[n]? with
  | none => exact .inl ⟨by simp [perform, move, hc], by simp⟩
  | some c =>
    cases hstep : c.step m.now m.site with
    | none => exact .inl ⟨by simp [perform, move, hc, hstep],
        fun c' hc' => by cases hc'; exact hstep⟩
    | some next => exact .inr ⟨c, next.1, next.2, rfl, hstep, perform_consumer hc hstep⟩

theorem obliging_perform (h : m.site.broker.Obliging) (x : Happening ρ) :
    (m.perform x).site.broker.Obliging := by
  cases x with
  | turn t =>
    by_cases ht : ∃ n, t = .consumer n
    · obtain ⟨n, rfl⟩ := ht
      rcases m.perform_turn_consumer n with ⟨heq, -⟩ | ⟨c, d', c', -, hstep, heq⟩
      · rwa [heq]
      · rw [heq]
        exact Consumer.obliging_of_step h hstep
    rcases m.perform_turn t with heq | ⟨m', heq, hmoved⟩
    · rwa [heq]
    · rw [heq]
      cases hmoved with
      | job _ _ _ hp | run _ hp => exact hp.obliging h
      | consumer => exact absurd ⟨_, rfl⟩ ht
      | post _ hp => exact Deployment.frames_obliging.post hp h
  | order o =>
    rcases m.perform_order o with heq | ⟨_, _, _, -, heq⟩
    · rwa [heq]
    · rw [heq]
      exact h
  | join handler group topic limit backoff stopped =>
    have hs := h.scripted (show BrokerOp.subscribe ≠ .publish by decide)
    simp only [perform, startConsumer, subscribe, refusable, hs]
    exact h
  | edit side store =>
    change (m.site.setStore store side).broker.Obliging
    rwa [Deployment.broker_setStore]
  | plan side faults => exact h.alike (m.site.alike_setFaults side faults).broker
  | time | stopJob | stop | abort | startRun | stopRun | post | planBroker | close => exact h

/-- The members of a group follow their topic, of which no more is committed than there is. -/
structure Orderly (group topic : String) (m : Migration ρ) : Prop where
  obliging : m.site.broker.Obliging
  committed_le : m.site.broker.committedOffset group topic ≤ (m.site.broker.log topic).length
  member : ∀ c ∈ m.consumers, c.IsMember group topic → c.phase ≠ .done →
    c.Follows topic c.handler.reads (m.site.broker.log topic)

theorem Orderly.perform (h : m.Orderly group topic) (x : Happening ρ) :
    (m.perform x).Orderly group topic ∧
      m.site.broker.log topic <+: (m.perform x).site.broker.log topic ∧
      m.site.broker.committedOffset group topic ≤
        (m.perform x).site.broker.committedOffset group topic := by
  have hobliging := obliging_perform h.obliging x
  have hs := m.stirred_perform x
  generalize m.perform x = m' at hs hobliging
  -- a member that is where it was still follows the log, which may have grown
  have hkept {c c' : Consumer ρ} (hlog : m.site.broker.log topic <+: m'.site.broker.log topic)
      (hc : c ∈ m.consumers) (hk : c.Kept c') (hm : c'.IsMember group topic)
      (hdone : c'.phase ≠ .done) :
      c'.Follows topic c'.handler.reads (m'.site.broker.log topic) := by
    obtain ⟨hsub, hhandler, hphase⟩ := hk
    have hphase := hphase.resolve_right hdone
    rw [Consumer.IsMember, hsub] at hm
    have hf := (h.member c hc hm (hphase ▸ hdone)).grown hlog
    exact ⟨rfl, hsub ▸ hf.cursor, by rw [hphase, hsub, hhandler]; exact hf.handling⟩
  cases hs with
  | kept hg hk =>
    have hlog := hg.log topic
    refine ⟨⟨hobliging, ?_, fun c' hc' hm hdone => ?_⟩, hlog, Nat.le_of_eq (hg.committed ..).symm⟩
    · rw [hg.committed]
      exact Nat.le_trans h.committed_le hlog.length_le
    · obtain ⟨c, hc, hkeep⟩ := hk c' hc'
      exact hkept hlog hc hkeep hm hdone
  | joined hg hsub hhandler hph hconsumers =>
    have hlog := hg.log topic
    have hle := Nat.le_trans h.committed_le hlog.length_le
    refine ⟨⟨hobliging, ?_, fun c' hc' hm hdone => ?_⟩, hlog, Nat.le_of_eq (hg.committed ..).symm⟩
    · rwa [hg.committed]
    · rw [hconsumers] at hc'
      rcases List.mem_append.mp hc' with hc' | hc'
      · exact hkept hlog hc' (.refl c') hm hdone
      · obtain rfl := List.mem_singleton.mp hc'
        rw [Consumer.IsMember, hsub] at hm
        obtain ⟨rfl, rfl⟩ := hm
        refine ⟨rfl, ?_, fun _ _ _ hph' => ?_⟩
        · rw [hsub]
          exact hle
        · rw [hph] at hph'
          cases hph'
  | @moved n c d' c' hc hmove =>
    have hlog := hmove.log topic
    have hmem := List.mem_of_getElem? hc
    refine ⟨⟨hobliging, Nat.le_of_not_lt fun hlt => ?_, fun y hy hm hdone => ?_⟩, hlog,
      hmove.committed_le h.obliging ..⟩
    · have hle := hlog.length_le
      rcases hmove.committed (fun hm hdone => h.member c hmem hm hdone) hlt with hi |
        ⟨-, -, hi, payload, hat, -⟩
      · have := h.committed_le
        simp only at hle hi
        omega
      · have := (List.getElem?_eq_some_iff.mp hat).1
        simp only at hle hi
        omega
    · rcases List.mem_or_eq_of_mem_set hy with hy | rfl
      · exact hkept hlog hy (.refl y) hm hdone
      · obtain ⟨hgroup, htopic⟩ := hmove.subscription
        rw [Consumer.IsMember, hgroup, htopic] at hm
        have hf := h.member c hmem hm (hmove.not_done hdone)
        have hf' := (hf.move hm.2 (h.obliging _ (by decide)) hmove hdone).1
        rw [hf'.handler]
        exact hf'.grown hlog

/-! ## What a consumer has handled -/

/-- The offset of the message that the consumer with a number has just handled with success, when it
takes its turn. -/
def handled? (m : Migration ρ) (n : Nat) : Happening ρ → Option Nat
  | .turn t => if t = .consumer n then (m.consumers[n]?).bind Consumer.succeeded? else none
  | _ => none

/-- The offsets of the messages that the consumer with a number handles with success in the course
of a history, in order. -/
def handled (n : Nat) (m : Migration ρ) : List (Happening ρ) → List Nat
  | [] => []
  | x :: rest => (m.handled? n x).toList ++ (m.perform x).handled n rest

theorem handled_append (n : Nat) (m : Migration ρ) (past rest : List (Happening ρ)) :
    m.handled n (past ++ rest) = m.handled n past ++ (m.after past).handled n rest := by
  induction past generalizing m with
  | nil => rfl
  | cons x past ih =>
    change _ ++ (m.perform x).handled n (past ++ rest) = _
    rw [ih, ← List.append_assoc]
    rfl

theorem exists_consumer_after {n : Nat} {c : Consumer ρ} (hc : m.consumers[n]? = some c)
    (history : List (Happening ρ)) : ∃ c', (m.after history).consumers[n]? = some c' := by
  induction history generalizing m c with
  | nil => exact ⟨c, hc⟩
  | cons x rest ih =>
    obtain ⟨c', hc', -⟩ := isDone_perform hc x
    exact ih hc'

/-- A consumer that has not joined yet has handled nothing. -/
theorem handled_of_absent {n : Nat} {history : List (Happening ρ)}
    (h : (m.after history).consumers[n]? = none) : m.handled n history = [] := by
  induction history generalizing m with
  | nil => rfl
  | cons x rest ih =>
    cases hc : m.consumers[n]? with
    | some c =>
      obtain ⟨c', hc'⟩ := exists_consumer_after hc (x :: rest)
      rw [h] at hc'
      cases hc'
    | none =>
      have hnone : m.handled? n x = none := by
        cases x with
        | turn t =>
          simp only [handled?, hc]
          split <;> rfl
        | _ => rfl
      rw [handled, hnone, ih h]
      rfl

/-- The offsets, from one up to another, at which there is something readable in a log. -/
def legible (readable : Bytes → Bool) (log : List Bytes) (start stop : Nat) : List Nat :=
  (List.range' start (stop - start)).filter fun i => (log[i]?).any readable

section Legible

variable {readable : Bytes → Bool} {log log' : List Bytes} {start stop : Nat}

theorem legible_self (readable : Bytes → Bool) (log : List Bytes) (start : Nat) :
    legible readable log start start = [] := by
  rw [legible, Nat.sub_self]
  rfl

theorem legible_succ (h : start ≤ stop) :
    legible readable log start (stop + 1) =
      legible readable log start stop ++ if (log[stop]?).any readable then [stop] else [] := by
  have hlast : start + 1 * (stop - start) = stop := by omega
  rw [legible, legible, Nat.succ_sub h, List.range'_concat, List.filter_append, hlast]
  simp only [List.filter_cons, List.filter_nil]

theorem legible_grown (h : log <+: log') (hstop : stop ≤ log.length) :
    legible readable log' start stop = legible readable log start stop := by
  refine List.filter_congr fun i hi => ?_
  have hlt : i < log.length := by
    have := (List.mem_range'_1.mp hi)
    omega
  rw [(List.prefix_iff_getElem?.mp h i hlt), List.getElem?_eq_getElem hlt]

theorem pairwise_legible : (legible readable log start stop).Pairwise (· < ·) :=
  List.Pairwise.filter _ List.pairwise_lt_range'

end Legible

/-- The consumer with a number, which started at an offset, has handled with success what it can
read up to its place. While it goes on, this is committed. -/
def Sequential (m : Migration ρ) (n : Nat) (group topic : String) (readable : Bytes → Bool)
    (start : Nat) (handled : List Nat) : Prop :=
  ∃ c stop, m.consumers[n]? = some c ∧ c.IsMember group topic ∧ c.handler.reads = readable ∧
    start ≤ stop ∧ stop ≤ (m.site.broker.log topic).length ∧
    handled = legible readable (m.site.broker.log topic) start stop ∧
    (c.phase ≠ .done → c.position = stop ∧ ((m.site.broker.log topic).length < UInt64.size →
      stop ≤ m.site.broker.committedOffset group topic))

section Sequential

variable {n start : Nat} {readable : Bytes → Bool} {handled : List Nat}

/-- A consumer that stays at its place, or ends, has handled what it had. -/
theorem Sequential.keep (h : m.Sequential n group topic readable start handled) {m' : Migration ρ}
    (hlog : m.site.broker.log topic <+: m'.site.broker.log topic)
    (hcommitted : m.site.broker.committedOffset group topic ≤
      m'.site.broker.committedOffset group topic)
    (hconsumer : ∀ c, m.consumers[n]? = some c → ∃ c', m'.consumers[n]? = some c' ∧
      c'.subscription.group = c.subscription.group ∧ c'.subscription.topic = c.subscription.topic ∧
      c'.handler.reads = c.handler.reads ∧
      (c'.phase ≠ .done → c.phase ≠ .done ∧ c'.position = c.position)) :
    m'.Sequential n group topic readable start handled := by
  obtain ⟨c, stop, hc, hm, hreads, hstart, hstop, hhandled, hplace⟩ := h
  obtain ⟨c', hc', hgroup, htopic, hreads', hgo⟩ := hconsumer c hc
  have hlen := hlog.length_le
  refine ⟨c', stop, hc', ⟨hgroup.trans hm.1, htopic.trans hm.2⟩, hreads'.trans hreads, hstart,
    Nat.le_trans hstop hlen, ?_, fun hdone => ?_⟩
  · rw [hhandled, legible_grown hlog hstop]
  · obtain ⟨hdone, hposition⟩ := hgo hdone
    obtain ⟨hat, hle⟩ := hplace hdone
    exact ⟨hposition.trans hat,
      fun hsize => Nat.le_trans (hle (Nat.lt_of_le_of_lt hlen hsize)) hcommitted⟩

/-- The turn of a consumer itself. -/
theorem Sequential.turn (h : m.Sequential n group topic readable start handled)
    (ho : m.Orderly group topic) :
    (m.perform (.turn (.consumer n))).Sequential n group topic readable start
      (handled ++ (m.handled? n (.turn (.consumer n))).toList) := by
  obtain ⟨-, hlog, hcommitted⟩ := ho.perform (.turn (.consumer n))
  have hall := h
  obtain ⟨c, stop, hc, hm, hreads, hstart, hstop, hhandled, hplace⟩ := h
  have hsucc : m.handled? n (.turn (.consumer n)) = c.succeeded? := by simp [handled?, hc]
  rw [hsucc]
  rcases m.perform_turn_consumer n with ⟨heq, hwaits⟩ | ⟨x, d', c', hx, hstep, heq⟩
  · rw [heq, Consumer.succeeded?_of_step_eq_none (hwaits c hc), Option.toList_none, List.append_nil]
    exact hall
  obtain rfl : c = x := Option.some.inj (hc.symm.trans hx)
  have hmove := Consumer.moved_of_step hstep
  have hdone : c.phase ≠ .done := fun hph => by simp [Consumer.step, Consumer.isDone, hph] at hstep
  have hf := ho.member c (List.mem_of_getElem? hc) hm hdone
  have hc' : (m.perform (.turn (.consumer n))).consumers[n]? = some c' := by
    rw [heq]
    exact List.getElem?_set_self (List.getElem?_eq_some_iff.mp hc).1
  have hsite : (m.perform (.turn (.consumer n))).site = d' := by rw [heq]
  obtain ⟨hgroup, htopic⟩ := hmove.subscription
  obtain ⟨hat, hle⟩ := hplace hdone
  rcases hf.step hm ho.obliging hstep with ⟨hnone, hstays⟩ | ⟨payload, hpayload, hsome, hpasses⟩
  · rw [hnone, Option.toList_none, List.append_nil]
    refine hall.keep hlog hcommitted fun y hy => ⟨c', hc', ?_⟩
    obtain rfl : c = y := Option.some.inj (hc.symm.trans hy)
    exact ⟨hgroup, htopic, hmove.reads, fun hdone' => ⟨hdone, hstays hdone'⟩⟩
  · rw [hat] at hpayload hsome hpasses
    have hlt := (List.getElem?_eq_some_iff.mp hpayload).1
    have hlen := hlog.length_le
    refine ⟨c', stop + 1, hc', ⟨hgroup.trans hm.1, htopic.trans hm.2⟩,
      hmove.reads.trans hreads, by omega,
      by omega, ?_, fun hdone' => ?_⟩
    · rw [legible_grown hlog hlt, legible_succ hstart, hhandled, hsome, hpayload, Option.any_some,
        hreads]
      split <;> rfl
    · obtain ⟨hposition, hnext⟩ := hpasses hdone'
      refine ⟨hposition, fun hsize => ?_⟩
      have hoffset : Broker.nextOffset stop = stop + 1 := Nat.mod_eq_of_lt (by omega)
      rw [hsite, ← hoffset]
      exact hnext

theorem Sequential.perform (h : m.Sequential n group topic readable start handled)
    (ho : m.Orderly group topic) (x : Happening ρ) :
    (m.perform x).Sequential n group topic readable start (handled ++ (m.handled? n x).toList) := by
  by_cases hx : x = .turn (.consumer n)
  · rw [hx]
    exact h.turn ho
  have hnone : m.handled? n x = none := by
    cases x with
    | turn t =>
      refine if_neg fun ht => hx ?_
      rw [ht]
    | _ => rfl
  obtain ⟨-, hlog, hcommitted⟩ := ho.perform x
  rw [hnone, Option.toList_none, List.append_nil]
  refine h.keep hlog hcommitted fun c hc => ?_
  obtain ⟨c', hc', -⟩ := isDone_perform hc x
  refine ⟨c', hc', ?_⟩
  rcases consumer_perform hc' with ⟨y, hy, ⟨hsub, hhandler, hphase⟩ | ⟨heq, -⟩⟩ | ⟨hno, -⟩
  · obtain rfl : c = y := Option.some.inj (hc.symm.trans hy)
    refine ⟨by rw [hsub], by rw [hsub], by rw [hhandler], fun hdone => ?_⟩
    have hphase := hphase.resolve_right hdone
    exact ⟨hphase ▸ hdone, by rw [Consumer.position, Consumer.position, hphase, hsub]⟩
  · exact absurd heq hx
  · rw [hc] at hno
    cases hno

theorem Sequential.after (h : m.Sequential n group topic readable start handled)
    (ho : m.Orderly group topic) (history : List (Happening ρ)) :
    (m.after history).Orderly group topic ∧
      (m.after history).Sequential n group topic readable start
        (handled ++ m.handled n history) := by
  induction history generalizing m handled with
  | nil =>
    rw [Migration.handled, List.append_nil]
    exact ⟨ho, h⟩
  | cons x rest ih =>
    rw [Migration.handled, ← List.append_assoc]
    exact ih (h.perform ho x) (ho.perform x).1

end Sequential

theorem Orderly.after (h : m.Orderly group topic) (history : List (Happening ρ)) :
    (m.after history).Orderly group topic := by
  induction history generalizing m with
  | nil => exact h
  | cons x rest ih => exact ih (h.perform x).1

/-- A consumer that joins has everything before it. -/
theorem sequential_join (h : m.Orderly group topic) (handler : Handler) (limit backoff : Nat)
    (stopped : Bool) :
    (m.perform (.join handler group topic limit backoff stopped)).Sequential m.consumers.length
      group topic handler.reads (m.site.broker.committedOffset group topic) [] := by
  have hs := h.obliging.scripted (show BrokerOp.subscribe ≠ .publish by decide)
  simp only [perform, startConsumer, subscribe, refusable, hs]
  refine ⟨_, m.site.broker.committedOffset group topic, List.getElem?_concat_length, ⟨rfl, rfl⟩,
    rfl,
    Nat.le_refl _, h.committed_le, (legible_self ..).symm, fun _ => ⟨rfl, fun _ => Nat.le_refl _⟩⟩

/-- A consumer handles messages in order, one at a time. When it begins with a message, what it has
handled with success is everything that it can read between the offset at which it started and this
message, each once, and it can read the message. When it waits for a message, everything in the
topic is committed, whether it is the only member of its group or not. -/
theorem handled_in_order {m : Migration ρ} {past rest : List (Happening ρ)} {handler : Handler}
    {limit backoff : Nat} {stopped : Bool} (hobliging : m.site.broker.Obliging)
    (hcommitted : m.site.broker.committedOffset group topic ≤ (m.site.broker.log topic).length)
    (hmembers : ∀ c ∈ m.consumers, ¬ c.IsMember group topic) {history : List (Happening ρ)}
    (hhistory : history = past ++ .join handler group topic limit backoff stopped :: rest) :
    ∃ c stop, (m.after history).consumers[(m.after past).consumers.length]? = some c ∧
      m.handled (m.after past).consumers.length history =
        legible handler.reads ((m.after history).site.broker.log topic)
          ((m.after past).site.broker.committedOffset group topic) stop ∧
      (m.handled (m.after past).consumers.length history).Pairwise (· < ·) ∧
      (∀ message work due, c.phase = .handling message work due → message.offset = stop ∧
        ((m.after history).site.broker.log topic)[stop]? = some message.payload ∧
        handler.reads message.payload = true) ∧
      (c.phase = .waiting → (m.after history).site.broker.poll c.subscription = .nothing →
        ((m.after history).site.broker.log topic).length < UInt64.size →
        (m.after history).site.broker.committedOffset group topic =
          ((m.after history).site.broker.log topic).length) := by
  subst hhistory
  have ho : (m.after past).Orderly group topic :=
    Orderly.after ⟨hobliging, hcommitted, fun c hc hm => absurd hm (hmembers c hc)⟩ past
  have hjoin := sequential_join ho handler limit backoff stopped
  obtain ⟨ho', hs⟩ := hjoin.after (ho.perform _).1 rest
  have habsent : m.handled (m.after past).consumers.length past = [] :=
    handled_of_absent (List.getElem?_eq_none_iff.mpr (Nat.le_refl _))
  have hnow : (m.after past).handled? (m.after past).consumers.length
      (.join handler group topic limit backoff stopped) = none := rfl
  rw [after_append, handled_append, habsent, handled, hnow]
  simp only [Option.toList_none, List.nil_append]
  change ∃ c stop, (((m.after past).perform _).after rest).consumers[_]? = some c ∧ _
  obtain ⟨c, stop, hc, hm, hreads, hstart, hstop, hhandled, hplace⟩ := hs
  rw [List.nil_append] at hhandled
  have hmem := List.mem_of_getElem? hc
  refine ⟨c, stop, hc, hhandled, ?_, fun message work due hph => ?_, fun hph hpoll hsize => ?_⟩
  · rw [hhandled]
    exact pairwise_legible
  · have hdone : c.phase ≠ .done := by simp [hph]
    obtain ⟨-, hat, hread, -⟩ := (ho'.member c hmem hm hdone).handling _ _ _ hph
    have hposition : message.offset = stop := by
      rw [← (hplace hdone).1, Consumer.position, hph]
    exact ⟨hposition, hposition ▸ hat, hreads ▸ hread⟩
  · have hdone : c.phase ≠ .done := by simp [hph]
    obtain ⟨hposition, hle⟩ := hplace hdone
    have hlen := Broker.length_le_of_poll hpoll
    have hcursor : c.position = c.subscription.cursor := by rw [Consumer.position, hph]
    rw [hm.2, ← hcursor, hposition] at hlen
    exact Nat.le_antisymm ho'.committed_le (Nat.le_trans hlen (hle hsize))

/-- What happens before the second member of `sampleHistory` joins. -/
def samplePast : List (Happening Account) := sampleHistory.take 9

/-- What happens when it has joined. -/
def sampleRest : List (Happening Account) := sampleHistory.drop 10

theorem handled_in_order_sample :
    sampleQueue.site.broker.Obliging ∧
      sampleHistory = samplePast ++
        .join sampleHandler "group" "changes" 1000 100 false :: sampleRest ∧
      sampleQueue.handled 1 sampleHistory = [1] ∧
      ∃ c stop, (sampleQueue.after sampleHistory).consumers[
          (sampleQueue.after samplePast).consumers.length]? = some c ∧
        sampleQueue.handled (sampleQueue.after samplePast).consumers.length sampleHistory =
          legible sampleHandler.reads ((sampleQueue.after sampleHistory).site.broker.log "changes")
            ((sampleQueue.after samplePast).site.broker.committedOffset "group" "changes")
              stop := by
  have hobliging : sampleQueue.site.broker.Obliging := fun _ _ => rfl
  have hhistory : sampleHistory =
      samplePast ++ .join sampleHandler "group" "changes" 1000 100 false :: sampleRest := rfl
  have hcommitted : sampleQueue.site.broker.committedOffset "group" "changes" ≤
      (sampleQueue.site.broker.log "changes").length := Nat.zero_le _
  refine ⟨hobliging, hhistory, by decide +kernel, ?_⟩
  obtain ⟨c, stop, hc, hhandled, -⟩ :=
    handled_in_order hobliging hcommitted (fun c hc => by cases hc) hhistory
  exact ⟨c, stop, hc, hhandled⟩

end Migration

end Cutover
