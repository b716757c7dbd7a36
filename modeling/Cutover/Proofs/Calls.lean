import Cutover.Deployment
import Mathlib.Data.Option.Basic

/-!
# What a call can do

Each move of a task that waits for a call starts the call, answers it or fails it. The inductive
predicates `Flight.Moved`, `Deployment.Called` and `Deployment.Posted` name these cases once, with
all that the move does to the deployment. A call fails only if something is amiss: the task was
asked to stop, a refusal is planned, or the call takes longer than its limit (`Deployment.Prompt`
says that nothing is).
-/

namespace Cutover

variable {ρ : Type} [Entity ρ]

/-! ## Moves of a call -/

namespace Flight

variable {σ α : Type}

/-- What a move makes of a collaborator and of the call on it. -/
inductive Moved (m : Moment) (limit : Option Nat) (start : σ → σ × Opening)
    (finish : σ → Except Error α × σ) (s : σ) : Option Flight → σ → Progress α → Prop where
  | stopped {flight} : m.stopped = true →
      Moved m limit start finish s flight s (.answered (.error .cancelled))
  | started : m.stopped = false →
      Moved m limit start finish s none (start s).1
        (.underway ⟨m.now + (start s).2.delay, limit.map (m.now + ·), (start s).2.refused⟩)
  | refused {f e} : m.stopped = false → f.ready ≤ m.now → f.refused = some e →
      Moved m limit start finish s (some f) s (.answered (.error e))
  | finished {f} : m.stopped = false → f.ready ≤ m.now → f.refused = none →
      Moved m limit start finish s (some f) (finish s).2 (.answered (finish s).1)
  | late {f} : m.stopped = false → m.now < f.ready → f.isOverdue m.now = true →
      Moved m limit start finish s (some f) s (.answered (.error .deadlineExceeded))

theorem moved_of_step {m : Moment} {limit : Option Nat} {start : σ → σ × Opening}
    {finish : σ → Except Error α × σ} {flight : Option Flight} {s s' : σ} {p : Progress α}
    (h : step m limit start finish flight s = some (s', p)) :
    Moved m limit start finish s flight s' p := by
  unfold step at h
  by_cases hs : m.stopped = true
  · rw [if_pos hs] at h
    cases h
    exact .stopped hs
  · have hs' : m.stopped = false := by simpa using hs
    rw [if_neg hs] at h
    cases flight with
    | none => cases h; exact .started hs'
    | some f =>
      by_cases hr : f.ready ≤ m.now
      · simp only [hr, if_true] at h
        cases hf : f.refused with
        | some e => simp only [hf] at h; cases h; exact .refused hs' hr hf
        | none => simp only [hf] at h; cases h; exact .finished hs' hr hf
      · simp only [hr, if_false] at h
        by_cases hd : f.isOverdue m.now = true
        · rw [if_pos hd] at h
          cases h
          exact .late hs' (Nat.not_le.mp hr) hd
        · rw [if_neg hd] at h
          cases h

/-- What the start and the end of a call keep, each move of it keeps. -/
theorem keeps_of_step {P : σ → Prop} {m : Moment} {limit : Option Nat} {start : σ → σ × Opening}
    {finish : σ → Except Error α × σ} {flight : Option Flight} {s s' : σ} {p : Progress α}
    (hstart : P s → P (start s).1) (hfinish : P s → P (finish s).2)
    (h : step m limit start finish flight s = some (s', p)) (hs : P s) : P s' := by
  cases moved_of_step h with
  | stopped | refused | late => exact hs
  | started => exact hstart hs
  | finished => exact hfinish hs

/-- A call that will be answered, and not later than its limit. -/
def Prompt (f : Flight) : Prop := f.refused = none ∧ ∀ t ∈ f.due, f.ready ≤ t

theorem Prompt.not_late {f : Flight} (h : f.Prompt) {now : Nat} (hr : now < f.ready) :
    f.isOverdue now = false := by
  unfold isOverdue
  cases hd : f.due with
  | none => rfl
  | some t =>
    have := h.2 t hd
    simp only [decide_eq_false_iff_not]
    omega

end Flight

/-! ## Collaborators without faults -/

/-- No call is going to be refused, and none takes longer than a limit. -/
def FaultPlan.Prompt (limit : Nat) (f : FaultPlan) : Prop :=
  (∀ op, f.armed.getD op 0 = 0) ∧ f.latency ≤ limit

/-- A store that refuses no call and answers within a limit. -/
def Store.Prompt (limit : Nat) (s : Store ρ) : Prop :=
  s.faults.Prompt limit ∧ ∀ op, s.script.getD op [] = []

/-- A store that refuses no call when it starts. -/
def Store.Plain (s : Store ρ) : Prop := ∀ op, s.script.getD op [] = []

/-- A store with the same rows, in which not more is refused when it starts. -/
structure Store.Alike (s s' : Store ρ) : Prop where
  contents : s'.contents = s.contents
  plain : s.Plain → s'.Plain

/-- A broker that publishes whatever it is given within a limit. -/
def Broker.Prompt (limit : Nat) (b : Broker) : Prop :=
  b.closed = false ∧ b.faults.Prompt limit ∧ b.script.getD .publish [] = []

/-- The parts of a migration when nothing goes wrong. -/
def Deployment.Prompt (limit : Nat) (d : Deployment ρ) : Prop :=
  (∀ side, (d.store side).Prompt limit) ∧ d.broker.Prompt limit

theorem FaultPlan.Prompt.start {limit : Nat} {f : FaultPlan} (h : f.Prompt limit) :
    f.start.Prompt limit := h

theorem FaultPlan.Prompt.refusal?_eq_none {limit : Nat} {f : FaultPlan} (h : f.Prompt limit)
    (op : String) : f.refusal? op = none := by
  unfold refusal?
  rw [spend_eq, spend_eq, if_pos (h.1 _), if_pos (h.1 _)]
  rfl

theorem Store.Prompt.start {limit : Nat} {s : Store ρ} (h : s.Prompt limit) (c : Call ρ) :
    (s.start c).1.Prompt limit ∧ (s.start c).2.refused = none ∧ (s.start c).2.delay ≤ limit := by
  have hs := h.2 c.op
  unfold Store.start
  rw [hs]
  exact ⟨⟨h.1.start, h.2⟩, rfl, h.1.2⟩

theorem Store.Plain.start {s : Store ρ} (h : s.Plain) (c : Call ρ) :
    (s.start c).1.Plain ∧ (s.start c).2.refused = none := by
  have hs := h c.op
  unfold Store.start
  rw [hs]
  exact ⟨h, rfl⟩

theorem FaultPlan.refusal?_start (f : FaultPlan) (op : String) :
    f.start.refusal? op = none ↔ f.refusal? op = none := by
  have hspend (name : String) : f.start.spend name = none ↔ f.spend name = none := by
    rw [spend_eq, spend_eq]
    change (if f.armed.getD name 0 = 0 then none else some _) = none ↔ _
    split <;> simp
  simp only [refusal?, Option.orElse_eq_none, hspend]

namespace Store

variable {s : Store ρ} {c : Call ρ}

theorem faults_start (h : s.Plain) (c : Call ρ) : (s.start c).1.faults = s.faults.start := by
  simp [start, h c.op]

/-- A call that no fault hits gives what the rows give. -/
theorem finish_permitted (h : s.Plain) (hr : s.faults.refusal? c.op = none) :
    ((s.start c).1.finish c).1 = (s.contents.run c).1 ∧
      ((s.start c).1.finish c).2.contents = (s.contents.run c).2 := by
  have hstart : (s.start c).1.faults.refusal? c.op = none := by
    rw [faults_start h]
    exact (FaultPlan.refusal?_start ..).mpr hr
  rw [finish, hstart, contents_start]
  exact ⟨rfl, rfl⟩

/-- A call that a fault hits changes no rows. -/
theorem finish_refused (h : s.Plain) (hr : s.faults.refusal? c.op ≠ none) :
    ((s.start c).1.finish c).1 = .error (FaultPlan.refusal s.name c.op) ∧
      ((s.start c).1.finish c).2.contents = s.contents := by
  have hstart : (s.start c).1.faults.refusal? c.op ≠ none := by
    rw [faults_start h]
    exact mt (FaultPlan.refusal?_start ..).mp hr
  obtain ⟨faults, hfaults⟩ := Option.ne_none_iff_exists'.mp hstart
  rw [finish, hfaults, name_start]
  exact ⟨rfl, contents_start ..⟩

end Store

theorem Store.Alike.refl (s : Store ρ) : s.Alike s := ⟨rfl, id⟩

theorem Store.alike_start (s : Store ρ) (c : Call ρ) : s.Alike (s.start c).1 :=
  ⟨Store.contents_start .., fun h => (h.start c).1⟩

theorem Store.Prompt.withContents {limit : Nat} {s : Store ρ} (h : s.Prompt limit)
    (contents : Contents ρ) : ({ s with contents } : Store ρ).Prompt limit := h

theorem Deployment.Prompt.setStore {limit : Nat} {d : Deployment ρ} (h : d.Prompt limit)
    {s : Store ρ} (hs : s.Prompt limit) (side : Side) : (d.setStore s side).Prompt limit := by
  refine ⟨fun other => ?_, by simpa using h.2⟩
  rw [store_setStore]
  split
  · exact hs
  · exact h.1 other

/-- The parts of a migration between two tables, when nothing has happened yet. -/
def Deployment.ofRows (src dst : List ρ) (policy : Policy) : Deployment ρ where
  src := .ofTable Side.src.name src
  dst := .ofTable Side.dst.name dst
  policy

theorem Deployment.prompt_ofRows (src dst : List ρ) (policy : Policy) (limit : Nat) :
    (ofRows src dst policy).Prompt limit :=
  ⟨fun side => by cases side <;> exact ⟨⟨fun _ => rfl, Nat.zero_le _⟩, fun _ => rfl⟩,
    rfl, ⟨fun _ => rfl, Nat.zero_le _⟩, rfl⟩

/-! ## Calls to stores -/

namespace Contents

variable {s : Contents ρ} {id : Int} {r : ρ}

theorem run_first_some (h : Rows.first? id s.rows = some r) : s.run (.first id) = (.ok r, s) := by
  simp only [run, get?_eq_first?, h]

theorem run_first_none (h : Rows.first? id s.rows = none) :
    s.run (.first id) = (.error .notFound, s) := by
  simp only [run, get?_eq_first?, h]

theorem run_findIds (s : Contents ρ) (ids : List Int) :
    s.run (.findIds ids) = (.ok ((Rows.ofIds ids s.rows).map Entity.id), s) := by
  rw [run, filter_keys]

end Contents

namespace Deployment

variable {d d' : Deployment ρ} {m : Moment} {limit : Nat} {side : Side} {c : Call ρ}
  {flight : Option Flight}

/-- What a move makes of a deployment and of a call to one of its stores. -/
inductive Called (d : Deployment ρ) (m : Moment) (limit : Option Nat) (side : Side) (c : Call ρ) :
    Option Flight → Deployment ρ → Progress c.Answer → Prop where
  | begun {f : Flight} {s : Store ρ} : m.stopped = false → (d.store side).Alike s →
      ((d.store side).Plain → f.refused = none) →
      (∀ l, limit.all (l ≤ ·) → (d.store side).Prompt l → f.Prompt ∧ s.Prompt l) →
      Called d m limit side c none (d.setStore s side) (.underway f)
  | answered {f : Flight} {s : Store ρ} : m.stopped = false → f.ready ≤ m.now →
      s.contents = ((d.store side).contents.run c).2 → ((d.store side).Plain → s.Plain) →
      (∀ l, (d.store side).Prompt l → s.Prompt l) →
      Called d m limit side c (some f) (d.setStore s side)
        (.answered ((d.store side).contents.run c).1)
  | failed {flight : Option Flight} {s : Store ρ} {e : Error} : (d.store side).Alike s →
      ((∀ f ∈ flight, f.refused = none) → e ≠ .notFound) →
      ¬ (m.stopped = false ∧ (∃ l, (d.store side).Prompt l) ∧ ∀ f ∈ flight, f.Prompt) →
      Called d m limit side c flight (d.setStore s side) (.answered (.error e))

@[simp] theorem store_withBroker (d : Deployment ρ) (b : Broker) (side : Side) :
    ({ d with broker := b } : Deployment ρ).store side = d.store side := by cases side <;> rfl

theorem called_of_call {limit : Option Nat} {p : Progress c.Answer}
    (h : d.call m limit side c flight = some (d', p)) : Called d m limit side c flight d' p := by
  obtain ⟨⟨s, q⟩, hstep, heq⟩ := Option.map_eq_some_iff.mp h
  cases heq
  cases Flight.moved_of_step hstep with
  | stopped hs =>
    refine .failed (.refl _) (fun _ => by simp) fun hfine => ?_
    simp [hs] at hfine
  | started hs =>
    refine .begun hs (Store.alike_start ..) (fun h => (h.start c).2) fun l hl hp => ?_
    obtain ⟨hp', href, hdelay⟩ := hp.start c
    refine ⟨⟨href, fun t ht => ?_⟩, hp'⟩
    obtain ⟨b, rfl, rfl⟩ := Option.map_eq_some_iff.mp ht
    have : l ≤ b := by simpa using hl
    exact Nat.add_le_add_left (Nat.le_trans hdelay this) _
  | refused hs hr hf =>
    refine .failed (.refl _) (fun hplain => ?_) fun ⟨_, _, hfine⟩ => ?_
    · simp [hplain _ rfl] at hf
    · simp [(hfine _ rfl).1] at hf
  | late hs hr hd =>
    refine .failed (.refl _) (fun _ => by simp) fun ⟨_, _, hfine⟩ => ?_
    simp [(hfine _ rfl).not_late hr] at hd
  | finished hs hr hf =>
    cases href : (d.store side).faults.refusal? c.op with
    | some faults =>
      have hfin : (d.store side).finish c =
          (.error (FaultPlan.refusal (d.store side).name c.op), { d.store side with faults }) := by
        unfold Store.finish; rw [href]
      rw [hfin]
      refine .failed ⟨rfl, id⟩ (fun _ => by simp [FaultPlan.refusal]) fun ⟨_, ⟨l, hp⟩, _⟩ => ?_
      simp [hp.1.refusal?_eq_none] at href
    | none =>
      have hfin : (d.store side).finish c = (((d.store side).contents.run c).1,
          { d.store side with contents := ((d.store side).contents.run c).2 }) := by
        unfold Store.finish; rw [href]
      rw [hfin]
      exact .answered hs hr rfl id fun l hp => hp.withContents _

/-- A task that waits for a call whose delay is over moves. -/
theorem call_isSome {limit : Option Nat} (h : ∀ f ∈ flight, f.ready ≤ m.now) :
    (d.call m limit side c flight).isSome := by
  unfold call
  rw [Option.isSome_map, Option.isSome_iff_ne_none]
  intro hn
  obtain ⟨-, f, rfl, hlt, -⟩ := Flight.step_eq_none_iff.mp hn
  exact absurd (h f rfl) (Nat.not_le.mpr hlt)

theorem Prompt.call {l : Nat} {limit : Option Nat} {p : Progress c.Answer}
    (h : d.call m limit side c flight = some (d', p)) (hd : d.Prompt l) : d'.Prompt l := by
  obtain ⟨⟨s, q⟩, hstep, heq⟩ := Option.map_eq_some_iff.mp h
  cases heq
  refine hd.setStore (Flight.keeps_of_step (P := Store.Prompt l) (fun hs => (hs.start c).1)
    (fun hs => ?_) hstep (hd.1 side)) side
  unfold Store.finish
  rw [hs.1.refusal?_eq_none]
  exact hs.withContents _

/-! ## Publishing -/

end Deployment

/-- A broker with the same logs and offsets, closed or open as before, that refuses only what is
published in another way. -/
structure Broker.Alike (b b' : Broker) : Prop where
  topics : b'.topics = b.topics
  committed : b'.committed = b.committed
  closed : b'.closed = b.closed
  script : ∀ op, op ≠ .publish → b'.script.getD op [] = b.script.getD op []

namespace Broker

theorem log_congr {b b' : Broker} (h : b'.topics = b.topics) (topic : String) :
    b'.log topic = b.log topic := by
  rw [Broker.log, Broker.log, h]

theorem Alike.refl (b : Broker) : b.Alike b := ⟨rfl, rfl, rfl, fun _ _ => rfl⟩

theorem Alike.log {b b' : Broker} (h : b.Alike b') (topic : String) :
    b'.log topic = b.log topic :=
  log_congr h.topics topic

theorem Alike.committedOffset {b b' : Broker} (h : b.Alike b') (group topic : String) :
    b'.committedOffset group topic = b.committedOffset group topic := by
  rw [Broker.committedOffset, Broker.committedOffset, h.committed]

theorem alike_scripted (b : Broker) : b.Alike (b.scripted .publish).2 := by
  unfold scripted
  split
  · exact .refl b
  · refine ⟨rfl, rfl, rfl, fun op hop => ?_⟩
    rw [Assoc.getD_put, if_neg hop]

theorem alike_startPublish (b : Broker) : b.Alike b.startPublish.1 := by
  have h := b.alike_scripted
  unfold startPublish
  split
  · next hs => rwa [hs] at h
  · next hs =>
    rw [hs] at h
    exact ⟨h.topics, h.committed, h.closed, h.script⟩

theorem Prompt.startPublish {limit : Nat} {b : Broker} (h : b.Prompt limit) :
    b.startPublish.1.Prompt limit ∧ b.startPublish.2.refused = none ∧
      b.startPublish.2.delay ≤ limit := by
  have hs : b.scripted .publish = (none, b) := by
    unfold scripted; rw [h.2.2]
  unfold Broker.startPublish
  rw [hs]
  exact ⟨⟨h.1, h.2.1.start, h.2.2⟩, rfl, h.2.1.2⟩

end Broker

namespace Deployment

variable {d d' : Deployment ρ} {m : Moment} {flight : Option Flight} {topic : String}
  {payload : Bytes}

/-- What a move makes of a deployment and of a message that is to be published. -/
inductive Posted (d : Deployment ρ) (m : Moment) (limit : Option Nat) (topic : String)
    (payload : Bytes) : Option Flight → Deployment ρ → Progress Unit → Prop where
  | begun {f : Flight} {b : Broker} : m.stopped = false → d.broker.Alike b →
      (∀ l, limit.all (l ≤ ·) → d.broker.Prompt l → f.Prompt ∧ b.Prompt l) →
      Posted d m limit topic payload none { d with broker := b } (.underway f)
  | answered {f : Flight} : m.stopped = false → f.ready ≤ m.now →
      Posted d m limit topic payload (some f)
        { d with broker := d.broker.append topic payload } (.answered (.ok ()))
  | failed {flight : Option Flight} {b : Broker} {e : Error} : d.broker.Alike b →
      ¬ (m.stopped = false ∧ (∃ l, d.broker.Prompt l) ∧ ∀ f ∈ flight, f.Prompt) →
      Posted d m limit topic payload flight { d with broker := b } (.answered (.error e))

theorem posted_of_publish {limit : Option Nat} {p : Progress Unit}
    (h : d.publish m limit topic payload flight = some (d', p)) :
    Posted d m limit topic payload flight d' p := by
  obtain ⟨⟨b, q⟩, hstep, heq⟩ := Option.map_eq_some_iff.mp h
  cases heq
  cases Flight.moved_of_step hstep with
  | stopped hs =>
    refine .failed (.refl _) fun hfine => ?_
    simp [hs] at hfine
  | started hs =>
    refine .begun hs (Broker.alike_startPublish _) fun l hl hp => ?_
    obtain ⟨hp', href, hdelay⟩ := hp.startPublish
    refine ⟨⟨href, fun t ht => ?_⟩, hp'⟩
    obtain ⟨b, rfl, rfl⟩ := Option.map_eq_some_iff.mp ht
    have : l ≤ b := by simpa using hl
    exact Nat.add_le_add_left (Nat.le_trans hdelay this) _
  | refused hs hr hf =>
    refine .failed (.refl _) fun ⟨_, _, hfine⟩ => ?_
    simp [(hfine _ rfl).1] at hf
  | late hs hr hd =>
    refine .failed (.refl _) fun ⟨_, _, hfine⟩ => ?_
    simp [(hfine _ rfl).not_late hr] at hd
  | finished hs hr hf =>
    unfold Broker.finishPublish
    cases href : d.broker.faults.refusal? "publish" with
    | some faults =>
      refine .failed ⟨rfl, rfl, rfl, fun _ _ => rfl⟩ fun ⟨_, ⟨l, hp⟩, _⟩ => ?_
      simp [hp.2.1.refusal?_eq_none] at href
    | none =>
      cases hc : d.broker.closed with
      | true =>
        refine .failed (.refl _) fun ⟨_, ⟨l, hp⟩, _⟩ => ?_
        simp [hp.1] at hc
      | false => exact .answered hs hr

theorem Prompt.publish {l : Nat} {limit : Option Nat} {p : Progress Unit}
    (h : d.publish m limit topic payload flight = some (d', p)) (hd : d.Prompt l) :
    d'.Prompt l := by
  obtain ⟨⟨b, q⟩, hstep, heq⟩ := Option.map_eq_some_iff.mp h
  cases heq
  refine ⟨fun side => by simpa using hd.1 side,
    Flight.keeps_of_step (P := Broker.Prompt l) (fun hb => hb.startPublish.1) (fun hb => ?_) hstep
      hd.2⟩
  unfold Broker.finishPublish
  rw [hb.2.1.refusal?_eq_none, hb.1]
  exact ⟨hb.1, hb.2⟩

/-- A task that waits for a message to be published whose delay is over moves. -/
theorem publish_isSome {limit : Option Nat} (h : ∀ f ∈ flight, f.ready ≤ m.now) :
    (d.publish m limit topic payload flight).isSome := by
  unfold publish
  rw [Option.isSome_map, Option.isSome_iff_ne_none]
  intro hn
  obtain ⟨-, f, rfl, hlt, -⟩ := Flight.step_eq_none_iff.mp hn
  exact absurd (h f rfl) (Nat.not_le.mpr hlt)

end Deployment

end Cutover
