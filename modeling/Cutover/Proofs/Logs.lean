import Cutover.Broker
import Mathlib.Data.List.Range
import Mathlib.Data.List.Infix

/-!
# Logs, committed offsets and cursors

A broker together with any number of members of its groups, each with what it has received
(`Exchange`). Whatever is published, consumed, acknowledged and gone back to, in whatever order:
logs only grow, by what was published without an error; committed offsets only grow and stay within
their logs; a delivery carries what is at its offset; a member begins at the committed offset of its
group and goes on one by one, unless it goes back; and nothing else moves an offset or a cursor.
Main statement: `Exchange.logs_and_offsets`.
-/

namespace Cutover

/-- A member of a group with what it has received, in order. -/
structure Member where
  sub : Subscription
  received : List Delivery := []

/-- A broker and the members of its groups, in the order in which they joined. -/
structure Exchange where
  broker : Broker := {}
  members : List Member := []

namespace Member

/-- What a member finds at its cursor is added to what it has received. -/
def next (b : Broker) (m : Member) : Member :=
  match b.poll m.sub with
  | .message d s => ⟨s, m.received ++ [d]⟩
  | _ => m

/-- A member goes back to a message that it has received. -/
def rewind (k : Nat) (m : Member) : Member :=
  match m.received[k]? with
  | some d => { m with sub := m.sub.rewind d.offset }
  | none => m

end Member

namespace Exchange

/-- What can be done. Publishing has a start and an end, and several payloads may be on their way.
Members are named by the order in which they joined, and deliveries by the order in which the member
received them. -/
inductive Act where
  | arm (op : String) (n : Nat)
  | slow (latency : Nat)
  | startPublish
  | finishPublish (topic : String) (payload : Bytes)
  | close
  | subscribe (group topic : String)
  | next (i : Nat)
  | ack (i k : Nat)
  | rewind (i k : Nat)

variable {x : Exchange} {a : Act} {i : Nat} {m m' : Member}

/-- A delivery that a member has received, with the member's subscription. -/
def receipt? (x : Exchange) (i k : Nat) : Option (Subscription × Delivery) :=
  x.members[i]?.bind fun m => m.received[k]?.map (m.sub, ·)

def step (x : Exchange) : Act → Exchange
  | .arm op n => { x with broker := { x.broker with faults := x.broker.faults.arm op n } }
  | .slow latency =>
    { x with broker := { x.broker with faults := { x.broker.faults with latency } } }
  | .startPublish => { x with broker := x.broker.startPublish.1 }
  | .finishPublish topic payload => { x with broker := (x.broker.finishPublish topic payload).2 }
  | .close => { x with broker := x.broker.close }
  | .subscribe group topic => { x with members := x.members ++
      [⟨x.broker.subscribe group topic, []⟩] }
  | .next i => { x with members := x.members.modify i (Member.next x.broker) }
  | .ack i k =>
    match x.receipt? i k with
    | some (s, d) => { x with broker := x.broker.ack s d.offset }
    | none => x
  | .rewind i k => { x with members := x.members.modify i (Member.rewind k) }

/-- What has become after some acts, the first of them first. -/
def after (x : Exchange) (acts : List Act) : Exchange := acts.foldl step x

/-- What an act publishes without an error. -/
def accepts (x : Exchange) : Act → List (String × Bytes)
  | .finishPublish topic payload =>
    if (x.broker.finishPublish topic payload).1.isOk then [(topic, payload)] else []
  | _ => []

/-- What some acts publish without an error, in order. -/
def published (x : Exchange) : List Act → List (String × Bytes)
  | [] => []
  | a :: as => x.accepts a ++ (x.step a).published as

/-- The payloads of a topic. -/
def payloadsOf (topic : String) (ps : List (String × Bytes)) : List Bytes :=
  (ps.filter (·.1 = topic)).map (·.2)

/-! ## What a step does to the broker -/

theorem topics_startPublish (b : Broker) :
    b.startPublish.1.topics = b.topics ∧ b.startPublish.1.committed = b.committed := by
  unfold Broker.startPublish Broker.scripted
  cases b.script.getD .publish [] with
  | nil => exact ⟨rfl, rfl⟩
  | cons e rest => cases e <;> exact ⟨rfl, rfl⟩

/-- A payload is published without an error, or nothing is. -/
theorem finishPublish_cases (b : Broker) (topic : String) (payload : Bytes) :
    (b.finishPublish topic payload = (.ok (), b.append topic payload)) ∨
      ∃ e b', b.finishPublish topic payload = (.error e, b') ∧ b'.topics = b.topics ∧
        b'.committed = b.committed := by
  unfold Broker.finishPublish
  split
  · exact .inr ⟨_, _, rfl, rfl, rfl⟩
  · split
    · exact .inr ⟨_, _, rfl, rfl, rfl⟩
    · exact .inl rfl

/-- A topic grows by what is published in it. -/
theorem log_step (x : Exchange) (a : Act) (t : String) :
    (x.step a).broker.log t = x.broker.log t ++ payloadsOf t (x.accepts a) := by
  cases a with
  | finishPublish topic payload =>
    obtain h | ⟨e, b', h, htopics, -⟩ := finishPublish_cases x.broker topic payload
    · have haccepts : x.accepts (.finishPublish topic payload) = [(topic, payload)] := by
        rw [accepts, h]; rfl
      rw [haccepts, step, h, Broker.log_append]
      by_cases ht : t = topic
      · subst ht
        simp [payloadsOf]
      · simp [payloadsOf, ht, Ne.symm ht]
    · have haccepts : x.accepts (.finishPublish topic payload) = [] := by rw [accepts, h]; rfl
      rw [haccepts, step, h, Broker.log, htopics]
      exact (List.append_nil _).symm
  | startPublish =>
    rw [step, Broker.log, (topics_startPublish x.broker).1]
    exact (List.append_nil _).symm
  | ack i k =>
    rw [step]
    split <;> exact (List.append_nil _).symm
  | arm | slow | close | subscribe | next | rewind => exact (List.append_nil _).symm

/-- Only a message that a member acknowledges commits an offset, of the member's group in its
topic. -/
theorem committedOffset_step (x : Exchange) (a : Act) (g t : String) :
    (x.step a).broker.committedOffset g t = x.broker.committedOffset g t ∨
      ∃ i k s d, a = .ack i k ∧ x.receipt? i k = some (s, d) ∧ s.group = g ∧ s.topic = t ∧
        (x.step a).broker.committedOffset g t =
          max (x.broker.committedOffset g t) (Broker.nextOffset d.offset) := by
  cases a with
  | ack i k =>
    rw [step]
    cases hreceipt : x.receipt? i k with
    | none => exact .inl rfl
    | some r =>
      obtain ⟨s, d⟩ := r
      simp only [Broker.committedOffset_ack]
      split
      · next h =>
        cases h
        exact .inr ⟨i, k, s, d, rfl, hreceipt, rfl, rfl, rfl⟩
      · exact .inl rfl
  | startPublish =>
    rw [step, Broker.committedOffset, (topics_startPublish x.broker).2]
    exact .inl rfl
  | finishPublish topic payload =>
    obtain h | ⟨e, b', h, -, hcommitted⟩ := finishPublish_cases x.broker topic payload
    · rw [step, h]
      exact .inl rfl
    · rw [step, h, Broker.committedOffset, hcommitted]
      exact .inl rfl
  | arm | slow | close | subscribe | next | rewind => exact .inl rfl

/-! ## What a step does to a member -/

/-- What an act does to the member with a number: nothing, or it takes the message at its cursor, or
it goes back to a message that it has received. -/
inductive Moves (b : Broker) (i : Nat) (m : Member) : Act → Member → Prop where
  | stays {a : Act} : Moves b i m a m
  | takes {payload : Bytes} : b.closed = false → (b.log m.sub.topic)[m.sub.cursor]? = some payload →
      Moves b i m (.next i) ⟨{ m.sub with cursor := m.sub.cursor + 1 },
        m.received ++ [{ topic := m.sub.topic, offset := m.sub.cursor, payload }]⟩
  | rewinds {k : Nat} {d : Delivery} : m.received[k]? = some d →
      Moves b i m (.rewind i k) { m with sub := m.sub.rewind d.offset }

theorem moves_next (b : Broker) (i : Nat) (m : Member) : Moves b i m (.next i) (m.next b) := by
  unfold Member.next Broker.poll
  split
  · next d s h =>
    split at h
    · cases h
    · next hclosed =>
      split at h
      · next payload hpayload =>
        cases h
        exact .takes (by simpa using hclosed) hpayload
      · cases h
  · exact .stays

theorem moves_rewind (b : Broker) (i k : Nat) (m : Member) :
    Moves b i m (.rewind i k) (m.rewind k) := by
  unfold Member.rewind
  split
  · next d h => exact .rewinds h
  · exact .stays

theorem members_next (h : x.members[i]? = some m) :
    (x.step (.next i)).members[i]? = some (m.next x.broker) := by
  rw [step, List.getElem?_modify, h]
  simp

theorem member_step (h : x.members[i]? = some m) (a : Act) :
    ∃ m', (x.step a).members[i]? = some m' ∧ Moves x.broker i m a m' := by
  cases a with
  | next j =>
    simp only [step, List.getElem?_modify, h, Option.map_eq_map, Option.map_some]
    split
    · next hij =>
      subst hij
      exact ⟨_, rfl, moves_next ..⟩
    · exact ⟨_, rfl, .stays⟩
  | rewind j k =>
    simp only [step, List.getElem?_modify, h, Option.map_eq_map, Option.map_some]
    split
    · next hij =>
      subst hij
      exact ⟨_, rfl, moves_rewind ..⟩
    · exact ⟨_, rfl, .stays⟩
  | ack j k =>
    refine ⟨m, ?_, .stays⟩
    rw [step]
    split <;> exact h
  | subscribe group topic =>
    refine ⟨m, ?_, .stays⟩
    have hlt : i < x.members.length := (List.getElem?_eq_some_iff.mp h).1
    rw [step, List.getElem?_append_left hlt, h]
  | arm | slow | startPublish | finishPublish | close => exact ⟨m, h, .stays⟩

/-- A member has moved, or it has just joined and has received nothing. -/
theorem mem_step (h : m' ∈ (x.step a).members) :
    m'.received = [] ∨ ∃ i m, x.members[i]? = some m ∧ Moves x.broker i m a m' := by
  obtain ⟨i, hi⟩ := List.mem_iff_getElem?.mp h
  cases hm : x.members[i]? with
  | some m =>
    obtain ⟨m'', hm'', hmoves⟩ := member_step hm a
    cases hi.symm.trans hm''
    exact .inr ⟨i, m, hm, hmoves⟩
  | none =>
    left
    cases a with
    | subscribe group topic =>
      have hle : x.members.length ≤ i := List.getElem?_eq_none_iff.mp hm
      rw [step, List.getElem?_append_right hle, List.getElem?_singleton] at hi
      split at hi <;> cases hi
      rfl
    | next j | rewind j k => simp [step, List.getElem?_modify, hm] at hi
    | ack j k =>
      rw [step] at hi
      split at hi <;> cases hi.symm.trans hm
    | arm | slow | startPublish | finishPublish | close => cases hi.symm.trans hm

/-! ## What holds throughout -/

/-- Committed offsets are within their logs, and deliveries carry what is at their offsets. -/
structure Sound (x : Exchange) : Prop where
  within : ∀ g t, x.broker.committedOffset g t ≤ (x.broker.log t).length
  carried : ∀ m ∈ x.members, ∀ d ∈ m.received,
    d.topic = m.sub.topic ∧ (x.broker.log m.sub.topic)[d.offset]? = some d.payload

theorem sound_empty : ({} : Exchange).Sound where
  within _ _ := Nat.zero_le _
  carried _ h := nomatch h

theorem receipt?_eq_some {k : Nat} {s : Subscription} {d : Delivery}
    (h : x.receipt? i k = some (s, d)) :
    ∃ m, x.members[i]? = some m ∧ m.sub = s ∧ d ∈ m.received := by
  obtain ⟨m, hm, hd⟩ := Option.bind_eq_some_iff.mp h
  obtain ⟨d', hd', heq⟩ := Option.map_eq_some_iff.mp hd
  cases heq
  exact ⟨m, hm, rfl, List.mem_of_getElem? hd'⟩

theorem Sound.step (h : x.Sound) (a : Act) : (x.step a).Sound where
  within g t := by
    have hgrown : (x.broker.log t).length ≤ ((x.step a).broker.log t).length := by
      rw [log_step, List.length_append]
      exact Nat.le_add_right ..
    refine Nat.le_trans ?_ hgrown
    obtain heq | ⟨i, k, s, d, -, hreceipt, -, rfl, heq⟩ := committedOffset_step x a g t
    · rw [heq]
      exact h.within g t
    · obtain ⟨m, hm, rfl, hd⟩ := receipt?_eq_some hreceipt
      have hcarried := (h.carried m (List.mem_of_getElem? hm) d hd).2
      have hlt : d.offset < (x.broker.log m.sub.topic).length :=
        (List.getElem?_eq_some_iff.mp hcarried).1
      rw [heq]
      exact Nat.max_le.mpr ⟨h.within g _, Nat.le_trans (Nat.mod_le ..) hlt⟩
  carried m' hm' := by
    obtain hnil | ⟨i, m, hm, hmoves⟩ := mem_step hm'
    · simp [hnil]
    · have hm := h.carried m (List.mem_of_getElem? hm)
      -- a message stays where it is when the log grows
      have hgrown {t : String} {offset : Nat} {payload : Bytes}
          (hp : (x.broker.log t)[offset]? = some payload) :
          ((x.step a).broker.log t)[offset]? = some payload := by
        rw [log_step, List.getElem?_append_left (List.getElem?_eq_some_iff.mp hp).1, hp]
      cases hmoves with
      | stays => exact fun d hd => ⟨(hm d hd).1, hgrown (hm d hd).2⟩
      | rewinds => exact fun d hd => ⟨(hm d hd).1, hgrown (hm d hd).2⟩
      | takes _ hpayload =>
        intro d hd
        rcases List.mem_append.mp hd with hd | hd
        · exact ⟨(hm d hd).1, hgrown (hm d hd).2⟩
        · cases List.mem_singleton.mp hd
          exact ⟨rfl, hgrown hpayload⟩

theorem Sound.after (h : x.Sound) (acts : List Act) : (x.after acts).Sound := by
  induction acts generalizing x with
  | nil => exact h
  | cons a as ih => exact ih (h.step a)

/-- A log grows at its end by what is published in its topic. -/
theorem log_after (x : Exchange) (acts : List Act) (t : String) :
    (x.after acts).broker.log t = x.broker.log t ++ payloadsOf t (x.published acts) := by
  induction acts generalizing x with
  | nil => exact (List.append_nil _).symm
  | cons a as ih =>
    have hsplit : payloadsOf t (x.published (a :: as)) =
        payloadsOf t (x.accepts a) ++ payloadsOf t ((x.step a).published as) := by
      simp [published, payloadsOf]
    rw [hsplit, ← List.append_assoc, ← log_step]
    exact ih (x.step a)

theorem committedOffset_le_after (x : Exchange) (acts : List Act) (g t : String) :
    x.broker.committedOffset g t ≤ (x.after acts).broker.committedOffset g t := by
  induction acts generalizing x with
  | nil => exact Nat.le_refl _
  | cons a as ih =>
    refine Nat.le_trans ?_ (ih (x.step a))
    obtain heq | ⟨_, _, _, _, -, -, -, -, heq⟩ := committedOffset_step x a g t
    · exact Nat.le_of_eq heq.symm
    · exact heq ▸ Nat.le_max_left ..

/-! ## Where a member begins and how it goes on -/

/-- A member of a group that has received nothing but what is behind an offset, that first. -/
structure BeginsAt (group topic : String) (offset : Nat) (m : Member) : Prop where
  group_eq : m.sub.group = group
  topic_eq : m.sub.topic = topic
  cursor : m.received = [] → m.sub.cursor = offset
  first : ∀ d ∈ m.received.head?, d.offset = offset

theorem BeginsAt.moves {group topic : String} {offset : Nat} {b : Broker}
    (h : BeginsAt group topic offset m)
    (hmoves : Moves b i m a m') : BeginsAt group topic offset m' := by
  cases hmoves with
  | stays => exact h
  | takes =>
    refine ⟨h.group_eq, h.topic_eq, fun hnil => by simp at hnil, fun d hd => ?_⟩
    cases hreceived : m.received with
    | nil =>
      rw [hreceived] at hd
      cases hd
      exact h.cursor hreceived
    | cons e es =>
      refine h.first d ?_
      rw [hreceived] at hd ⊢
      exact hd
  | rewinds hd =>
    refine ⟨h.group_eq, h.topic_eq, fun hnil => ?_, h.first⟩
    have hnil : m.received = [] := hnil
    rw [hnil] at hd
    cases hd

theorem BeginsAt.after {group topic : String} {offset : Nat} (h : BeginsAt group topic offset m)
    (hm : x.members[i]? = some m) (acts : List Act) :
    ∃ m', (x.after acts).members[i]? = some m' ∧ BeginsAt group topic offset m' := by
  induction acts generalizing x m with
  | nil => exact ⟨m, hm, h⟩
  | cons a as ih =>
    obtain ⟨m', hm', hmoves⟩ := member_step hm a
    exact ih (h.moves hmoves) hm'

/-- A member that does not go back receives what is at its cursor and behind it, one by one. -/
theorem received_after (hm : x.members[i]? = some m) {acts : List Act}
    (hacts : ∀ k, .rewind i k ∉ acts) :
    ∃ m' ds, (x.after acts).members[i]? = some m' ∧ m'.received = m.received ++ ds ∧
      ds.map (·.offset) = List.range' m.sub.cursor ds.length := by
  induction acts generalizing x m with
  | nil => exact ⟨m, [], hm, (List.append_nil _).symm, rfl⟩
  | cons a as ih =>
    obtain ⟨m', hm', hmoves⟩ := member_step hm a
    have has : ∀ k, .rewind i k ∉ as := fun k hk => hacts k (List.mem_cons_of_mem _ hk)
    obtain ⟨m'', ds, hm'', hreceived, hoffsets⟩ := ih hm' has
    cases hmoves with
    | stays => exact ⟨m'', ds, hm'', hreceived, hoffsets⟩
    | takes =>
      refine ⟨m'', _ :: ds, hm'', by rw [hreceived, List.append_assoc]; rfl, ?_⟩
      rw [List.map_cons, hoffsets, List.length_cons, List.range'_succ]
    | rewinds => exact absurd List.mem_cons_self (hacts _)

/-- A member that has received a message and does not go back receives the messages behind it, one
by one. -/
theorem consecutive (hm : x.members[i]? = some m) {d : Delivery}
    (hm' : (x.step (.next i)).members[i]? = some m')
    (hd : m'.received = m.received ++ [d]) {acts : List Act} (hacts : ∀ k, .rewind i k ∉ acts) :
    ∃ m'' ds, ((x.step (.next i)).after acts).members[i]? = some m'' ∧
      m''.received = m.received ++ d :: ds ∧
      (d :: ds).map (·.offset) = List.range' d.offset (ds.length + 1) := by
  obtain ⟨m'', ds, hm'', hreceived, -⟩ := received_after hm' hacts
  have hall : ∀ k, .rewind i k ∉ Act.next i :: acts := fun k hk => by
    rcases List.mem_cons.mp hk with hk | hk
    · cases hk
    · exact hacts k hk
  obtain ⟨n, ds', hn, hreceived', hoffsets⟩ := received_after hm hall
  cases hm''.symm.trans hn
  rw [hreceived, hd, List.append_assoc] at hreceived'
  have hds : ds' = d :: ds := (List.append_cancel_left hreceived').symm
  rw [hds] at hoffsets
  refine ⟨m'', ds, hm'', by rw [hreceived, hd, List.append_assoc]; rfl, ?_⟩
  have hfirst : d.offset = m.sub.cursor := by
    rw [List.map_cons, List.length_cons, List.range'_succ] at hoffsets
    exact (List.cons.inj hoffsets).1
  rw [hfirst]
  exact hoffsets

/-- Only a member itself moves its cursor. -/
theorem cursor_step (hm : x.members[i]? = some m) (a : Act) :
    ∃ m', (x.step a).members[i]? = some m' ∧
      (m'.sub.cursor = m.sub.cursor ∨ a = .next i ∨ ∃ k, a = .rewind i k) := by
  obtain ⟨m', hm', hmoves⟩ := member_step hm a
  refine ⟨m', hm', ?_⟩
  cases hmoves with
  | stays => exact .inl rfl
  | takes => exact .inr (.inl rfl)
  | rewinds => exact .inr (.inr ⟨_, rfl⟩)

/-- Whatever is done, in any order: a log is what has been published in its topic without an error,
and only grows at its end; a committed offset only grows, and within its log; a delivery carries
what is at its offset; a new member begins at the committed offset of its group, and receives one
message after the other until it goes back; and a committed offset moves only when a member of the
group acknowledges a message of the topic, and a cursor only when its member moves it. -/
theorem logs_and_offsets (acts : List Act) :
    let x := ({} : Exchange).after acts
    (∀ t, x.broker.log t = payloadsOf t (({} : Exchange).published acts)) ∧
    (∀ t more, x.broker.log t <+: (x.after more).broker.log t) ∧
    (∀ g t, x.broker.committedOffset g t ≤ (x.broker.log t).length ∧
      ∀ more, x.broker.committedOffset g t ≤ (x.after more).broker.committedOffset g t) ∧
    (∀ m ∈ x.members, ∀ d ∈ m.received,
      d.topic = m.sub.topic ∧ (x.broker.log d.topic)[d.offset]? = some d.payload) ∧
    (∀ g t more, ∃ m, ((x.step (.subscribe g t)).after more).members[x.members.length]? = some m ∧
      m.sub.group = g ∧ m.sub.topic = t ∧ ∀ d ∈ m.received.head?,
        d.offset = x.broker.committedOffset g t) ∧
    (∀ g t payload, x.broker.closed = false →
      (x.broker.log t)[x.broker.committedOffset g t]? = some payload →
      ∃ m, ((x.step (.subscribe g t)).step (.next x.members.length)).members[x.members.length]? =
          some m ∧
        m.received = [{ topic := t, offset := x.broker.committedOffset g t, payload }]) ∧
    (∀ i m m' d more, x.members[i]? = some m → (x.step (.next i)).members[i]? = some m' →
      m'.received = m.received ++ [d] → (∀ k, .rewind i k ∉ more) →
      ∃ m'' ds, ((x.step (.next i)).after more).members[i]? = some m'' ∧
        m''.received = m.received ++ d :: ds ∧
        (d :: ds).map (·.offset) = List.range' d.offset (ds.length + 1)) ∧
    (∀ a g t, (x.step a).broker.committedOffset g t ≠ x.broker.committedOffset g t →
      ∃ i k m, a = .ack i k ∧ x.members[i]? = some m ∧ m.sub.group = g ∧ m.sub.topic = t) ∧
    ∀ a i m, x.members[i]? = some m → ∃ m', (x.step a).members[i]? = some m' ∧
      (m'.sub.cursor ≠ m.sub.cursor → a = .next i ∨ ∃ k, a = .rewind i k) := by
  intro x
  have hsound : x.Sound := sound_empty.after acts
  have hjoined (g t : String) : (x.step (.subscribe g t)).members[x.members.length]? =
      some ⟨x.broker.subscribe g t, []⟩ := by
    rw [step, List.getElem?_append_right (Nat.le_refl _), Nat.sub_self]
    rfl
  refine ⟨fun t => log_after {} acts t, fun t more => ?_,
    fun g t => ⟨hsound.within g t, fun more => ?_⟩,
    fun m hm d hd => ?_, fun g t more => ?_, fun g t payload hopen hpayload => ?_,
    fun i m m' d more hm hm' hd hmore => consecutive hm hm' hd hmore, fun a g t hne => ?_,
      fun a i m hm => ?_⟩
  · rw [log_after x more]
    exact List.prefix_append ..
  · exact committedOffset_le_after x more g t
  · obtain ⟨htopic, hpayload⟩ := hsound.carried m hm d hd
    exact ⟨htopic, htopic ▸ hpayload⟩
  · have hbegins : BeginsAt g t (x.broker.committedOffset g t) ⟨x.broker.subscribe g t, []⟩ :=
      ⟨rfl, rfl, fun _ => rfl, fun d hd => nomatch hd⟩
    obtain ⟨m, hm, h⟩ := hbegins.after (hjoined g t) more
    exact ⟨m, hm, h.group_eq, h.topic_eq, h.first⟩
  · refine ⟨Member.next x.broker ⟨x.broker.subscribe g t, []⟩, ?_, ?_⟩
    · exact members_next (hjoined g t)
    · have hpoll : x.broker.poll (x.broker.subscribe g t) = .message
          { topic := t, offset := x.broker.committedOffset g t, payload }
          ⟨g, t, x.broker.committedOffset g t + 1⟩ := by
        simp only [Broker.poll, Broker.subscribe, hopen, hpayload]
        rfl
      simp only [Member.next, hpoll]
      rfl
  · obtain heq | ⟨i, k, s, d, rfl, hreceipt, rfl, rfl, -⟩ := committedOffset_step x a g t
    · exact absurd heq hne
    · obtain ⟨m, hm, rfl, -⟩ := receipt?_eq_some hreceipt
      exact ⟨i, k, m, rfl, hm, rfl, rfl⟩
  · obtain ⟨m', hm', h⟩ := cursor_step hm a
    exact ⟨m', hm', h.resolve_left⟩

/-- Two members of a group and one of another, with a payload that is refused, messages that are
acknowledged in the wrong order, and a member that goes back. -/
theorem logs_and_offsets_mixed :
    let acts : List Act := [.arm "publish" 1, .finishPublish "t" [0], .finishPublish "t" [1],
      .subscribe "g" "t", .finishPublish "u" [2], .finishPublish "t" [3], .next 0, .next 0,
      .subscribe "h" "t", .subscribe "g" "t", .next 2, .ack 0 1, .ack 2 0, .rewind 0 0]
    let x := ({} : Exchange).after acts
    x.broker.log "t" = [[1], [3]] ∧ x.broker.committedOffset "g" "t" ≤ 2 ∧
    (∃ m, ((x.step (.subscribe "h" "t")).step (.next 3)).members[3]? = some m ∧
      m.received = [{ topic := "t", offset := 0, payload := [1] }]) ∧
    ∃ m ds, ((x.step (.next 0)).after [.next 0, .close, .next 0]).members[0]? = some m ∧
      m.received.drop 2 = { topic := "t", offset := 0, payload := [1] } :: ds ∧
      (0 :: ds.map (·.offset)) = List.range' 0 (ds.length + 1) := by
  intro acts x
  obtain ⟨hlog, -, hcommitted, -, -, hjoins, hgoes, -⟩ := logs_and_offsets acts
  have hpublished : x.broker.log "t" = [[1], [3]] := hlog "t"
  have hwithin := (hcommitted "g" "t").1
  refine ⟨hpublished, by rwa [hpublished] at hwithin, hjoins "h" "t" [1] rfl rfl, ?_⟩
  obtain ⟨m, ds, hm, hreceived, hoffsets⟩ :=
    hgoes 0 _ _ { topic := "t", offset := 0, payload := [1] }
    [.next 0, .close, .next 0] rfl rfl rfl (by simp)
  exact ⟨m, ds, hm, by rw [hreceived]; rfl, hoffsets⟩

end Exchange

end Cutover
