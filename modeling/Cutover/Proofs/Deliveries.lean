import Cutover.Proofs.Histories
import Mathlib.Data.List.Induction

/-!
# At-least-once delivery

Below the committed offset of a group in a topic, and below the place at which a member of the group
reads on, every message was handled with success by some member or cannot be read at all
(`Migration.Accounted`). Each happening keeps this, whatever the members do and however often they
are stopped and started again. Main statement: `Migration.handled_of_committed`.
-/

namespace Cutover

variable {ρ : Type} [Entity ρ] {group topic : String} {readable : Bytes → Bool}

private theorem getElem?_of_grown {α : Type} {l l' : List α} (h : l <+: l') {i : Nat} {a : α}
    (ha : l[i]? = some a) : l'[i]? = some a := by
  obtain ⟨hi, rfl⟩ := List.getElem?_eq_some_iff.mp ha
  exact List.prefix_iff_getElem?.mp h i hi

/-! ## Members of a group -/

namespace Handler

/-- Whether a handler can read a message. -/
def reads : Handler → Bytes → Bool
  | fixer, payload => (Report.decode? payload).isSome
  | listener _, payload => (Change.decode? payload).isSome
  | scripted read _, payload => (read payload).isSome

variable {d : Deployment ρ} {payload : Bytes} {h h' : Handler}

theorem reads_of_begin_none (hb : h.begin d payload = none) : h.reads payload = false := by
  cases h <;> simpa [begin, reads] using hb

theorem reads_of_begin_some {id : Int} {work : Handling ρ}
    (hb : h.begin d payload = some (id, work, h')) :
    h.reads payload = true ∧ h'.reads = h.reads := by
  cases h with
  | fixer =>
    obtain ⟨r, hr, heq⟩ := Option.map_eq_some_iff.mp hb
    cases heq
    exact ⟨by simp [reads, hr], rfl⟩
  | listener config =>
    obtain ⟨c, hc, heq⟩ := Option.map_eq_some_iff.mp hb
    cases heq
    exact ⟨by simp [reads, hc], rfl⟩
  | scripted read outcomes =>
    obtain ⟨id, hid, heq⟩ := Option.map_eq_some_iff.mp hb
    refine ⟨by simp [reads, hid], ?_⟩
    cases outcomes with
    | nil => cases heq; rfl
    | cons => cases heq; rfl

end Handler

namespace Consumer

/-- The message that a consumer handles with success, just before it acknowledges it. -/
def Succeeds (c : Consumer ρ) (message : Delivery) : Prop :=
  ∃ work due, c.phase = .handling message work due ∧ work.result? = some (.ok ())

/-- The offset of the message that a consumer handles, or else of the next one. -/
def position (c : Consumer ρ) : Nat :=
  match c.phase with
  | .handling message _ _ => message.offset
  | _ => c.subscription.cursor

/-- A member that handles messages of its topic, which it can read, one after the other. -/
structure Follows (topic : String) (readable : Bytes → Bool) (log : List Bytes) (c : Consumer ρ) :
    Prop where
  handler : c.handler.reads = readable
  cursor : c.subscription.cursor ≤ log.length
  handling : ∀ message work due, c.phase = .handling message work due →
    message = { topic, offset := message.offset, payload := message.payload } ∧
      log[message.offset]? = some message.payload ∧ readable message.payload = true ∧
      c.subscription.cursor = message.offset + 1

omit [Entity ρ] in
theorem Follows.grown {log log' : List Bytes} {c : Consumer ρ} (h : c.Follows topic readable log)
    (hp : log <+: log') : c.Follows topic readable log' := by
  refine ⟨h.handler, Nat.le_trans h.cursor hp.length_le, fun message work due hph => ?_⟩
  obtain ⟨hm, hlog, hread, hcursor⟩ := h.handling message work due hph
  exact ⟨hm, getElem?_of_grown hp hlog, hread, hcursor⟩

omit [Entity ρ] in
theorem Follows.position_le {log : List Bytes} {c : Consumer ρ} (h : c.Follows topic readable log) :
    c.position ≤ log.length := by
  unfold position
  split
  · next hph => exact Nat.le_of_lt (List.getElem?_eq_some_iff.mp (h.handling _ _ _ hph).2.1).1
  · exact h.cursor

/-- A member that has nothing more to do with the message at its place: it cannot read it, or it has
just handled it with success. -/
def Passes (topic : String) (readable : Bytes → Bool) (log : List Bytes) (c : Consumer ρ) : Prop :=
  ∃ payload, log[c.position]? = some payload ∧
    (readable payload = false ∨ c.Succeeds { topic, offset := c.position, payload })

section Moves

variable {d d' : Deployment ρ} {c c' : Consumer ρ}

/-- Which members pass a message in a move that ends a handling or reads a message. -/
private theorem Follows.passes_of_succeeds
    (hf : c.Follows topic readable (d.broker.log topic)) {message : Delivery} {work : Handling ρ}
    {due : Nat} (hph : c.phase = .handling message work due) (hres : work.result? = some (.ok ())) :
    c.position = message.offset ∧ c.Passes topic readable (d.broker.log topic) := by
  have hposition : c.position = message.offset := by rw [position, hph]
  obtain ⟨hmessage, hat, -, -⟩ := hf.handling _ _ _ hph
  refine ⟨hposition, message.payload, by rwa [hposition], .inr ⟨work, due, ?_, hres⟩⟩
  rw [hph, hposition, ← hmessage]

private theorem Follows.passes_of_unread (hf : c.Follows topic readable (d.broker.log topic))
    (hm : c.subscription.topic = topic) (hph : c.phase = .waiting) {message : Delivery}
    {subscription : Subscription}
    (hpoll : d.broker.poll c.subscription = .message message subscription)
    (hnone : c.handler.begin d message.payload = none) :
    c.position = message.offset ∧ c.Passes topic readable (d.broker.log topic) := by
  obtain ⟨hmessage, hat, -⟩ := poll_eq_message hpoll
  have hposition : c.position = c.subscription.cursor := by rw [position, hph]
  refine ⟨by rw [hposition, hmessage], message.payload, by rw [hposition, ← hm, hat], .inl ?_⟩
  rw [← hf.handler]
  exact Handler.reads_of_begin_none hnone

/-- What is committed in a move of a consumer: nothing beyond the messages that it passes. -/
theorem Moved.committed (hmove : c.Moved d d' c')
    (hf : c.IsMember group topic → c.phase ≠ .done →
      c.Follows topic readable (d.broker.log topic)) {i : Nat}
    (hi : i < d'.broker.committedOffset group topic) :
    i < d.broker.committedOffset group topic ∨ c.IsMember group topic ∧ c.phase ≠ .done ∧
      i ≤ c.position ∧ c.Passes topic readable (d.broker.log topic) := by
  cases hmove with
  | ended | began => exact .inl hi
  | idled _ _ _ hq => exact .inl (hq.grown.committed .. ▸ hi)
  | worked _ _ hstep => exact .inl ((Handling.grown_step hstep).committed .. ▸ hi)
  | @skipped message subscription hph hpoll hnone =>
    obtain ⟨b, heq, -, -, -, hcommitted⟩ := acknowledge_spec d { c with subscription } message
    rw [heq] at hi
    obtain ⟨-, -, hsub⟩ := poll_eq_message hpoll
    rcases hcommitted group topic i hi with hi | ⟨hm, hi⟩
    · exact .inl hi
    · have hm : c.IsMember group topic := by rwa [IsMember, hsub] at hm
      have hdone : c.phase ≠ .done := by simp [hph]
      obtain ⟨hposition, hpasses⟩ := (hf hm hdone).passes_of_unread hm.2 hph hpoll hnone
      exact .inr ⟨hm, hdone, hposition ▸ hi, hpasses⟩
  | @succeeded message work due hph hres =>
    obtain ⟨b, heq, -, -, -, hcommitted⟩ := acknowledge_spec d c message
    rw [heq] at hi
    rcases hcommitted group topic i hi with hi | ⟨hm, hi⟩
    · exact .inl hi
    · have hdone : c.phase ≠ .done := by simp [hph]
      obtain ⟨hposition, hpasses⟩ := (hf hm hdone).passes_of_succeeds hph hres
      exact .inr ⟨hm, hdone, hposition ▸ hi, hpasses⟩
  | @failed message work due hph =>
    obtain ⟨b, s, heq, -, hcommitted, -⟩ := goBack_spec d c message
    rw [heq, Broker.committedOffset, hcommitted] at hi
    exact .inl hi

/-- A member stays at its place, goes back, or goes on to the next message after one that it
passes. -/
theorem Follows.move (hf : c.Follows topic readable (d.broker.log topic))
    (hm : c.subscription.topic = topic)
    (hrewind : d.broker.script.getD .rewind [] = []) (hmove : c.Moved d d' c')
    (hdone : c'.phase ≠ .done) :
    c'.Follows topic readable (d.broker.log topic) ∧
      (c'.position ≤ c.position ∨
        c'.position = c.position + 1 ∧ c.Passes topic readable (d.broker.log topic)) := by
  cases hmove with
  | ended => simp at hdone
  | @idled b phase hnot hidle hidle' hq =>
    have hposition {x : Consumer ρ} (hx : ¬ x.IsHandling) : x.position = x.subscription.cursor := by
      unfold position
      split
      · next hph => exact absurd ⟨_, _, _, hph⟩ hx
      · rfl
    refine ⟨⟨hf.handler, hf.cursor, fun _ _ _ hph => absurd ⟨_, _, _, hph⟩ hidle'⟩, .inl ?_⟩
    exact Nat.le_of_eq ((hposition hidle').trans (hposition hidle).symm)
  | @skipped message subscription hph hpoll hnone =>
    obtain ⟨hposition, hpasses⟩ := hf.passes_of_unread hm hph hpoll hnone
    obtain ⟨hmessage, hat, rfl⟩ := poll_eq_message hpoll
    refine ⟨⟨hf.handler, ?_, fun _ _ _ hph => by cases hph⟩, .inr ⟨?_, hpasses⟩⟩
    · rw [hm] at hat
      exact (List.getElem?_eq_some_iff.mp hat).1
    · rw [hposition, hmessage]
      rfl
  | @began message subscription id work handler due log hph hpoll hsome =>
    obtain ⟨hread, hhandler⟩ := Handler.reads_of_begin_some hsome
    obtain ⟨hmessage, hat, rfl⟩ := poll_eq_message hpoll
    rw [hm] at hmessage hat
    refine ⟨⟨hhandler.trans hf.handler, (List.getElem?_eq_some_iff.mp hat).1, ?_⟩, .inl ?_⟩
    · intro message' work' due' hph'
      cases hph'
      rw [hf.handler] at hread
      rw [hmessage]
      exact ⟨rfl, hat, hread, rfl⟩
    · refine Nat.le_of_eq ?_
      rw [hmessage, position, position, hph]
  | @worked message work due now d' work' hph hres hstep =>
    refine ⟨⟨hf.handler, hf.cursor, fun _ _ _ hph' => ?_⟩, .inl ?_⟩
    · cases hph'
      exact hf.handling _ _ _ hph
    · refine Nat.le_of_eq ?_
      rw [position, position, hph]
  | @succeeded message work due hph hres =>
    obtain ⟨hposition, hpasses⟩ := hf.passes_of_succeeds hph hres
    obtain ⟨-, -, -, hcursor⟩ := hf.handling _ _ _ hph
    refine ⟨⟨hf.handler, hf.cursor, fun _ _ _ hph => by cases hph⟩, .inr ⟨?_, hpasses⟩⟩
    rw [hposition, ← hcursor]
    rfl
  | @failed message work due hph =>
    obtain ⟨b, s, heq, -, -, -, -, -, hback⟩ := goBack_spec d c message
    obtain ⟨-, rfl⟩ := hback hrewind
    obtain ⟨-, hat, -, hcursor⟩ := hf.handling _ _ _ hph
    rw [heq]
    have hoffset : (c.subscription.rewind message.offset).cursor = message.offset := by
      simp [Subscription.rewind, hcursor]
    refine ⟨⟨hf.handler, ?_, fun _ _ _ hph => by cases hph⟩, .inl ?_⟩
    · rw [hoffset]
      exact Nat.le_of_lt (List.getElem?_eq_some_iff.mp hat).1
    · rw [position, position, hph]
      exact Nat.le_of_eq hoffset

theorem Moved.log (hmove : c.Moved d d' c') (t : String) : d.broker.log t <+: d'.broker.log t := by
  cases hmove with
  | ended | began => exact List.prefix_refl _
  | idled _ _ _ hq => exact hq.grown.log t
  | worked _ _ hstep => exact (Handling.grown_step hstep).log t
  | @skipped message subscription =>
    obtain ⟨b, heq, htopics, -⟩ := acknowledge_spec d { c with subscription } message
    rw [heq]
    exact Broker.log_congr htopics t ▸ List.prefix_refl _
  | @succeeded message =>
    obtain ⟨b, heq, htopics, -⟩ := acknowledge_spec d c message
    rw [heq]
    exact Broker.log_congr htopics t ▸ List.prefix_refl _
  | @failed message =>
    obtain ⟨b, s, heq, htopics, -⟩ := goBack_spec d c message
    rw [heq]
    exact Broker.log_congr htopics t ▸ List.prefix_refl _

theorem Moved.rewind (hmove : c.Moved d d' c') (h : d.broker.script.getD .rewind [] = []) :
    d'.broker.script.getD .rewind [] = [] := by
  cases hmove with
  | ended | began => exact h
  | idled _ _ _ hq => exact hq.rewind.trans h
  | worked _ _ hstep => exact (Handling.grown_step hstep).rewind.trans h
  | @skipped message subscription =>
    obtain ⟨b, heq, -, hrewind, -⟩ := acknowledge_spec d { c with subscription } message
    rw [heq]
    exact hrewind.trans h
  | @succeeded message =>
    obtain ⟨b, heq, -, hrewind, -⟩ := acknowledge_spec d c message
    rw [heq]
    exact hrewind.trans h
  | @failed message =>
    obtain ⟨b, s, heq, -, -, -, -, -, hback⟩ := goBack_spec d c message
    rw [heq, (hback h).1]
    exact h

theorem Moved.subscription (hmove : c.Moved d d' c') :
    c'.subscription.group = c.subscription.group ∧
      c'.subscription.topic = c.subscription.topic := by
  cases hmove with
  | ended | idled | worked | succeeded => exact ⟨rfl, rfl⟩
  | skipped _ hpoll | began _ hpoll =>
    obtain ⟨-, -, rfl⟩ := poll_eq_message hpoll
    exact ⟨rfl, rfl⟩
  | @failed message =>
    obtain ⟨b, s, heq, -, -, -, hgroup, htopic, -⟩ := goBack_spec d c message
    rw [heq]
    exact ⟨hgroup, htopic⟩

theorem Moved.not_done (hmove : c.Moved d d' c') (hdone : c'.phase ≠ .done) : c.phase ≠ .done := by
  cases hmove with
  | ended => simp at hdone
  | idled hnot => exact hnot
  | skipped hph | began hph | worked hph | succeeded hph | failed hph => simp [hph]

end Moves

end Consumer

/-! ## What is accounted for -/

namespace Migration

/-- After a history, a message at an offset cannot be read, or at some time in the past a member of
the group had just handled it with success. -/
def Settled (m : Migration ρ) (group topic : String) (readable : Bytes → Bool)
    (history : List (Happening ρ)) (i : Nat) : Prop :=
  ∀ payload, ((m.after history).site.broker.log topic)[i]? = some payload →
    readable payload = false ∨ ∃ past, past <+: history ∧ ∃ c ∈ (m.after past).consumers,
      c.IsMember group topic ∧ c.Succeeds { topic, offset := i, payload }

/-- After a history, every message below the committed offset of a group, and below the place of
each of its members, is settled. -/
structure Accounted (m : Migration ρ) (group topic : String) (readable : Bytes → Bool)
    (history : List (Happening ρ)) : Prop where
  committed_le : (m.after history).site.broker.committedOffset group topic ≤
    ((m.after history).site.broker.log topic).length
  committed : ∀ i < (m.after history).site.broker.committedOffset group topic,
    m.Settled group topic readable history i
  member : ∀ c ∈ (m.after history).consumers, c.IsMember group topic → c.phase ≠ .done →
    c.Follows topic readable ((m.after history).site.broker.log topic) ∧
      ∀ i < c.position, m.Settled group topic readable history i
  rewind : (m.after history).site.broker.script.getD .rewind [] = []

variable {m : Migration ρ} {past : List (Happening ρ)} {h : Happening ρ}

theorem Settled.grown {i : Nat} (hs : m.Settled group topic readable past i)
    (hi : i < ((m.after past).site.broker.log topic).length)
    (hlog : (m.after past).site.broker.log topic <+:
      (m.after (past ++ [h])).site.broker.log topic) :
    m.Settled group topic readable (past ++ [h]) i := by
  intro payload hp
  have hold : ((m.after past).site.broker.log topic)[i]? = some payload := by
    rw [← hp, getElem?_of_grown hlog (List.getElem?_eq_getElem hi), List.getElem?_eq_getElem hi]
  rcases hs payload hold with hread | ⟨earlier, hpre, hc⟩
  · exact .inl hread
  · exact .inr ⟨earlier, hpre.trans (List.prefix_append ..), hc⟩

/-- What is accounted for after a history stays so if what is committed anew is settled, and so is
what is below the members that are not where they were. -/
private theorem Accounted.concat (ha : m.Accounted group topic readable past)
    (hlog : (m.after past).site.broker.log topic <+:
      (m.after (past ++ [h])).site.broker.log topic)
    (hrewind : (m.after (past ++ [h])).site.broker.script.getD .rewind [] =
      (m.after past).site.broker.script.getD .rewind [])
    (hcommitted : ∀ i < (m.after (past ++ [h])).site.broker.committedOffset group topic,
      i < (m.after past).site.broker.committedOffset group topic ∨
        i < ((m.after past).site.broker.log topic).length ∧
          m.Settled group topic readable (past ++ [h]) i)
    (hmember : ∀ c' ∈ (m.after (past ++ [h])).consumers, c'.IsMember group topic →
      c'.phase ≠ .done → (∃ c ∈ (m.after past).consumers, c.Kept c') ∨
        c'.Follows topic readable ((m.after past).site.broker.log topic) ∧
          ∀ i < c'.position, m.Settled group topic readable (past ++ [h]) i) :
    m.Accounted group topic readable (past ++ [h]) := by
  have hgrown {i : Nat} (hi : i < ((m.after past).site.broker.log topic).length)
      (hs : m.Settled group topic readable past i) :
      m.Settled group topic readable (past ++ [h]) i := hs.grown hi hlog
  refine ⟨?_, fun i hi => ?_, fun c' hc' hm hph => ?_, hrewind.trans ha.rewind⟩
  · refine Nat.le_of_not_lt fun hlt => ?_
    have := hlog.length_le
    have := ha.committed_le
    rcases hcommitted _ hlt with hi | ⟨hi, -⟩ <;> omega
  · rcases hcommitted i hi with hi | ⟨-, hs⟩
    · exact hgrown (Nat.lt_of_lt_of_le hi ha.committed_le) (ha.committed i hi)
    · exact hs
  · rcases hmember c' hc' hm hph with ⟨c, hc, hsub, hhandler, hphase⟩ | ⟨hf, hs⟩
    · have hphase : c'.phase = c.phase := hphase.resolve_right hph
      have hm' : c.IsMember group topic := by rwa [Consumer.IsMember, ← hsub]
      obtain ⟨hf, hs⟩ := ha.member c hc hm' (hphase ▸ hph)
      have hposition : c'.position = c.position := by
        rw [Consumer.position, Consumer.position, hphase, hsub]
      have hf' : c'.Follows topic readable ((m.after past).site.broker.log topic) :=
        ⟨hhandler ▸ hf.handler, hsub ▸ hf.cursor, by rw [hphase, hsub]; exact hf.handling⟩
      refine ⟨hf'.grown hlog, fun i hi => hgrown ?_ (hs i (hposition ▸ hi))⟩
      exact Nat.lt_of_lt_of_le hi hf'.position_le
    · exact ⟨hf.grown hlog, hs⟩

/-- The messages up to the one that a member passes are settled. -/
private theorem settled_of_passes (ha : m.Accounted group topic readable past)
    {c : Consumer ρ} (hc : c ∈ (m.after past).consumers) (hm : c.IsMember group topic)
    (hdone : c.phase ≠ .done)
    (hpasses : c.Passes topic readable ((m.after past).site.broker.log topic))
    (hlog : (m.after past).site.broker.log topic <+:
      (m.after (past ++ [h])).site.broker.log topic) {i : Nat} (hi : i ≤ c.position) :
    i < ((m.after past).site.broker.log topic).length ∧
      m.Settled group topic readable (past ++ [h]) i := by
  obtain ⟨payload, hat, hpassed⟩ := hpasses
  have hlt : i < ((m.after past).site.broker.log topic).length :=
    Nat.lt_of_le_of_lt hi (List.getElem?_eq_some_iff.mp hat).1
  refine ⟨hlt, ?_⟩
  rcases Nat.lt_or_eq_of_le hi with hi | rfl
  · exact ((ha.member c hc hm hdone).2 i hi).grown hlt hlog
  · intro payload' hp
    obtain rfl : payload' = payload :=
      Option.some.inj (hp.symm.trans (getElem?_of_grown hlog hat))
    exact hpassed.imp id fun hsucc => ⟨past, List.prefix_append .., c, hc, hm, hsucc⟩

/-- Whatever happens, the messages stay accounted for. -/
theorem Accounted.perform (ha : m.Accounted group topic readable past)
    (hjoin : ∀ handler limit backoff stopped,
      h = .join handler group topic limit backoff stopped → handler.reads = readable) :
    m.Accounted group topic readable (past ++ [h]) := by
  have hs := (m.after past).stirred_perform h
  rw [← after_concat] at hs
  generalize hafter : m.after (past ++ [h]) = m' at hs
  cases hs with
  | kept hg hkept =>
    subst hafter
    exact ha.concat (hg.log topic) hg.rewind (fun i hi => .inl (hg.committed .. ▸ hi))
      fun c' hc' _ _ => .inl (hkept c' hc')
  | @joined handler group' topic' limit backoff stopped c m' hg hsub hhandler hph hconsumers =>
    subst hafter
    refine ha.concat (hg.log topic) hg.rewind (fun i hi => .inl (hg.committed .. ▸ hi))
      fun c' hc' hm hdone => ?_
    rw [hconsumers] at hc'
    rcases List.mem_append.mp hc' with hc' | hc'
    · exact .inl ⟨c', hc', .refl c'⟩
    · -- the member that joins starts at the committed offset
      obtain rfl := List.mem_singleton.mp hc'
      rw [Consumer.IsMember, hsub] at hm
      obtain ⟨rfl, rfl⟩ := hm
      have hcursor : c'.subscription.cursor =
          (m.after past).site.broker.committedOffset group' topic' := by rw [hsub]; rfl
      have hposition : c'.position = c'.subscription.cursor := by rw [Consumer.position, hph]
      refine .inr ⟨⟨hhandler ▸ hjoin _ _ _ _ rfl, hcursor ▸ ha.committed_le, ?_⟩, fun i hi => ?_⟩
      · intro message work due hph'
        rw [hph] at hph'
        cases hph'
      · rw [hposition, hcursor] at hi
        exact (ha.committed i hi).grown (Nat.lt_of_lt_of_le hi ha.committed_le) (hg.log topic')
  | @moved n c d' c' hc hmove =>
    have hmem : c ∈ (m.after past).consumers := List.mem_of_getElem? hc
    have hlog : (m.after past).site.broker.log topic <+:
        (m.after (past ++ [Happening.turn (.consumer n)])).site.broker.log topic := by
      rw [hafter]
      exact hmove.log topic
    refine ha.concat hlog ?_ (fun i hi => ?_) fun x hx hm hdone => ?_
    · rw [hafter, hmove.rewind ha.rewind, ha.rewind]
    · rw [hafter] at hi
      rcases hmove.committed (fun hm hdone => (ha.member c hmem hm hdone).1) hi with
        hi | ⟨hm, hdone, hi, hpasses⟩
      · exact .inl hi
      · exact .inr (settled_of_passes ha hmem hm hdone hpasses hlog hi)
    · rw [hafter] at hx
      rcases List.mem_or_eq_of_mem_set hx with hx | rfl
      · exact .inl ⟨x, hx, .refl x⟩
      · have hm' : c.IsMember group topic := by
          obtain ⟨hgroup, htopic⟩ := hmove.subscription
          rwa [Consumer.IsMember, ← hgroup, ← htopic]
        have hdone' := hmove.not_done hdone
        obtain ⟨hf, hs⟩ := ha.member c hmem hm' hdone'
        obtain ⟨hf', hposition⟩ := hf.move hm'.2 ha.rewind hmove hdone
        refine .inr ⟨hf', fun i hi => ?_⟩
        rcases hposition with hle | ⟨heq, hpasses⟩
        · have hi := Nat.lt_of_lt_of_le hi hle
          exact (hs i hi).grown (Nat.lt_of_lt_of_le hi hf.position_le) hlog
        · exact (settled_of_passes ha hmem hm' hdone' hpasses hlog (by omega)).2

/-- A group without members in a topic of which nothing is committed has nothing to account for. -/
theorem accounted_start {m : Migration ρ}
    (hcommitted : m.site.broker.committedOffset group topic = 0)
    (hmembers : ∀ c ∈ m.consumers, ¬ c.IsMember group topic)
    (hrewind : m.site.broker.script.getD .rewind [] = []) :
    m.Accounted group topic readable [] := by
  refine ⟨?_, fun i hi => ?_, fun c hc hm => absurd hm (hmembers c hc), hrewind⟩
  · exact hcommitted ▸ Nat.zero_le _
  · rw [after, List.foldl_nil, hcommitted] at hi
    exact absurd hi (Nat.not_lt_zero i)

/-- The messages of a topic are accounted for after every history in which the members of a group
can read the same messages. -/
theorem accounted_after {m : Migration ρ} {history : List (Happening ρ)}
    (hcommitted : m.site.broker.committedOffset group topic = 0)
    (hmembers : ∀ c ∈ m.consumers, ¬ c.IsMember group topic)
    (hrewind : m.site.broker.script.getD .rewind [] = [])
    (hjoin : ∀ handler limit backoff stopped,
      .join handler group topic limit backoff stopped ∈ history → handler.reads = readable) :
    m.Accounted group topic readable history := by
  induction history using List.reverseRecOn with
  | nil => exact accounted_start hcommitted hmembers hrewind
  | append_singleton past h ih =>
    refine (ih fun handler limit backoff stopped hmem => ?_).perform
      fun handler limit backoff stopped heq => ?_
    · exact hjoin handler limit backoff stopped (List.mem_append_left _ hmem)
    · exact hjoin handler limit backoff stopped (by simp [heq])

/-- At-least-once delivery: when the broker refuses no member to go back to a message, each message
below the committed offset of a group cannot be read, or a member has handled it with success. -/
theorem handled_of_committed {m : Migration ρ} {history : List (Happening ρ)}
    (hcommitted : m.site.broker.committedOffset group topic = 0)
    (hmembers : ∀ c ∈ m.consumers, ¬ c.IsMember group topic)
    (hrewind : m.site.broker.script.getD .rewind [] = [])
    (hjoin : ∀ handler limit backoff stopped,
      .join handler group topic limit backoff stopped ∈ history → handler.reads = readable)
    {i : Nat} (hi : i < (m.after history).site.broker.committedOffset group topic) :
    ∃ payload, ((m.after history).site.broker.log topic)[i]? = some payload ∧
      (readable payload = false ∨ ∃ past, past <+: history ∧ ∃ c ∈ (m.after past).consumers,
        c.IsMember group topic ∧ c.Succeeds { topic, offset := i, payload }) := by
  have ha := accounted_after hcommitted hmembers hrewind hjoin
  have hat := List.getElem?_eq_getElem (Nat.lt_of_lt_of_le hi ha.committed_le)
  exact ⟨_, hat, ha.committed i hi _ hat⟩

/-- A handler of the messages that are not empty, which fails with the first. -/
def sampleHandler : Handler :=
  .scripted (fun payload => if payload.isEmpty then none else some 0)
    [(0, .error (.store "down"))]

/-- A migration with a message that cannot be read and one that can. -/
def sampleQueue : Migration Account :=
  { site := { Deployment.ofRows [] [] .srcOnly with
      broker := (({} : Broker).append "changes" []).append "changes" [1] } }

/-- A member that is aborted after it failed, and another that takes its place. -/
def sampleHistory : List (Happening Account) :=
  .join sampleHandler "group" "changes" 1000 100 false ::
    List.replicate 7 (.turn (.consumer 0)) ++
    [.abort 0, .join sampleHandler "group" "changes" 1000 100 false] ++
    List.replicate 6 (.turn (.consumer 1)) ++ [.time 100] ++
    List.replicate 5 (.turn (.consumer 1))

theorem handled_of_committed_sample :
    1 < (sampleQueue.after sampleHistory).site.broker.committedOffset "group" "changes" ∧
      ∃ payload, ((sampleQueue.after sampleHistory).site.broker.log "changes")[1]? = some payload ∧
        (sampleHandler.reads payload = false ∨ ∃ past, past <+: sampleHistory ∧
          ∃ c ∈ (sampleQueue.after past).consumers, c.IsMember "group" "changes" ∧
            c.Succeeds { topic := "changes", offset := 1, payload }) := by
  have hi : 1 < (sampleQueue.after sampleHistory).site.broker.committedOffset "group"
      "changes" := by
    decide +kernel
  refine ⟨hi, handled_of_committed rfl (fun c hc => by cases hc) rfl ?_ hi⟩
  intro handler limit backoff stopped hmem
  have hhandler : handler = sampleHandler := by simp [sampleHistory] at hmem; exact hmem.1
  rw [hhandler]

end Migration

end Cutover
