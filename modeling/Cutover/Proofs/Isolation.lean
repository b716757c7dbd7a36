import Cutover.Proofs.Deliveries

/-!
# Consumers apart from each other

The fixer of the reports and the listener to the change notices are members of groups, and each
passes by what it cannot read. They keep out of each other's way (`Migration.Isolated`) as long as
they do not share both the group and the topic, since offsets are committed for a group in a topic.
When they share both, the listener commits the offset after a report that no fixer has seen. No
setting that is accepted is kept from sharing them. Main statement: `Migration.isolated_iff`.
-/

namespace Cutover

variable {ρ : Type} [Entity ρ] {group topic : String}

/-! ## The handler of a consumer -/

/-- What a handler is after some messages. Only a plan is used up. -/
inductive Handler.Becomes : Handler → Handler → Prop where
  | refl (h : Handler) : Becomes h h
  | planned {read outcomes outcomes'} : Becomes (.scripted read outcomes) (.scripted read outcomes')

namespace Handler

variable {h h' h'' : Handler}

theorem Becomes.trans (h₁ : h.Becomes h') (h₂ : h'.Becomes h'') : h.Becomes h'' := by
  cases h₁ with
  | refl => exact h₂
  | planned =>
    cases h₂ with
    | refl => exact .planned
    | planned => exact .planned

theorem becomes_of_begin {d : Deployment ρ} {payload : Bytes} {id : Int} {work : Handling ρ}
    (hb : h.begin d payload = some (id, work, h')) : h.Becomes h' := by
  cases h with
  | fixer | listener config =>
    obtain ⟨_, -, heq⟩ := Option.map_eq_some_iff.mp hb
    cases heq
    exact .refl _
  | scripted read outcomes =>
    obtain ⟨_, -, heq⟩ := Option.map_eq_some_iff.mp hb
    cases outcomes <;> cases heq <;> exact .planned

end Handler

theorem Consumer.Moved.handler {d d' : Deployment ρ} {c c' : Consumer ρ} (h : c.Moved d d' c') :
    c.handler.Becomes c'.handler := by
  cases h with
  | ended | idled | skipped | worked | succeeded => exact .refl _
  | began _ _ hbegin => exact Handler.becomes_of_begin hbegin
  | @failed message =>
    obtain ⟨b, s, heq, -⟩ := Consumer.goBack_spec d c message
    rw [heq]
    exact .refl _

/-- A consumer passes by a message that it cannot read. -/
theorem Consumer.step_of_unread {now : Nat} {d : Deployment ρ} {c : Consumer ρ} {message : Delivery}
    {subscription : Subscription} (hasked : c.stopped = false) (hph : c.phase = .waiting)
    (hpoll : d.broker.poll c.subscription = .message message subscription)
    (hnone : c.handler.begin d message.payload = none) :
    c.step now d = some
      (acknowledge d { c with subscription } message,
        { c with subscription, phase := .asking }) := by
  simp [step, isDone, proceed, hasked, hph, hpoll, onMessage, hnone]

namespace Migration

/-- In a history a consumer joins a group that reads a topic, with some handler. -/
def Hires (history : List (Happening ρ)) (handler : Handler) (group topic : String) : Prop :=
  ∃ limit backoff stopped, .join handler group topic limit backoff stopped ∈ history

/-- Every consumer has joined in the history. -/
theorem hired_of_consumer {m : Migration ρ} (hnone : m.consumers = [])
    {history : List (Happening ρ)} {c : Consumer ρ} (hc : c ∈ (m.after history).consumers) :
    ∃ handler, Hires history handler c.subscription.group c.subscription.topic ∧
      handler.Becomes c.handler := by
  induction history using List.reverseRecOn generalizing c with
  | nil => simp [after, hnone] at hc
  | append_singleton past h ih =>
    have grown {handler : Handler} {group topic : String} (hh : Hires past handler group topic) :
        Hires (past ++ [h]) handler group topic := by
      obtain ⟨limit, backoff, stopped, hmem⟩ := hh
      exact ⟨limit, backoff, stopped, List.mem_append_left _ hmem⟩
    have hs := (m.after past).stirred_perform h
    rw [← after_concat] at hs
    generalize m.after (past ++ [h]) = m' at hs hc
    cases hs with
    | kept _ hkept =>
      obtain ⟨c₀, hc₀, hsub, hhandler, -⟩ := hkept c hc
      obtain ⟨handler, hhires, hbecomes⟩ := ih hc₀
      exact ⟨handler, by rw [hsub]; exact grown hhires, hhandler ▸ hbecomes⟩
    | @joined handler _ _ limit backoff stopped x _ _ hsub hhandler _ hconsumers =>
      rw [hconsumers] at hc
      rcases List.mem_append.mp hc with hc | hc
      · obtain ⟨handler', hhires, hbecomes⟩ := ih hc
        exact ⟨handler', grown hhires, hbecomes⟩
      · obtain rfl := List.mem_singleton.mp hc
        rw [hsub]
        exact ⟨handler, ⟨limit, backoff, stopped, by simp [Broker.subscribe]⟩, hhandler ▸ .refl _⟩
    | @moved n x d' x' hx hmove =>
      rcases List.mem_or_eq_of_mem_set hc with hc | rfl
      · obtain ⟨handler, hhires, hbecomes⟩ := ih hc
        exact ⟨handler, grown hhires, hbecomes⟩
      · obtain ⟨handler, hhires, hbecomes⟩ := ih (List.mem_of_getElem? hx)
        obtain ⟨hgroup, htopic⟩ := hmove.subscription
        exact ⟨handler, by rw [hgroup, htopic]; exact grown hhires, hbecomes.trans hmove.handler⟩

end Migration

/-! ## The consumers of a configuration -/

namespace Config

/-- The consumers that a configuration asks for: their handlers, groups and topics. -/
inductive Employs (config : Config) : Handler → String → String → Prop where
  | fixer : Employs config .fixer config.fixGroup config.inconsistencyTopic
  | listener : Employs config (.listener config) config.changeGroup config.changeTopic

variable {config : Config} {handler handler' : Handler}

theorem Employs.cases (h : config.Employs handler group topic) :
    handler = .fixer ∧ group = config.fixGroup ∧ topic = config.inconsistencyTopic ∨
      handler = .listener config ∧ group = config.changeGroup ∧ topic = config.changeTopic := by
  cases h with
  | fixer => exact .inl ⟨rfl, rfl, rfl⟩
  | listener => exact .inr ⟨rfl, rfl, rfl⟩

/-- Consumers that do not share both their group and their topic can be told apart by them. -/
theorem Employs.handler_eq
    (hne : config.inconsistencyTopic ≠ config.changeTopic ∨ config.fixGroup ≠ config.changeGroup)
    (h : config.Employs handler group topic) (h' : config.Employs handler' group topic) :
    handler = handler' := by
  rcases h.cases with ⟨rfl, rfl, rfl⟩ | ⟨rfl, rfl, rfl⟩ <;>
    rcases h'.cases with ⟨rfl, hg, ht⟩ | ⟨rfl, hg, ht⟩
  · rfl
  · simp [hg, ht] at hne
  · simp [hg, ht] at hne
  · rfl

/-- Neither of them changes its handler. -/
theorem Employs.eq_of_becomes (h : config.Employs handler group topic)
    (hb : handler.Becomes handler') : handler' = handler := by
  cases h with
  | fixer | listener => cases hb; rfl

/-- A history in which no other consumers join than a configuration asks for, as often as they
like. -/
def Staffs (config : Config) (history : List (Happening ρ)) : Prop :=
  ∀ handler group topic, Migration.Hires history handler group topic →
    config.Employs handler group topic

end Config

namespace Migration

/-- After a history, each message below the committed offset of a group in a topic that a handler
can read was handled with success by a member with that handler. -/
def Delivered (m : Migration ρ) (handler : Handler) (group topic : String)
    (history : List (Happening ρ)) : Prop :=
  ∀ i payload, i < (m.after history).site.broker.committedOffset group topic →
    ((m.after history).site.broker.log topic)[i]? = some payload → handler.reads payload = true →
    ∃ past, past <+: history ∧ ∃ c ∈ (m.after past).consumers, c.handler = handler ∧
      c.IsMember group topic ∧ c.Succeeds { topic, offset := i, payload }

/-- After a history, the fixers of a configuration have lost no report, and the listeners no change
notice. -/
structure Isolated (m : Migration ρ) (config : Config) (history : List (Happening ρ)) : Prop where
  reports : m.Delivered .fixer config.fixGroup config.inconsistencyTopic history
  changes : m.Delivered (.listener config) config.changeGroup config.changeTopic history

variable {m : Migration ρ} {history : List (Happening ρ)} {config : Config} {handler : Handler}

/-- A group whose members all have one handler loses nothing that this handler can read. -/
theorem delivered_of_hires (hnone : m.consumers = [])
    (hcommitted : m.site.broker.committedOffset group topic = 0)
    (hrewind : m.site.broker.script.getD .rewind [] = [])
    (hhandler : ∀ h, handler.Becomes h → h = handler)
    (hhires : ∀ h, Hires history h group topic → h = handler) :
    m.Delivered handler group topic history := by
  intro i payload hi hlog hreads
  have ha : m.Accounted group topic handler.reads history :=
    accounted_after hcommitted (by simp [hnone]) hrewind fun h limit backoff stopped hmem => by
      rw [hhires h ⟨limit, backoff, stopped, hmem⟩]
  rcases ha.committed i hi payload hlog with hnot | ⟨past, hpast, c, hc, hmember, hsucceeds⟩
  · simp [hreads] at hnot
  · obtain ⟨h, ⟨limit, backoff, stopped, hmem⟩, hbecomes⟩ := hired_of_consumer hnone hc
    rw [hmember.1, hmember.2] at hmem
    obtain rfl := hhires h ⟨limit, backoff, stopped, hpast.subset hmem⟩
    exact ⟨past, hpast, c, hc, hhandler _ hbecomes, hmember, hsucceeds⟩

/-- Consumers that do not share both their group and their topic are isolated. -/
theorem isolated_of_ne (hnone : m.consumers = [])
    (hcommitted : ∀ group topic, m.site.broker.committedOffset group topic = 0)
    (hrewind : m.site.broker.script.getD .rewind [] = []) (hstaffs : config.Staffs history)
    (hne : config.inconsistencyTopic ≠ config.changeTopic ∨ config.fixGroup ≠ config.changeGroup) :
    m.Isolated config history := by
  have delivered {handler : Handler} {group topic : String}
      (h : config.Employs handler group topic) : m.Delivered handler group topic history :=
    delivered_of_hires hnone (hcommitted group topic) hrewind (fun _ => h.eq_of_becomes)
      fun _ hhires => (hstaffs _ _ _ hhires).handler_eq hne h
  exact ⟨delivered .fixer, delivered .listener⟩

/-! ## Sharing a group and a topic -/

/-- A report that the source has a row that the destination has not. -/
def missedReport : Bytes := Report.encode ⟨1, .src, .targetMissing⟩

/-- A report is published, and a listener joins, looks for a message and passes it by. -/
def passedBy (ρ : Type) [Entity ρ] (config : Config) : List (Happening ρ) :=
  [.post config.inconsistencyTopic missedReport 0, .turn (.post 0), .turn (.post 0),
    .join (.listener config) config.changeGroup config.changeTopic config.fixTimeout.ticks
      config.redeliveryBackoff.ticks false,
    .turn (.consumer 0), .turn (.consumer 0)]

theorem hires_passedBy (h : Hires (passedBy ρ config) handler group topic) :
    handler = .listener config ∧ group = config.changeGroup ∧ topic = config.changeTopic := by
  obtain ⟨limit, backoff, stopped, hmem⟩ := h
  simp only [passedBy, List.mem_cons, reduceCtorEq, Happening.join.injEq, false_or,
    List.not_mem_nil, or_false] at hmem
  exact ⟨hmem.1, hmem.2.1, hmem.2.2.1⟩

theorem staffs_passedBy : config.Staffs (passedBy ρ config) := by
  intro handler group topic h
  obtain ⟨rfl, rfl, rfl⟩ := hires_passedBy h
  exact .listener

theorem unread_missedReport (d : Deployment ρ) :
    (Handler.listener config).begin d missedReport = none := by
  have hnone : Change.decode? missedReport = none := by decide +kernel
  simp [Handler.begin, hnone]

/-- A migration in which nothing has happened. -/
def fresh (config : Config) (src dst : Store ρ) (policy : Policy) : Migration ρ :=
  { config, site := { src, dst, policy } }

/-- The listener waits for a message, and the report is there. -/
theorem waiting_passedBy (src dst : Store ρ) (policy : Policy)
    (htopic : config.inconsistencyTopic = config.changeTopic) :
    let m := (fresh config src dst policy).after ((passedBy ρ config).take 5)
    m.site.broker.log config.changeTopic = [missedReport] ∧ m.site.broker.closed = false ∧
      m.site.broker.committed = {} ∧ m.site.broker.script = {} ∧
      ∃ c, m.consumers = [c] ∧ c.phase = .waiting ∧ c.stopped = false ∧
        c.handler = .listener config ∧
        c.subscription = ⟨config.changeGroup, config.changeTopic, 0⟩ := by
  rw [passedBy, htopic]
  refine ⟨?_, rfl, rfl, rfl, _, rfl, rfl, rfl, rfl, rfl⟩
  change (({} : Broker).append config.changeTopic missedReport).log config.changeTopic = _
  rw [Broker.log_append, if_pos rfl]
  rfl

theorem committed_passedBy (src dst : Store ρ) (policy : Policy)
    (htopic : config.inconsistencyTopic = config.changeTopic) :
    let m := (fresh config src dst policy).after (passedBy ρ config)
    m.site.broker.log config.changeTopic = [missedReport] ∧
      m.site.broker.committedOffset config.changeGroup config.changeTopic = 1 := by
  intro m
  obtain ⟨hlog, hopen, hcommitted, hscript, c, hc, hph, hasked, hhandler, hsub⟩ :=
    waiting_passedBy src dst policy htopic
  have hm : m = ((fresh config src dst policy).after ((passedBy ρ config).take 5)).perform
      (.turn (.consumer 0)) := after_concat _ ((passedBy ρ config).take 5) _
  generalize (fresh config src dst policy).after ((passedBy ρ config).take 5) = m' at *
  have hpoll : m'.site.broker.poll c.subscription = .message
      { topic := config.changeTopic, offset := 0, payload := missedReport }
      ⟨config.changeGroup, config.changeTopic, 1⟩ := by
    simp [Broker.poll, hopen, hsub, hlog]
  have hnone : c.handler.begin m'.site missedReport = none := by
    rw [hhandler, unread_missedReport]
  have hack (s : Subscription) (c' : Consumer ρ) (hs : c'.subscription = s) (message : Delivery) :
      Consumer.acknowledge m'.site c' message =
        { m'.site with broker := m'.site.broker.ack s message.offset } := by
    have hnever : m'.site.broker.scripted .ack = (none, m'.site.broker) := by
      rw [Broker.scripted, hscript]
      rfl
    rw [Consumer.acknowledge, hnever, hs]
  rw [hm, perform_consumer (by simp [hc]) (Consumer.step_of_unread hasked hph hpoll hnone),
    hack _ _ rfl]
  refine ⟨hlog, ?_⟩
  rw [Broker.committedOffset_ack, if_pos rfl, Broker.committedOffset, hcommitted]
  rfl

/-- The committed offset is after a report that no fixer has seen. -/
theorem not_isolated_passedBy (src dst : Store ρ) (policy : Policy)
    (htopic : config.inconsistencyTopic = config.changeTopic)
    (hgroup : config.fixGroup = config.changeGroup) :
    ¬ (fresh config src dst policy).Isolated config (passedBy ρ config) := by
  rintro ⟨hreports, -⟩
  obtain ⟨hlog, hcommitted⟩ := committed_passedBy src dst policy htopic
  rw [htopic, hgroup] at hreports
  have hreads : Handler.fixer.reads missedReport = true := by decide +kernel
  obtain ⟨past, hpast, c, hc, hfixer, -⟩ :=
    hreports 0 missedReport (by rw [hcommitted]; exact Nat.one_pos) (by rw [hlog]; rfl) hreads
  obtain ⟨handler, ⟨limit, backoff, stopped, hmem⟩, hbecomes⟩ := hired_of_consumer rfl hc
  have hhires : Hires (passedBy ρ config) handler c.subscription.group c.subscription.topic :=
    ⟨limit, backoff, stopped, hpast.subset hmem⟩
  rw [(hires_passedBy hhires).1, hfixer] at hbecomes
  cases hbecomes

/-- The consumers of a configuration are isolated in every history if and only if they do not share
both their group and their topic. -/
theorem isolated_iff (config : Config) (src dst : Store ρ) (policy : Policy) :
    (∀ history, config.Staffs history → (fresh config src dst policy).Isolated config history) ↔
      config.inconsistencyTopic ≠ config.changeTopic ∨ config.fixGroup ≠ config.changeGroup := by
  constructor
  · intro h
    by_contra hne
    obtain ⟨htopic, hgroup⟩ : config.inconsistencyTopic = config.changeTopic ∧
        config.fixGroup = config.changeGroup := by simpa using hne
    exact not_isolated_passedBy src dst policy htopic hgroup (h _ staffs_passedBy)
  · intro hne history hstaffs
    exact isolated_of_ne rfl (fun _ _ => rfl) rfl hstaffs hne

/-- A configuration whose consumers share their group and their topic. -/
def sampleShared : Config where
  inconsistencyTopic := "events"
  changeTopic := "events"
  fixGroup := "migrator"
  changeGroup := "migrator"

/-- The configuration is accepted, and a listener keeps a report from the fixers. -/
theorem shared_not_isolated :
    sampleShared.validate = .ok () ∧ sampleShared.Staffs (passedBy Account sampleShared) ∧
      ¬ (fresh sampleShared (.ofTable "src" [⟨1, "ann", 10, 5⟩]) (.ofTable "dst" [])
          .srcOnly).Isolated sampleShared (passedBy Account sampleShared) :=
  ⟨by decide +kernel, staffs_passedBy, not_isolated_passedBy _ _ _ rfl rfl⟩

end Migration

end Cutover
