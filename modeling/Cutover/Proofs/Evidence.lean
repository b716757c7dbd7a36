import Cutover.Proofs.Handlings
import Cutover.Proofs.Rows

/-!
# What a report rests on

A report says that a row of the base and a row of the other store do not agree. Whoever reports it
was shown the one by the base and the other by the other store. Here `seen` stands for what was
shown: for each store and each id a row, or that there is none. Scans and checks report nothing that
does not rest on what was seen, and change no store; repairs change no row but the one that they are
about.
-/

namespace Cutover

variable {ρ : Type} [Entity ρ]

/-! ## What stores show -/

namespace Deployment

/-- What a store shows under an id: one of its rows, or that it has none. -/
def Shows (d : Deployment ρ) (side : Side) (id : Int) : Option ρ → Prop
  | some r => r ∈ (d.store side).rows ∧ Entity.id r = id
  | none => ∀ r ∈ (d.store side).rows, Entity.id r ≠ id

/-- What a store answers when it is asked for the row of an id. It may refuse the question in the
words in which it says that it has no such row. -/
def Tells (d : Deployment ρ) (side : Side) (id : Int) (row : Option ρ) : Prop :=
  d.Shows side id row ∨
    row = none ∧ ((d.store side).start (.first id)).2.refused = some .notFound

variable {d d' : Deployment ρ} {side : Side} {id : Int}

theorem shows_first? : d.Shows side id (Rows.first? id (d.store side).rows) := by
  cases h : Rows.first? id (d.store side).rows with
  | some r => exact Rows.mem_of_first? h
  | none => exact Rows.first?_eq_none_iff.mp h

/-- The last one of the rows that a store gives for some ids, or that none of them has the id. -/
theorem shows_last? {ids : List Int} (hid : id ∈ ids) :
    d.Shows side id (Scan.last? id (Rows.ofIds ids (d.store side).rows)) := by
  cases h : Scan.last? id (Rows.ofIds ids (d.store side).rows) with
  | some r =>
    obtain ⟨hr, hrid⟩ := Rows.mem_of_first? h
    exact ⟨(List.mem_filter.mp (List.mem_reverse.mp hr)).1, hrid⟩
  | none =>
    intro r hr hrid
    refine Rows.first?_eq_none_iff.mp h r (List.mem_reverse.mpr ?_) hrid
    exact List.mem_filter.mpr ⟨hr, by simpa [hrid] using hid⟩

theorem alike_first {m : Moment} {limit : Option Nat} {flight : Option Flight}
    {p : Progress (Call.Answer (.first id : Call ρ))}
    (h : d.call m limit side (.first id) flight = some (d', p)) : d.Alike d' := by
  cases called_of_call h with
  | begun _ hs | failed hs => exact .setStore hs
  | answered _ _ hs hplain =>
    refine .setStore ⟨hs.trans ?_, hplain⟩
    simp only [Contents.run]
    split <;> rfl

end Deployment

/-- A mismatch between what was seen under an id in the base and in the other store. -/
def Mismatch.RestsOn (seen : Side → Int → Option ρ → Prop) (base : Side) (id : Int)
    (kind : Mismatch) : Prop :=
  ∃ b t, Mismatch.between b t = some kind ∧ seen base id b ∧ seen base.other id t

variable {seen seen' : Side → Int → Option ρ → Prop}

theorem Mismatch.RestsOn.mono {base : Side} {id : Int} {kind : Mismatch}
    (h : RestsOn seen base id kind) (hseen : ∀ side id row, seen side id row → seen' side id row) :
    RestsOn seen' base id kind := by
  obtain ⟨b, t, hkind, hb, ht⟩ := h
  exact ⟨b, t, hkind, hseen _ _ _ hb, hseen _ _ _ ht⟩

/-! ## Scans -/

namespace Scan.Pass

variable {plan : Plan} {m : Moment} {d d' : Deployment ρ} {p p' : Pass ρ}

/-- A pass that compares rows seen in the store that it goes through, and reports what rests on what
was seen. -/
def Rests (seen : Side → Int → Option ρ → Prop) (plan : Plan) (p : Pass ρ) : Prop :=
  p.Carries (fun r => seen (p.pageSide plan) (Entity.id r) (some r))
    (fun x => Mismatch.RestsOn seen plan.base x.1 x.2)

theorem Rests.mono (h : p.Rests seen plan)
    (hseen : ∀ side id row, seen side id row → seen' side id row) : p.Rests seen' plan :=
  Carries.mono h (fun _ => hseen _ _ _) (fun _ hx => hx.mono hseen)

/-- What a pass finds for a page rests on the page and on what it is shown now. -/
theorem restsOn_of_mem_mismatches (hshows : ∀ side id row, d.Shows side id row → seen side id row)
    {page : List ρ} (hpage : ∀ r ∈ page, seen (p.pageSide plan) (Entity.id r) (some r))
    {x : Int × Mismatch} (hx : x ∈ p.way.mismatches page (d.store (p.lookupSide plan)).rows) :
    Mismatch.RestsOn seen plan.base x.1 x.2 := by
  unfold pageSide at hpage
  unfold lookupSide pageSide at hx
  cases hw : p.way with
  | baseToTarget =>
    simp only [hw] at hx hpage
    obtain ⟨r, hr, hx⟩ := List.mem_filterMap.mp hx
    obtain ⟨kind, hkind, rfl⟩ := Option.map_eq_some_iff.mp hx
    exact ⟨some r, _, hkind, hpage r hr,
      hshows _ _ _ (Deployment.shows_last? (List.mem_map_of_mem hr))⟩
  | targetToBase =>
    simp only [hw, Comparison.target, Side.other_other] at hx hpage
    obtain ⟨r, hr, rfl⟩ := List.mem_map.mp hx
    obtain ⟨hr, hmissing⟩ := List.mem_filter.mp hr
    refine ⟨none, some r, rfl, hshows _ _ _ fun s hs (hid : Entity.id s = Entity.id r) => ?_,
      hpage r hr⟩
    -- a row with the id would be one of those that the base gives for the page
    have hgiven : s ∈ Rows.ofIds (page.map Entity.id) (d.store plan.base).rows := by
      refine List.mem_filter.mpr ⟨hs, ?_⟩
      rw [hid]
      simpa using ⟨r, hr, rfl⟩
    simp only [Bool.not_eq_true', List.contains_eq_mem, decide_eq_false_iff_not, List.mem_map,
      not_exists, not_and] at hmissing
    exact hmissing s hgiven hid

theorem Rests.move (h : p.Rests seen plan)
    (hshows : ∀ side id row, d.Shows side id row → seen side id row)
    (hm : Moved plan m d p d' p') : p'.way = p.way ∧ p'.Rests seen plan := by
  obtain ⟨hway, hc⟩ := Carries.move h (fun r hr => hshows _ _ _ ⟨hr, rfl⟩)
    (fun _ hpage _ => restsOn_of_mem_mismatches hshows hpage) hm
  refine ⟨hway, ?_⟩
  unfold Rests pageSide
  rw [hway]
  exact hc

/-- A pass changes nothing but what is published, which is a report under the tag of the plan that
rests on what was seen. -/
theorem Rests.publishes (h : p.Rests seen plan) (hm : Moved plan m d p d' p') :
    d.Alike d' ∨ ∃ id kind, Mismatch.RestsOn seen plan.base id kind ∧
      d' = { d with broker := d.broker.append plan.topic (plan.report id kind).encode } :=
  Carries.publishes h hm

end Scan.Pass

/-! ## Checks -/

namespace Lookup

variable {c : Comparison} {side : Side} {id : Int} {m : Moment} {d d' : Deployment ρ}
  {l l' : Lookup ρ}

/-- A lookup that found what was seen. If its question was refused in the words for a missing row,
that was seen too. -/
def Rests (seen : Side → Int → Option ρ → Prop) (side : Side) (id : Int) : Lookup ρ → Prop
  | asking flight => ∀ f ∈ flight, f.refused = some .notFound → seen side id none
  | found row => seen side id row
  | failed _ => True

omit [Entity ρ] in
theorem Rests.mono (h : l.Rests seen side id)
    (hseen : ∀ side id row, seen side id row → seen' side id row) : l.Rests seen' side id := by
  cases l with
  | asking flight => exact fun f hf href => hseen _ _ _ (h f hf href)
  | found row => exact hseen _ _ _ h
  | failed e => trivial

theorem rests_of_finish (htells : ∀ row, d.Tells side id row → seen side id row) :
    (after (.answered ((d.store side).finish (.first id)).1)).Rests seen side id := by
  have hfirst := htells _ (.inl Deployment.shows_first?)
  unfold Store.finish
  split
  · trivial
  · dsimp only
    cases hf : Rows.first? id (d.store side).rows with
    | some r =>
      rw [hf] at hfirst
      rw [Contents.run_first_some hf]
      exact hfirst
    | none =>
      rw [hf] at hfirst
      rw [Contents.run_first_none hf]
      exact hfirst

theorem Rests.move (h : l.Rests seen side id)
    (htells : ∀ row, d.Tells side id row → seen side id row)
    (hm : l.step c side id m d = some (d', l')) : l'.Rests seen side id := by
  cases l with
  | found | failed => cases hm
  | asking flight =>
    obtain ⟨⟨e, p⟩, hcall, heq⟩ := Option.map_eq_some_iff.mp hm
    cases heq
    obtain ⟨⟨s, q⟩, hstep, heq⟩ := Option.map_eq_some_iff.mp hcall
    cases heq
    cases Flight.moved_of_step hstep with
    | stopped | late => trivial
    | started =>
      intro f hf href
      cases hf
      exact htells _ (.inr ⟨rfl, href⟩)
    | @refused f e _ _ href =>
      cases e with
      | notFound => exact h f rfl href
      | _ => trivial
    | finished => exact rests_of_finish htells

theorem alike_step (hm : l.step c side id m d = some (d', l')) : d.Alike d' := by
  cases l with
  | found | failed => cases hm
  | asking flight =>
    obtain ⟨⟨e, p⟩, hcall, heq⟩ := Option.map_eq_some_iff.mp hm
    cases heq
    exact Deployment.alike_first hcall

end Lookup

namespace RowCheck

variable {m : Moment} {d d' : Deployment ρ} {c c' : RowCheck ρ}

/-- A check that found what was seen, and reports what rests on it. -/
def Rests (seen : Side → Int → Option ρ → Prop) (c : RowCheck ρ) : Prop :=
  match c.phase with
  | .looking base target =>
    base.Rests seen c.comparison.base c.id ∧ target.Rests seen c.comparison.target c.id
  | .reporting kind _ => Mismatch.RestsOn seen c.comparison.base c.id kind
  | .done _ => True

theorem Rests.mono (h : c.Rests seen)
    (hseen : ∀ side id row, seen side id row → seen' side id row) : c.Rests seen' := by
  unfold Rests at h ⊢
  split
  · next hph =>
    simp only [hph] at h
    exact ⟨h.1.mono hseen, h.2.mono hseen⟩
  · next hph =>
    simp only [hph] at h
    exact h.mono hseen
  · trivial

theorem rests_settle {base target : Lookup ρ} (hb : base.Rests seen c.comparison.base c.id)
    (ht : target.Rests seen c.comparison.target c.id) :
    ({ c with phase := settle base target } : RowCheck ρ).Rests seen := by
  cases base with
  | failed e => trivial
  | asking f =>
    cases target with
    | failed e => trivial
    | asking g | found t => exact ⟨hb, ht⟩
  | found b =>
    cases target with
    | failed e => trivial
    | asking g => exact ⟨hb, ht⟩
    | found t =>
      cases hk : Mismatch.between b t with
      | none =>
        simp only [settle, hk]
        trivial
      | some kind =>
        simp only [settle, hk]
        exact ⟨b, t, hk, hb, ht⟩

theorem Rests.move (h : c.Rests seen)
    (htells : ∀ side row, d.Tells side c.id row → seen side c.id row)
    (hm : c.step m d = some (d', c')) :
    c'.comparison = c.comparison ∧ c'.id = c.id ∧ c'.Rests seen := by
  cases hph : c.phase with
  | done r => simp only [step, hph] at hm; cases hm
  | looking base target =>
    rw [Rests, hph] at h
    simp only [step, hph] at hm
    rcases (Option.orElse_eq_some ..).mp hm with hm | ⟨-, hm⟩
    · obtain ⟨⟨e, base'⟩, hstep, heq⟩ := Option.map_eq_some_iff.mp hm
      cases heq
      exact ⟨rfl, rfl, rests_settle (h.1.move (htells _) hstep) h.2⟩
    · obtain ⟨⟨e, target'⟩, hstep, heq⟩ := Option.map_eq_some_iff.mp hm
      cases heq
      exact ⟨rfl, rfl, rests_settle h.1 (h.2.move (htells _) hstep)⟩
  | reporting kind flight =>
    rw [Rests, hph] at h
    simp only [step, hph] at hm
    obtain ⟨⟨e, progress⟩, -, heq⟩ := Option.map_eq_some_iff.mp hm
    cases heq
    refine ⟨rfl, rfl, ?_⟩
    cases progress with
    | underway f => exact h
    | answered r =>
      cases r with
      | ok _ => trivial
      | error e => cases e <;> trivial

/-- A check changes nothing but what is published, which is a report under the tag of the comparison
that rests on what was seen. -/
theorem Rests.publishes (h : c.Rests seen) (hm : c.step m d = some (d', c')) :
    d.Alike d' ∨ ∃ kind, Mismatch.RestsOn seen c.comparison.base c.id kind ∧
      d' = { d with
        broker := d.broker.append c.comparison.topic (c.comparison.report c.id kind).encode } := by
  cases hph : c.phase with
  | done r => simp only [step, hph] at hm; cases hm
  | looking base target =>
    simp only [step, hph] at hm
    rcases (Option.orElse_eq_some ..).mp hm with hm | ⟨-, hm⟩
    · obtain ⟨⟨e, base'⟩, hstep, heq⟩ := Option.map_eq_some_iff.mp hm
      cases heq
      exact .inl (Lookup.alike_step hstep)
    · obtain ⟨⟨e, target'⟩, hstep, heq⟩ := Option.map_eq_some_iff.mp hm
      cases heq
      exact .inl (Lookup.alike_step hstep)
  | reporting kind flight =>
    rw [Rests, hph] at h
    simp only [step, hph] at hm
    obtain ⟨⟨e, progress⟩, hpublish, heq⟩ := Option.map_eq_some_iff.mp hm
    cases heq
    cases Deployment.posted_of_publish hpublish with
    | begun _ ha | failed ha => exact .inl (.withBroker ha)
    | answered => exact .inr ⟨kind, h, rfl⟩

end RowCheck

/-! ## Repairs -/

namespace Contents

theorem without_put (s : Contents ρ) (r : ρ) :
    Rows.without (Entity.id r) (s.put r).rows = Rows.without (Entity.id r) s.rows := by
  cases s with
  | table t => exact t.without_insert r
  | list rows => simp [put, Contents.rows, Rows.without]

theorem without_remove (s : Contents ρ) (id : Int) :
    Rows.without id (s.remove id).rows = Rows.without id s.rows := by
  cases s with
  | table t =>
    change Rows.without id (t.erase id).rows = _
    rw [Table.rows_erase]
    simp [Contents.rows, Rows.without]
  | list rows => simp [remove, Contents.rows, Rows.without]

end Contents

/-- The base of a report is left as it is, and so are the rows of the other store but the one that
the report is about. -/
structure Deployment.Spares (report : Report) (d d' : Deployment ρ) : Prop where
  base : (d'.store report.base).contents = (d.store report.base).contents
  others : Rows.without report.id (d'.store report.base.other).rows =
    Rows.without report.id (d.store report.base.other).rows

theorem Deployment.Alike.spares {d d' : Deployment ρ} (h : d.Alike d') (report : Report) :
    d.Spares report d' :=
  ⟨h.contents _, by rw [Store.rows, h.contents, Store.rows]⟩

theorem Deployment.spares_setStore {d : Deployment ρ} {report : Report} {s : Store ρ}
    (h : Rows.without report.id s.rows = Rows.without report.id (d.store report.base.other).rows) :
    d.Spares report (d.setStore s report.base.other) := by
  constructor
  · rw [store_setStore, if_neg (Side.other_ne _).symm]
  · rw [store_setStore, if_pos rfl, h]

/-- A repair of the row that a report is about, in the course of its moves. -/
inductive Repair.Of (report : Report) : Repair ρ → Prop where
  | start : Of report { base := report.base, id := report.id }
  | move {m : Moment} {d d' : Deployment ρ} {r r' : Repair ρ} :
      Of report r → r.step m d = some (d', r') → Of report r'

namespace Repair.Of

variable {report : Report} {m : Moment} {d d' : Deployment ρ} {r r' : Repair ρ}

/-- A repair has the base and the id of its report, and the row that it writes has that id. -/
theorem spec (h : r.Of report) :
    r.base = report.base ∧ r.id = report.id ∧
      ∀ row, r.phase = .writing row → Entity.id row = report.id := by
  induction h with
  | start => exact ⟨rfl, rfl, by simp⟩
  | move _ hstep ih =>
    obtain ⟨hbase, hid, hrow⟩ := ih
    cases Repair.moved_of_step hstep with
    | begun => exact ⟨hbase, hid, hrow⟩
    | found _ hfound =>
      refine ⟨hbase, hid, fun row hph => ?_⟩
      cases hph
      exact (Rows.mem_of_first? hfound).2.trans hid
    | missed | written | removed | failed | misled => exact ⟨hbase, hid, by simp [enter]⟩

theorem spares (h : r.Of report) (hstep : r.step m d = some (d', r')) :
    d.broker.Alike d'.broker ∧ d.Spares report d' := by
  obtain ⟨hbase, hid, hrow⟩ := h.spec
  cases Repair.moved_of_step hstep with
  | begun _ ha | found _ _ ha | missed _ _ ha | failed ha | misled _ ha =>
    exact ⟨ha.broker, ha.spares report⟩
  | @written s row hph hs =>
    rw [hbase] at hs ⊢
    refine ⟨by rw [Deployment.broker_setStore]; exact .refl _, Deployment.spares_setStore ?_⟩
    rw [Store.rows, hs, ← hrow row hph]
    exact Contents.without_put _ row
  | @removed s _ hs =>
    rw [hid, hbase] at hs
    rw [hbase]
    refine ⟨by rw [Deployment.broker_setStore]; exact .refl _, Deployment.spares_setStore ?_⟩
    rw [Store.rows, hs]
    exact Contents.without_remove _ _

end Repair.Of

/-! ## Handlings -/

namespace Handling

variable {handler handler' : Handler} {payload : Bytes} {base : Side} {id : Int} {m : Moment}
  {d d' : Deployment ρ} {w w' : Handling ρ}

/-- The handling of a message, with the side that served reads when it began: the repair of the row
of a report, or the check of the row of a change notice, with that side as its base. -/
def Of (handler : Handler) (payload : Bytes) (base : Side) (seen : Side → Int → Option ρ → Prop) :
    Handling ρ → Prop
  | repair r => ∃ report, Report.decode? payload = some report ∧ r.Of report
  | check c => ∃ config change, handler = .listener config ∧ Change.decode? payload = some change ∧
      c.comparison = .ofSide config base ∧ c.id = change.id ∧ c.Rests seen
  | _ => True

theorem of_begin (h : handler.begin d payload = some (id, w, handler')) :
    w.Of handler payload d.policy.primary seen := by
  cases handler with
  | fixer =>
    obtain ⟨report, hreport, heq⟩ := Option.map_eq_some_iff.mp h
    cases heq
    exact ⟨report, hreport, .start⟩
  | listener config =>
    obtain ⟨change, hchange, heq⟩ := Option.map_eq_some_iff.mp h
    cases heq
    exact ⟨config, change, rfl, hchange, rfl, rfl, by simp [Lookup.Rests], by simp [Lookup.Rests]⟩
  | scripted read outcomes =>
    obtain ⟨i, -, heq⟩ := Option.map_eq_some_iff.mp h
    split at heq <;> cases heq <;> trivial

theorem Of.mono (h : w.Of handler payload base seen)
    (hseen : ∀ side id row, seen side id row → seen' side id row) :
    w.Of handler payload base seen' := by
  cases w with
  | repair r => exact h
  | check c =>
    obtain ⟨config, change, hhandler, hchange, hcomparison, hid, hrests⟩ := h
    exact ⟨config, change, hhandler, hchange, hcomparison, hid, hrests.mono hseen⟩
  | wait | ended => trivial

/-- What a move of the handling of a message changes: nothing; the log that a report is written to,
under the side that served reads when the handling began; or the row that a report is about, in the
store that was not its base. -/
inductive Does (handler : Handler) (payload : Bytes) (base : Side)
    (seen : Side → Int → Option ρ → Prop) (d : Deployment ρ) : Deployment ρ → Prop where
  | nothing {d' : Deployment ρ} : d.Alike d' → Does handler payload base seen d d'
  | reports {config : Config} {change : Change} {kind : Mismatch} : handler = .listener config →
      Change.decode? payload = some change → Mismatch.RestsOn seen base change.id kind →
      Does handler payload base seen d
        { d with
          broker := d.broker.append config.inconsistencyTopic
            (⟨change.id, base, kind⟩ : Report).encode }
  | repairs {report : Report} {d' : Deployment ρ} : Report.decode? payload = some report →
      d.broker.Alike d'.broker → d.Spares report d' → Does handler payload base seen d d'

theorem Of.move (h : w.Of handler payload base seen)
    (htells : ∀ side id row, d.Tells side id row → seen side id row)
    (hm : w.step m d = some (d', w')) : w'.Of handler payload base seen := by
  cases w with
  | repair r =>
    obtain ⟨⟨e, r'⟩, hstep, heq⟩ := Option.map_eq_some_iff.mp hm
    cases heq
    obtain ⟨report, hreport, hr⟩ := h
    exact ⟨report, hreport, hr.move hstep⟩
  | check c =>
    obtain ⟨⟨e, c'⟩, hstep, heq⟩ := Option.map_eq_some_iff.mp hm
    cases heq
    obtain ⟨config, change, hhandler, hchange, hcomparison, hid, hrests⟩ := h
    obtain ⟨hcomparison', hid', hrests'⟩ := hrests.move (fun side => htells side c.id) hstep
    exact ⟨config, change, hhandler, hchange, hcomparison'.trans hcomparison, hid'.trans hid,
      hrests'⟩
  | wait ms outcome flight =>
    obtain ⟨p, -, heq⟩ := Option.map_eq_some_iff.mp hm
    cases heq
    cases p with
    | underway f => trivial
    | answered r => cases r <;> trivial
  | ended outcome => cases hm

theorem Of.does (h : w.Of handler payload base seen) (hm : w.step m d = some (d', w')) :
    Does handler payload base seen d d' := by
  cases w with
  | repair r =>
    obtain ⟨⟨e, r'⟩, hstep, heq⟩ := Option.map_eq_some_iff.mp hm
    cases heq
    obtain ⟨report, hreport, hr⟩ := h
    obtain ⟨hbroker, hspares⟩ := hr.spares hstep
    exact .repairs hreport hbroker hspares
  | check c =>
    obtain ⟨⟨e, c'⟩, hstep, heq⟩ := Option.map_eq_some_iff.mp hm
    cases heq
    obtain ⟨config, change, hhandler, hchange, hcomparison, hid, hrests⟩ := h
    rcases hrests.publishes hstep with ha | ⟨kind, hkind, rfl⟩
    · exact .nothing ha
    · rw [hcomparison, hid] at hkind
      rw [hcomparison, hid]
      exact .reports hhandler hchange hkind
  | wait ms outcome flight =>
    obtain ⟨p, -, heq⟩ := Option.map_eq_some_iff.mp hm
    cases heq
    exact .nothing (.refl _)
  | ended outcome => cases hm

end Handling

/-- A consumer changes nothing but what is committed for its group, unless it is at work on a
message. -/
theorem Consumer.Moved.idle_or_worked {d d' : Deployment ρ} {c c' : Consumer ρ}
    (h : c.Moved d d' c') :
    (∃ b, d' = { d with broker := b } ∧ b.topics = d.broker.topics) ∨
      ∃ message work due now work', c.phase = .handling message work due ∧
        work.step ⟨now, false⟩ d = some (d', work') := by
  cases h with
  | ended | began => exact .inl ⟨d.broker, rfl, rfl⟩
  | idled _ _ _ hq => exact .inl ⟨_, rfl, hq.topics⟩
  | @skipped message subscription =>
    obtain ⟨b, heq, htopics, -⟩ := acknowledge_spec d { c with subscription } message
    exact .inl ⟨b, heq, htopics⟩
  | worked hph _ hstep => exact .inr ⟨_, _, _, _, _, hph, hstep⟩
  | @succeeded message =>
    obtain ⟨b, heq, htopics, -⟩ := acknowledge_spec d c message
    exact .inl ⟨b, heq, htopics⟩
  | @failed message =>
    obtain ⟨b, s, heq, htopics, -⟩ := goBack_spec d c message
    exact .inl ⟨b, by rw [heq], htopics⟩

end Cutover
