import Cutover.Proofs.Evidence

/-!
# Repairs beside writes of the same row

Whoever uses the stores writes a row to both: to the base, and then to the other one. A repair that
has read the base before such a write and writes behind it puts back what it has read. A `Contest`
is a repair with any number of such writes of its row, one at a time, and `Contest.deeds` is what
they do to the row, in order. Main statement: when all have succeeded the stores have the same row
if the repair was not the last to write it, or if what it has read is what the base has
(`Contest.agrees_iff`).
-/

namespace Cutover

variable {ρ : Type} [Entity ρ]

/-! ## The row of an id -/

namespace Contents

theorem first?_put (s : Contents ρ) (r : ρ) :
    Rows.first? (Entity.id r) (s.put r).rows = some r := by
  cases s with
  | table t =>
    have hget : (t.insert r).get? (Entity.id r) = some r :=
      (t.get?_insert r (Entity.id r)).trans (if_pos rfl)
    rwa [Table.get?_eq_first?] at hget
  | list rows =>
    have hnone : Rows.first? (Entity.id r) (Rows.without (Entity.id r) rows) = none := by
      refine Rows.first?_eq_none_iff.mpr fun x hx => ?_
      simpa using (List.mem_filter.mp hx).2
    unfold Rows.first? at hnone ⊢
    simp [put, Contents.rows, List.find?_append, hnone]

theorem first?_remove (s : Contents ρ) (id : Int) : Rows.first? id (s.remove id).rows = none := by
  cases s with
  | table t =>
    have hget : (t.erase id).get? id = none := (t.get?_erase id id).trans (if_pos rfl)
    rwa [Table.get?_eq_first?] at hget
  | list rows =>
    refine Rows.first?_eq_none_iff.mpr fun x hx => ?_
    simpa using (List.mem_filter.mp hx).2

end Contents

namespace Deployment

/-- The row that a store has under an id. -/
def held (d : Deployment ρ) (id : Int) (side : Side) : Option ρ :=
  Rows.first? id (d.store side).rows

variable {d d' : Deployment ρ} {m : Moment} {limit : Option Nat} {side : Side}
  {flight : Option Flight}
  {id : Int}

theorem Alike.held (h : d.Alike d') (id : Int) (other : Side) :
    d'.held id other = d.held id other := by
  rw [Deployment.held, Deployment.held, Store.rows, Store.rows, h.contents]

/-- A write of an id that always succeeds once it takes effect leaves `x` there, unless it is still
under way or has failed. -/
theorem Called.held {c : Call ρ} {p : Progress c.Answer} {x : Option ρ}
    (h : Called d m limit side c flight d' p)
    (hrun : ∀ s : Contents ρ, (∃ a, (s.run c).1 = .ok a) ∧ Rows.first? id (s.run c).2.rows = x) :
    (∃ a, p = .answered (.ok a)) ∧
        (∀ other, d'.held id other = if other = side then x else d.held id other) ∨
      ((∃ f, p = .underway f) ∨ ∃ e, p = .answered (.error e)) ∧
        ∀ other, d'.held id other = d.held id other := by
  cases h with
  | begun _ hs => exact .inr ⟨.inl ⟨_, rfl⟩, (Alike.setStore hs).held id⟩
  | failed hs => exact .inr ⟨.inr ⟨_, rfl⟩, (Alike.setStore hs).held id⟩
  | answered _ _ hs =>
    obtain ⟨⟨a, ha⟩, hx⟩ := hrun (d.store side).contents
    refine .inl ⟨⟨a, by rw [ha]⟩, fun other => ?_⟩
    rw [Deployment.held, store_setStore]
    split
    · rw [Store.rows, hs, hx]
    · rfl

end Deployment

/-! ## What is done to the row -/

/-- What a repair, or a write to both stores, does to a row. -/
inductive Deed (ρ : Type) where
  /-- The repair learns what the base has. -/
  | read (row : Option ρ)
  /-- The repair makes the row of the target what it has learned. -/
  | repaired
  /-- A row is written to the base. -/
  | placed (row : ρ)
  /-- The row is written to the target, too. -/
  | copied (row : ρ)
  deriving DecidableEq, Repr

namespace Deed

/-- Whether the target was last written by the repair. -/
def repairedLast (deeds : List (Deed ρ)) : Bool :=
  deeds.foldl (fun last deed => match deed with
    | repaired => true
    | copied _ => false
    | read _ | placed _ => last) false

omit [Entity ρ] in
theorem repairedLast_concat (deeds : List (Deed ρ)) (deed : Deed ρ) :
    repairedLast (deeds ++ [deed]) =
      match deed with
      | repaired => true
      | copied _ => false
      | read _ | placed _ => repairedLast deeds := by
  rw [repairedLast, List.foldl_append]
  rfl

end Deed

/-! ## Writes to both stores -/

inductive DualWrite.Phase where
  | placing
  | copying
  | done (result : Except Error Unit)

/-- A write of a row to both stores, the base first. -/
structure DualWrite (ρ : Type) where
  row : ρ
  phase : DualWrite.Phase := .placing
  /-- The call that the write waits for, once it has started. -/
  flight : Option Flight := none

namespace DualWrite

/-- What progress with its call makes of a write, which is in its next phase when the call
succeeds. -/
def after (w : DualWrite ρ) (next : Phase) : Progress Unit → DualWrite ρ
  | .underway f => { w with flight := some f }
  | .answered (.ok ()) => { w with phase := next, flight := none }
  | .answered (.error e) => { w with phase := .done (.error e), flight := none }

/-- The next move of a write, or nothing if it has to wait or has ended. -/
def step (base : Side) (m : Moment) (d : Deployment ρ) (w : DualWrite ρ) :
    Option (Deployment ρ × DualWrite ρ) :=
  match w.phase with
  | .placing =>
    (d.call m none base (.upsert w.row) w.flight).map fun (d, p) => (d, w.after .copying p)
  | .copying =>
    (d.call m none base.other (.upsert w.row) w.flight).map
      fun (d, p) => (d, w.after (.done (.ok ())) p)
  | .done _ => none

/-- What a move has done to the row. -/
def deed? (w w' : DualWrite ρ) : Option (Deed ρ) :=
  match w.phase, w'.phase with
  | .placing, .copying => some (.placed w.row)
  | .copying, .done (.ok ()) => some (.copied w.row)
  | _, _ => none

omit [Entity ρ] in
theorem deed?_flight (w : DualWrite ρ) (flight : Option Flight) :
    w.deed? { w with flight } = none := by
  unfold deed?
  dsimp only
  cases w.phase <;> rfl

/-- A write that goes on, or nothing when it has succeeded. -/
def rest? (w : DualWrite ρ) : Option (DualWrite ρ) :=
  match w.phase with
  | .done (.ok ()) => none
  | _ => some w

/-- What a move makes of a deployment and of a write of a row of `id`, and what it does to the
row. -/
inductive Moved (id : Int) (base : Side) (d : Deployment ρ) (w : DualWrite ρ) :
    Option (Deed ρ) → Deployment ρ → DualWrite ρ → Prop where
  | begun {d' f} : (∀ x, w.phase ≠ .done x) → (∀ side, d'.held id side = d.held id side) →
      Moved id base d w none d' { w with flight := some f }
  | placed {d'} : w.phase = .placing →
      (∀ side, d'.held id side = if side = base then some w.row else d.held id side) →
      Moved id base d w (some (.placed w.row)) d' { w with phase := .copying, flight := none }
  | copied {d'} : w.phase = .copying →
      (∀ side, d'.held id side = if side = base.other then some w.row else d.held id side) →
      Moved id base d w (some (.copied w.row)) d' { w with phase := .done (.ok ()), flight := none }
  | failed {d' e} : (∀ side, d'.held id side = d.held id side) →
      Moved id base d w none d' { w with phase := .done (.error e), flight := none }

theorem moved_of_step {base : Side} {m : Moment} {d d' : Deployment ρ} {w w' : DualWrite ρ}
    (h : w.step base m d = some (d', w')) :
    Moved (Entity.id w.row) base d w (w.deed? w') d' w' := by
  have hrun (s : Contents ρ) : (∃ a, (s.run (.upsert w.row)).1 = .ok a) ∧
      Rows.first? (Entity.id w.row) (s.run (.upsert w.row)).2.rows = some w.row :=
    ⟨⟨(), rfl⟩, s.first?_put w.row⟩
  unfold step at h
  cases hph : w.phase with
  | placing =>
    simp only [hph] at h
    obtain ⟨⟨e, p⟩, hc, heq⟩ := Option.map_eq_some_iff.mp h
    cases heq
    rcases (Deployment.called_of_call hc).held hrun with ⟨⟨_, rfl⟩, hheld⟩ |
      ⟨⟨f, rfl⟩ | ⟨e, rfl⟩, hheld⟩
    · simp only [deed?, hph, after]
      exact .placed hph hheld
    · rw [after, deed?_flight]
      exact .begun (by simp [hph]) hheld
    · simp only [deed?, hph, after]
      exact .failed hheld
  | copying =>
    simp only [hph] at h
    obtain ⟨⟨e, p⟩, hc, heq⟩ := Option.map_eq_some_iff.mp h
    cases heq
    rcases (Deployment.called_of_call hc).held hrun with ⟨⟨_, rfl⟩, hheld⟩ |
      ⟨⟨f, rfl⟩ | ⟨e, rfl⟩, hheld⟩
    · simp only [deed?, hph, after]
      exact .copied hph hheld
    · rw [after, deed?_flight]
      exact .begun (by simp [hph]) hheld
    · simp only [deed?, hph, after]
      exact .failed hheld
  | done x =>
    simp only [hph] at h
    cases h

end DualWrite

/-! ## Repairs -/

namespace Repair

/-- What a move has done to the row. -/
def deed? (r r' : Repair ρ) : Option (Deed ρ) :=
  match r.phase, r'.phase with
  | .reading, .writing row => some (.read (some row))
  | .reading, .removing => some (.read none)
  | .writing _, .done (.ok ()) | .removing, .done (.ok ()) => some .repaired
  | _, _ => none

omit [Entity ρ] in
theorem deed?_flight (r : Repair ρ) (flight : Option Flight) :
    r.deed? { r with flight } = none := by
  unfold deed?
  dsimp only
  cases r.phase <;> rfl

/-- What a repair has learned of the base and is going to write. -/
def learned? (r : Repair ρ) : Option (Option ρ) :=
  match r.phase with
  | .writing row => some (some row)
  | .removing => some none
  | _ => none

/-- A repair that has in hand a row of its id, if any. -/
def Holds (r : Repair ρ) : Prop := ∀ row, r.phase = .writing row → Entity.id row = r.id

/-- What a move does to the row, with what it makes of the repair. -/
inductive Did (d : Deployment ρ) (r : Repair ρ) :
    Option (Deed ρ) → Deployment ρ → Repair ρ → Prop where
  | begun {d' f} : (∀ side, d'.held r.id side = d.held r.id side) →
      Did d r none d' { r with flight := some f }
  | read {d' r' x} : r.phase = .reading → (∀ side, d'.held r.id side = d.held r.id side) →
      r'.base = r.base → r'.id = r.id → r'.learned? = some x → r'.Holds →
      Did d r (some (.read x)) d' r'
  | repaired {d' x} : r.learned? = some x →
      (∀ side, d'.held r.id side = if side = r.base.other then x else d.held r.id side) →
      Did d r (some .repaired) d' (r.enter (.done (.ok ())))
  | failed {d' e} : (∀ x, r.phase ≠ .done x) → (∀ side, d'.held r.id side = d.held r.id side) →
      Did d r none d' (r.enter (.done (.error e)))

variable {m : Moment} {d d' : Deployment ρ} {r r' : Repair ρ}

private theorem did_of_write {c : Call ρ} {p : Progress c.Answer} {x : Option ρ}
    (hlearned : r.learned? = some x)
    (hrun : ∀ s : Contents ρ, (∃ a, (s.run c).1 = .ok a) ∧ Rows.first? r.id (s.run c).2.rows = x)
    (h : Deployment.Called d m none r.base.other c r.flight d' p) :
    Did d r (r.deed? (r.after r.afterWrite p)) d' (r.after r.afterWrite p) := by
  have hdeed (y : Except Error Unit) :
      r.deed? (r.enter (.done y)) = if y = .ok () then some .repaired else none := by
    unfold learned? at hlearned
    unfold deed?
    cases hph : r.phase with
    | reading | done => simp [hph] at hlearned
    | writing | removing => cases y <;> simp [enter]
  rcases h.held hrun with ⟨⟨a, rfl⟩, hheld⟩ | ⟨⟨f, rfl⟩ | ⟨e, rfl⟩, hheld⟩
  · change Did d r (r.deed? (r.enter (.done (.ok ())))) d' _
    rw [hdeed, if_pos rfl]
    exact .repaired hlearned hheld
  · rw [after, deed?_flight]
    exact .begun hheld
  · change Did d r (r.deed? (r.enter (.done (.error e)))) d' _
    rw [hdeed, if_neg (by simp)]
    refine .failed (fun x hph => ?_) hheld
    simp [learned?, hph] at hlearned

theorem did_of_step (hr : r.Holds) (h : r.step m d = some (d', r')) :
    Did d r (r.deed? r') d' r' := by
  cases hph : r.phase with
  | reading =>
    cases moved_of_step h with
    | begun _ ha =>
      rw [deed?_flight]
      exact .begun (ha.held r.id)
    | found _ hrow ha =>
      simp only [deed?, hph, enter]
      refine .read hph (ha.held r.id) rfl rfl rfl fun row hrow' => ?_
      cases hrow'
      exact (Rows.mem_of_first? hrow).2
    | missed _ _ ha | misled _ ha =>
      simp only [deed?, hph, enter]
      exact .read hph (ha.held r.id) rfl rfl rfl (by simp [Holds])
    | written hph' | removed hph' => simp [hph] at hph'
    | failed ha =>
      simp only [deed?, hph, enter]
      exact .failed (by simp [hph]) (ha.held r.id)
  | writing row =>
    unfold step at h
    simp only [hph] at h
    obtain ⟨⟨e, p⟩, hc, heq⟩ := Option.map_eq_some_iff.mp h
    cases heq
    refine did_of_write (x := some row) (by simp [learned?, hph]) (fun s => ⟨⟨(), rfl⟩, ?_⟩)
      (Deployment.called_of_call hc)
    rw [← hr row hph]
    exact s.first?_put row
  | removing =>
    unfold step at h
    simp only [hph] at h
    obtain ⟨⟨e, p⟩, hc, heq⟩ := Option.map_eq_some_iff.mp h
    cases heq
    exact did_of_write (x := none) (by simp [learned?, hph])
      (fun s => ⟨⟨_, rfl⟩, s.first?_remove r.id⟩) (Deployment.called_of_call hc)
  | done x =>
    simp only [step, hph] at h
    cases h

end Repair

/-! ## Contests -/

/-- A repair, and the writes of its row to both stores, one at a time. -/
structure Contest (ρ : Type) [Entity ρ] where
  site : Deployment ρ
  repair : Repair ρ
  /-- The write under way, or one that has failed. -/
  write : Option (DualWrite ρ) := none

namespace Contest

inductive Act (ρ : Type) [Entity ρ] where
  /-- The repair takes its turn. If it has to wait, nothing happens. -/
  | repair (m : Moment)
  /-- The write under way takes its turn. -/
  | write (m : Moment)
  /-- A write of a row begins, unless there is one. -/
  | begin (row : ρ)
  /-- Something else happens to the stores. -/
  | edit (f : Deployment ρ → Deployment ρ)

/-- Whether something is about an id: rows of the id are written to both stores, and by nobody
else. -/
def Act.Fits (id : Int) : Act ρ → Prop
  | begin row => Entity.id row = id
  | edit f => ∀ d side, (f d).held id side = d.held id side
  | repair _ | write _ => True

/-- The row that a store has under the id of the repair. -/
def held (s : Contest ρ) (side : Side) : Option ρ := s.site.held s.repair.id side

def base (s : Contest ρ) : Option ρ := s.held s.repair.base

def target (s : Contest ρ) : Option ρ := s.held s.repair.base.other

def perform (s : Contest ρ) : Act ρ → Contest ρ
  | .repair m =>
    match s.repair.step m s.site with
    | some (site, repair) => { s with site, repair }
    | none => s
  | .write m =>
    match s.write.bind fun w => w.step s.repair.base m s.site with
    | some (site, w) => { s with site, write := w.rest? }
    | none => s
  | .begin row =>
    match s.write with
    | some _ => s
    | none => { s with write := some { row } }
  | .edit f => { s with site := f s.site }

def after (s : Contest ρ) (acts : List (Act ρ)) : Contest ρ := acts.foldl perform s

/-- What is done to the row. -/
def deed? (s : Contest ρ) : Act ρ → Option (Deed ρ)
  | .repair m => (s.repair.step m s.site).bind fun (_, r) => s.repair.deed? r
  | .write m => s.write.bind fun w => (w.step s.repair.base m s.site).bind fun (_, w') => w.deed? w'
  | .begin _ | .edit _ => none

/-- What is done to the row, in order. -/
def deeds (s : Contest ρ) : List (Act ρ) → List (Deed ρ)
  | [] => []
  | a :: rest => (s.deed? a).toList ++ (s.perform a).deeds rest

/-- The repair has not read the base, and nobody writes. -/
def IsOpen (s : Contest ρ) : Prop := s.repair.phase = .reading ∧ s.write = none

/-- The repair and all writes have succeeded. -/
def IsSettled (s : Contest ρ) : Prop := s.repair.phase = .done (.ok ()) ∧ s.write = none

/-- What the deeds so far have made of a contest. -/
structure Traced (s : Contest ρ) (deeds : List (Deed ρ)) : Prop where
  holds : s.repair.Holds
  unread : s.repair.phase = .reading → ∀ x, .read x ∉ deeds
  learned : ∀ x, s.repair.learned? = some x → ∀ y, .read y ∈ deeds ↔ y = x
  unrepaired : s.repair.phase ≠ .done (.ok ()) → .repaired ∉ deeds
  repaired : s.repair.phase = .done (.ok ()) → .repaired ∈ deeds ∧
    ∃ x, (∀ y, .read y ∈ deeds ↔ y = x) ∧ (Deed.repairedLast deeds → s.target = x)
  row : ∀ w ∈ s.write, Entity.id w.row = s.repair.id
  placed : ∀ w ∈ s.write, w.phase = .copying → s.base = some w.row
  /-- Behind the repair, whatever comes to the target has come to the base before. -/
  agrees : .repaired ∈ deeds → Deed.repairedLast deeds = false →
    (∀ w ∈ s.write, w.phase = .placing) → s.target = s.base

variable {s : Contest ρ} {deeds : List (Deed ρ)} {a : Act ρ}

theorem IsOpen.traced (h : s.IsOpen) : s.Traced [] := by
  obtain ⟨hphase, hwrite⟩ := h
  refine ⟨?_, ?_, ?_, ?_, ?_, ?_, ?_, ?_⟩
  · simp [Repair.Holds, hphase]
  · simp
  · simp [Repair.learned?, hphase]
  · simp
  · simp [hphase]
  · simp [hwrite]
  · simp [hwrite]
  · simp

/-- A write goes on where it was, when nothing happens to it. -/
private theorem same_write (s : Contest ρ) : ∀ w ∈ s.write, ∃ w' ∈ s.write, w'.row = w.row ∧
    (w'.phase = w.phase ∨ ∃ e, w'.phase = .done (.error e)) :=
  fun w hw => ⟨w, hw, rfl, .inl rfl⟩

/-- What does nothing to the row leaves a contest as it was traced, if the repair goes on where it
was or fails, and so does the write, unless it begins. -/
theorem Traced.keep (h : s.Traced deeds) {s' : Contest ρ} (hid : s'.repair.id = s.repair.id)
    (hbase : s'.repair.base = s.repair.base)
    (hheld : ∀ side, s'.site.held s.repair.id side = s.site.held s.repair.id side)
    (hrepair : s'.repair.phase = s.repair.phase ∨
      (∀ x, s.repair.phase ≠ .done x) ∧ ∃ e, s'.repair.phase = .done (.error e))
    (hbegun : s.write = none → ∀ w' ∈ s'.write,
      Entity.id w'.row = s.repair.id ∧ w'.phase = .placing)
    (hwrite : ∀ w ∈ s.write, ∃ w' ∈ s'.write, w'.row = w.row ∧
      (w'.phase = w.phase ∨ ∃ e, w'.phase = .done (.error e))) : s'.Traced deeds := by
  have heq (side : Side) : s'.held side = s.held side := by rw [held, held, hid, hheld]
  have hbase' : s'.base = s.base := by rw [base, base, hbase, heq]
  have htarget' : s'.target = s.target := by rw [target, target, hbase, heq]
  have hw' (w' : DualWrite ρ) (hw' : w' ∈ s'.write) : Entity.id w'.row = s.repair.id ∧
      (w'.phase = .copying → s.base = some w'.row) ∧
      (w'.phase = .placing → ∀ w ∈ s.write, w.phase = .placing) := by
    cases hw : s.write with
    | none =>
      obtain ⟨hrow, hphase⟩ := hbegun hw w' hw'
      exact ⟨hrow, by simp [hphase], by simp⟩
    | some w =>
      obtain ⟨v, hv, hrow, hphase⟩ := hwrite w hw
      obtain rfl : v = w' := Option.some.inj (hv.symm.trans hw')
      rcases hphase with hphase | ⟨e, hphase⟩
      · rw [hrow, hphase]
        exact ⟨h.row w hw, h.placed w hw, fun hp x hx => by cases hx; exact hp⟩
      · exact ⟨hrow ▸ h.row w hw, by simp [hphase], by simp [hphase]⟩
  have hagrees : .repaired ∈ deeds → Deed.repairedLast deeds = false →
      (∀ w ∈ s'.write, w.phase = .placing) → s'.target = s'.base := by
    intro hrepaired hlast hplacing
    rw [hbase', htarget']
    refine h.agrees hrepaired hlast fun w hw => ?_
    obtain ⟨w', hmem, -⟩ := hwrite w hw
    exact (hw' w' hmem).2.2 (hplacing w' hmem) w hw
  have hrow : ∀ w ∈ s'.write, Entity.id w.row = s'.repair.id := fun w hw => hid ▸ (hw' w hw).1
  have hplaced : ∀ w ∈ s'.write, w.phase = .copying → s'.base = some w.row :=
    fun w hw => hbase' ▸ (hw' w hw).2.1
  rcases hrepair with hphase | ⟨hlive, e, hphase⟩
  · refine ⟨?_, ?_, ?_, ?_, ?_, hrow, hplaced, hagrees⟩
    · simpa only [Repair.Holds, hphase, hid] using h.holds
    · simpa only [hphase] using h.unread
    · simpa only [Repair.learned?, hphase] using h.learned
    · simpa only [hphase] using h.unrepaired
    · simpa only [hphase, htarget'] using h.repaired
  · refine ⟨?_, ?_, ?_, fun _ => h.unrepaired (hlive _), ?_, hrow, hplaced, hagrees⟩
    · simp [Repair.Holds, hphase]
    · simp [hphase]
    · simp [Repair.learned?, hphase]
    · simp [hphase]

/-- What a turn of the repair makes of a contest. -/
theorem perform_repair (s : Contest ρ) (m : Moment) (hholds : s.repair.Holds) :
    s.perform (.repair m) = s ∧ s.deed? (.repair m) = none ∨
      ∃ d r, s.perform (.repair m) = { s with site := d, repair := r } ∧
        Repair.Did s.site s.repair (s.deed? (.repair m)) d r := by
  simp only [perform, deed?]
  cases hstep : s.repair.step m s.site with
  | none => exact .inl ⟨rfl, rfl⟩
  | some next => exact .inr ⟨next.1, next.2, rfl, Repair.did_of_step hholds hstep⟩

/-- What a turn of the write makes of a contest. -/
theorem perform_write (s : Contest ρ) (m : Moment) :
    s.perform (.write m) = s ∧ s.deed? (.write m) = none ∨
      ∃ w d w', s.write = some w ∧ s.perform (.write m) = { s with site := d, write := w'.rest? } ∧
        DualWrite.Moved (Entity.id w.row) s.repair.base s.site w (s.deed? (.write m)) d w' := by
  simp only [perform, deed?]
  cases hw : s.write with
  | none => exact .inl ⟨rfl, rfl⟩
  | some w =>
    simp only [Option.bind_some]
    cases hstep : w.step s.repair.base m s.site with
    | none => exact .inl ⟨rfl, rfl⟩
    | some next =>
      exact .inr ⟨w, next.1, next.2, rfl, rfl, DualWrite.moved_of_step hstep⟩

theorem Traced.repair_turn (h : s.Traced deeds) (m : Moment) :
    (s.perform (.repair m)).Traced (deeds ++ (s.deed? (.repair m)).toList) := by
  rcases s.perform_repair m h.holds with ⟨heq, hnone⟩ | ⟨d, r, heq, hdid⟩
  · rw [heq, hnone, Option.toList_none, List.append_nil]
    exact h
  rw [heq]
  have hnone (hw : s.write = none) (w : DualWrite ρ) (hmem : w ∈ s.write) :
      Entity.id w.row = s.repair.id ∧ w.phase = .placing := by simp [hw] at hmem
  generalize s.deed? (.repair m) = deed at hdid
  cases hdid with
  | begun hheld =>
    rw [Option.toList_none, List.append_nil]
    exact h.keep rfl rfl hheld (.inl rfl) hnone s.same_write
  | failed hlive hheld =>
    rw [Option.toList_none, List.append_nil]
    exact h.keep rfl rfl hheld (.inr ⟨hlive, _, rfl⟩) hnone s.same_write
  | @read _ _ x hph hheld hbase hid hlearned hholds =>
    have hlive (y : Except Error Unit) : r.phase ≠ .done y := by
      intro hy
      simp [Repair.learned?, hy] at hlearned
    have hreading : r.phase ≠ .reading := by
      intro hy
      simp [Repair.learned?, hy] at hlearned
    have heq (side : Side) :
        ({ s with site := d, repair := r } : Contest ρ).held side = s.held side := by
      rw [held, held, hid, hheld]
    have hmem (y : Option ρ) : .read y ∈ deeds ++ (some (Deed.read x)).toList ↔ y = x := by
      simp [h.unread hph y]
    refine ⟨hholds, fun hy => absurd hy hreading, fun y hy z => ?_, fun _ => ?_,
      fun hy => absurd hy (hlive _), fun w hw => hid ▸ h.row w hw, fun w hw hc => ?_,
      fun hrepaired => ?_⟩
    · obtain rfl : x = y := Option.some.inj (hlearned.symm.trans hy)
      exact hmem z
    · simpa using h.unrepaired (by simp [hph])
    · rw [base, hbase, heq]
      exact h.placed w hw hc
    · exact absurd hrepaired (by simpa using h.unrepaired (by simp [hph]))
  | @repaired _ x hlearned hheld =>
    have htarget :
        ({ s with site := d, repair := s.repair.enter (.done (.ok ())) } : Contest ρ).target = x :=
      (hheld _).trans (if_pos rfl)
    have hbase :
        ({ s with site := d, repair := s.repair.enter (.done (.ok ())) } : Contest ρ).base =
          s.base :=
      (hheld _).trans (if_neg (Side.other_ne _).symm)
    refine ⟨by simp [Repair.Holds, Repair.enter], by simp [Repair.enter],
      by simp [Repair.learned?, Repair.enter], by simp [Repair.enter],
      fun _ => ⟨by simp, x, ?_, fun _ => htarget⟩,
      h.row, fun w hw hc => hbase ▸ h.placed w hw hc, fun _ hlast => ?_⟩
    · simpa using h.learned x hlearned
    · rw [Option.toList_some, Deed.repairedLast_concat] at hlast
      cases hlast

theorem Traced.write_turn (h : s.Traced deeds) (m : Moment) :
    (s.perform (.write m)).Traced (deeds ++ (s.deed? (.write m)).toList) := by
  rcases s.perform_write m with ⟨heq, hnone⟩ | ⟨w, d, w', hw, heq, hmoved⟩
  · rw [heq, hnone, Option.toList_none, List.append_nil]
    exact h
  rw [heq]
  rw [h.row w hw] at hmoved
  have hnone (hno : s.write = none) : ∀ v ∈ w'.rest?, Entity.id v.row = s.repair.id ∧
      v.phase = .placing := by
    rw [hw] at hno
    cases hno
  generalize s.deed? (.write m) = deed at hmoved
  cases hmoved with
  | @begun _ f hlive hheld =>
    rw [Option.toList_none, List.append_nil]
    refine h.keep rfl rfl hheld (.inl rfl) hnone fun v hv => ?_
    cases hw.symm.trans hv
    refine ⟨{ w with flight := some f }, ?_, rfl, .inl rfl⟩
    simp only [DualWrite.rest?]
    cases hph : w.phase with
    | done x => exact absurd hph (hlive x)
    | placing | copying => rfl
  | failed hheld =>
    rw [Option.toList_none, List.append_nil]
    refine h.keep rfl rfl hheld (.inl rfl) hnone fun v hv => ?_
    cases hw.symm.trans hv
    exact ⟨_, rfl, rfl, .inr ⟨_, rfl⟩⟩
  | @placed d hph hheld =>
    have hbase :
        ({ s with site := d, write := some { w with phase := .copying, flight := none } } :
          Contest ρ).base = some w.row := (hheld _).trans (if_pos rfl)
    have htarget :
        ({ s with site := d, write := some { w with phase := .copying, flight := none } } :
          Contest ρ).target = s.target := (hheld _).trans (if_neg (Side.other_ne _))
    refine ⟨h.holds, by simpa using h.unread, by simpa using h.learned, by simpa using h.unrepaired,
      fun hdone => ?_, fun v hv => ?_, fun v hv _ => ?_, fun _ _ hplacing => ?_⟩
    -- a row that is placed leaves the target to whoever wrote it last
    · obtain ⟨hrepaired, x, hx, hlast⟩ := h.repaired hdone
      refine ⟨by simpa using hrepaired, x, by simpa using hx, fun hl => htarget.trans (hlast ?_)⟩
      rwa [Option.toList_some, Deed.repairedLast_concat] at hl
    · cases hv
      exact h.row w hw
    · cases hv
      exact hbase
    · cases hplacing _ rfl
  | @copied d hph hheld =>
    have hbase : ({ s with site := d, write := none } : Contest ρ).base = s.base :=
      (hheld _).trans (if_neg (Side.other_ne _).symm)
    have htarget : ({ s with site := d, write := none } : Contest ρ).target = some w.row :=
      (hheld _).trans (if_pos rfl)
    change ({ s with site := d, write := none } : Contest ρ).Traced _
    refine ⟨h.holds, by simpa using h.unread, by simpa using h.learned, by simpa using h.unrepaired,
      fun hdone => ?_, by simp, by simp, fun _ _ _ => ?_⟩
    · obtain ⟨hrepaired, x, hx, -⟩ := h.repaired hdone
      refine ⟨by simpa using hrepaired, x, by simpa using hx, fun hl => ?_⟩
      rw [Option.toList_some, Deed.repairedLast_concat] at hl
      cases hl
    -- the base still has the row, since no other write has begun
    · exact htarget.trans (hbase.trans (h.placed w hw hph)).symm

/-- Whatever happens, a contest is what its deeds have made of it. -/
theorem Traced.perform (h : s.Traced deeds) (ha : a.Fits s.repair.id) :
    (s.perform a).Traced (deeds ++ (s.deed? a).toList) := by
  cases a with
  | repair m => exact h.repair_turn m
  | write m => exact h.write_turn m
  | begin row =>
    simp only [Contest.perform, deed?, Option.toList_none, List.append_nil]
    cases hw : s.write with
    | some w => exact h
    | none =>
      refine h.keep rfl rfl (fun _ => rfl) (.inl rfl) (fun _ w hw' => ?_) fun w hw' => ?_
      · cases hw'
        exact ⟨ha, rfl⟩
      · rw [hw] at hw'
        cases hw'
  | edit f =>
    simp only [Contest.perform, deed?, Option.toList_none, List.append_nil]
    refine h.keep rfl rfl (ha s.site) (.inl rfl) (fun hw w hw' => ?_) s.same_write
    rw [hw] at hw'
    cases hw'

theorem id_perform (s : Contest ρ) (a : Act ρ) (hholds : s.repair.Holds) :
    (s.perform a).repair.id = s.repair.id := by
  cases a with
  | repair m =>
    rcases s.perform_repair m hholds with ⟨heq, -⟩ | ⟨d, r, heq, hdid⟩
    · rw [heq]
    · rw [heq]
      generalize s.deed? (.repair m) = deed at hdid
      cases hdid with
      | begun | repaired | failed => rfl
      | read _ _ _ hid => exact hid
  | write m =>
    rcases s.perform_write m with ⟨heq, -⟩ | ⟨_, _, _, -, heq, -⟩
    · rw [heq]
    · rw [heq]
  | begin row =>
    simp only [perform]
    cases s.write <;> rfl
  | edit f => rfl

theorem Traced.after (h : s.Traced deeds) {acts : List (Act ρ)}
    (hacts : ∀ a ∈ acts, a.Fits s.repair.id) : (s.after acts).Traced (deeds ++ s.deeds acts) := by
  induction acts generalizing s deeds with
  | nil =>
    rw [Contest.deeds, List.append_nil]
    exact h
  | cons a rest ih =>
    obtain ⟨ha, hrest⟩ := List.forall_mem_cons.mp hacts
    rw [Contest.deeds, ← List.append_assoc]
    refine ih (h.perform ha) ?_
    rwa [s.id_perform a h.holds]

/-- When a repair and all writes of its row have succeeded, the stores have the same row under its
id if and only if the repair was not the last to write to the target, or it has read what the base
has in the end. -/
theorem agrees_iff {acts : List (Act ρ)} (hopen : s.IsOpen) (hacts : ∀ a ∈ acts, a.Fits s.repair.id)
    (hend : (s.after acts).IsSettled) :
    (s.after acts).target = (s.after acts).base ↔
      Deed.repairedLast (s.deeds acts) = false ∨ .read (s.after acts).base ∈ s.deeds acts := by
  have h := hopen.traced.after hacts
  rw [List.nil_append] at h
  obtain ⟨hphase, hwrite⟩ := hend
  obtain ⟨hrepaired, x, hread, hlast⟩ := h.repaired hphase
  cases hl : Deed.repairedLast (s.deeds acts) with
  | false =>
    have := h.agrees hrepaired hl (by simp [hwrite])
    simp [this]
  | true =>
    rw [hlast hl, hread]
    simp [eq_comm]

/-! ## A repair that puts back what it has read -/

/-- A row that both stores have, and a repair of it. -/
def sampleContest : Contest Account where
  site := .ofRows [⟨1, "ann", 10, 5⟩] [⟨1, "ann", 10, 5⟩] .srcOnly
  repair := { base := .src, id := 1 }

/-- The repair has read the base when another row is written to both stores, and writes behind
that. -/
def sampleActs : List (Contest.Act Account) :=
  [.repair ⟨0, false⟩, .repair ⟨0, false⟩, .begin ⟨1, "ann", 20, 6⟩] ++
    List.replicate 4 (.write ⟨10, false⟩) ++ List.replicate 2 (.repair ⟨50, false⟩)

/-- A repair can undo a write to both stores in the target. -/
theorem repair_goes_back :
    sampleContest.IsOpen ∧ (∀ a ∈ sampleActs, a.Fits sampleContest.repair.id) ∧
      (sampleContest.after sampleActs).IsSettled ∧
      (sampleContest.after sampleActs).base = some ⟨1, "ann", 20, 6⟩ ∧
      (sampleContest.after sampleActs).target = some ⟨1, "ann", 10, 5⟩ := by
  refine ⟨⟨rfl, rfl⟩, ?_, ⟨rfl, rfl⟩, rfl, rfl⟩
  simp [sampleActs, Act.Fits, sampleContest, Entity.id]

theorem agrees_iff_sample :
    sampleContest.IsOpen ∧ (∀ a ∈ sampleActs, a.Fits sampleContest.repair.id) ∧
      (sampleContest.after sampleActs).IsSettled ∧
      ((sampleContest.after sampleActs).target = (sampleContest.after sampleActs).base ↔
        Deed.repairedLast (sampleContest.deeds sampleActs) = false ∨
          .read (sampleContest.after sampleActs).base ∈ sampleContest.deeds sampleActs) := by
  have hopen : sampleContest.IsOpen := ⟨rfl, rfl⟩
  have hacts : ∀ a ∈ sampleActs, a.Fits sampleContest.repair.id := by
    simp [sampleActs, Act.Fits, sampleContest, Entity.id]
  have hend : (sampleContest.after sampleActs).IsSettled := ⟨rfl, rfl⟩
  exact ⟨hopen, hacts, hend, agrees_iff hopen hacts hend⟩

end Contest

end Cutover
