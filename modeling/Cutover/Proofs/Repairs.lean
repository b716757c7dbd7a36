import Cutover.Proofs.Histories
import Cutover.Proofs.Rows
import Cutover.Proofs.Wire

/-!
# Repairs of one table from another

While nobody writes to the base, the only changes of the target are those of repairs: a row of the
base is put in, or a row that the base has not is taken out. So each id has in the target the row
that it had or the one that it has in the base, and once it has the latter it keeps it
(`Table.Mended`). Main statement: a repair that was told the right side of the comparison mends the
target, and has mended its id when it succeeds (`Repair.Faithful.move`).
-/

namespace Cutover

variable {ρ : Type} [Entity ρ]

/-! ## Mended tables -/

/-- The table with what `b` has under an id. -/
def Table.mend (b : Table ρ) (id : Int) (t : Table ρ) : Table ρ :=
  match b.get? id with
  | some row => t.insert row
  | none => t.erase id

theorem Table.get?_mend (b t : Table ρ) (id j : Int) :
    (b.mend id t).get? j = if j = id then b.get? id else t.get? j := by
  unfold mend
  cases hb : b.get? id with
  | some row =>
    obtain ⟨-, rfl⟩ := get?_eq_some_iff.mp hb
    exact get?_insert t row j
  | none => exact get?_erase t id j

theorem Table.mend_mend (b t : Table ρ) (id : Int) : b.mend id (b.mend id t) = b.mend id t := by
  refine ext_get? fun j => ?_
  rw [get?_mend, get?_mend]
  split <;> rfl

/-- The table with what `b` has under each of some ids. -/
def Table.mendAll (b : Table ρ) (ids : List Int) (t : Table ρ) : Table ρ :=
  ids.foldl (fun t id => b.mend id t) t

theorem Table.get?_mendAll (b t : Table ρ) (ids : List Int) (j : Int) :
    (b.mendAll ids t).get? j = if j ∈ ids then b.get? j else t.get? j := by
  induction ids generalizing t with
  | nil => simp [mendAll]
  | cons id rest ih =>
    refine (ih (b.mend id t)).trans ?_
    rw [get?_mend]
    by_cases hrest : j ∈ rest
    · simp [hrest]
    · by_cases hid : j = id
      · simp [hid]
      · simp [hrest, hid]

theorem Table.get?_mendAll_of_ne (b t : Table ρ) {found : List (Int × Mismatch)} {j : Int}
    (h : ∀ x ∈ found, x.1 ≠ j) : (b.mendAll (found.map Prod.fst) t).get? j = t.get? j := by
  rw [get?_mendAll, if_neg]
  intro hmem
  obtain ⟨x, hx, heq⟩ := List.mem_map.mp hmem
  exact h x hx heq

/-- A table that has under each id what `t` has or what `b` has. -/
def Table.Mended (b t t' : Table ρ) : Prop :=
  ∀ id, t'.get? id = b.get? id ∨ t'.get? id = t.get? id

namespace Table.Mended

variable {b t t' t'' : Table ρ} {id : Int}

theorem refl (b t : Table ρ) : b.Mended t t := fun _ => .inr rfl

theorem trans (h : b.Mended t t') (h' : b.Mended t' t'') : b.Mended t t'' := by
  intro id
  rcases h' id with heq | heq
  · exact .inl heq
  · exact (h id).imp heq.trans heq.trans

theorem mend (b t : Table ρ) (id : Int) : b.Mended t (b.mend id t) := by
  intro j
  rw [get?_mend]
  split
  · next heq => exact .inl (by rw [heq])
  · exact .inr rfl

/-- An id that has what `b` has keeps it. -/
theorem keep (h : b.Mended t t') (hid : t.get? id = b.get? id) : t'.get? id = b.get? id := by
  rcases h id with heq | heq
  · exact heq
  · exact heq.trans hid

end Table.Mended

/-! ## Repairs -/

/-- A deployment with a table on each side, which refuses no call when it starts. -/
structure Deployment.Tables (base : Side) (b t : Table ρ) (d : Deployment ρ) : Prop where
  source : (d.store base).contents = .table b
  target : (d.store base.other).contents = .table t
  plain : ∀ side, (d.store side).Plain

namespace Deployment.Tables

variable {base : Side} {b t : Table ρ} {d d' : Deployment ρ}

theorem alike (h : d.Tables base b t) (ha : d.Alike d') : d'.Tables base b t :=
  ⟨(ha.contents _).trans h.source, (ha.contents _).trans h.target,
    fun side => (ha.stores side).plain (h.plain side)⟩

theorem withBroker (h : d.Tables base b t) (broker : Broker) :
    ({ d with broker } : Deployment ρ).Tables base b t :=
  ⟨by simpa using h.source, by simpa using h.target, fun side => by simpa using h.plain side⟩

theorem setTarget (h : d.Tables base b t) {s : Store ρ} {t' : Table ρ}
    (hs : s.contents = .table t') (hplain : (d.store base.other).Plain → s.Plain) :
    (d.setStore s base.other).Tables base b t' := by
  refine ⟨?_, by rw [store_setStore, if_pos rfl, hs], fun side => ?_⟩
  · rw [store_setStore, if_neg (Side.other_ne base).symm, h.source]
  · rw [store_setStore]
    split
    · exact hplain (h.plain _)
    · exact h.plain side

end Deployment.Tables

namespace Repair

variable {base : Side} {b t t' : Table ρ} {d d' : Deployment ρ} {r r' : Repair ρ}

/-- A repair that does what it should: it has in hand what the base has under its id, and when it
has succeeded the target has it too. -/
structure Faithful (base : Side) (b t : Table ρ) (r : Repair ρ) : Prop where
  side : r.base = base
  flight : ∀ f ∈ r.flight, f.refused = none
  phase : match r.phase with
    | .writing row => b.get? r.id = some row
    | .removing => b.get? r.id = none
    | .done (.ok ()) => t.get? r.id = b.get? r.id
    | _ => True

theorem Faithful.mend (h : r.Faithful base b t) (hm : b.Mended t t') : r.Faithful base b t' := by
  refine ⟨h.side, h.flight, ?_⟩
  have hphase := h.phase
  split
  · next hph => simpa only [hph] using hphase
  · next hph => simpa only [hph] using hphase
  · next hph =>
    simp only [hph] at hphase
    exact hm.keep hphase
  · trivial

omit [Entity ρ] in
theorem phase_of_result? {x : Except Error Unit} (h : r.result? = some x) : r.phase = .done x := by
  unfold result? at h
  split at h
  · next hph => cases h; exact hph
  · cases h

/-- A move of a faithful repair mends nothing but its id. -/
theorem Faithful.move {m : Moment} (h : r.Faithful base b t) (hd : d.Tables base b t)
    (hm : Moved m d r d' r') :
    ∃ t', d'.Tables base b t' ∧ (t' = t ∨ t' = b.mend r.id t) ∧ r'.Faithful base b t' ∧
      r'.id = r.id ∧ d.broker.Alike d'.broker ∧ d'.policy = d.policy := by
  obtain ⟨rfl, hflight, hphase⟩ := h
  have hb : (d.store r.base).rows = b.rows := by rw [Store.rows, hd.source]; rfl
  have kept {r' : Repair ρ} (ha : d.Alike d') (hr' : r'.Faithful r.base b t) (hid : r'.id = r.id) :
      ∃ t', d'.Tables r.base b t' ∧ (t' = t ∨ t' = b.mend r.id t) ∧ r'.Faithful r.base b t' ∧
        r'.id = r.id ∧ d.broker.Alike d'.broker ∧ d'.policy = d.policy :=
    ⟨t, hd.alike ha, .inl rfl, hr', hid, ha.broker, ha.policy⟩
  have wrote {s : Store ρ} (hs : s.contents = .table (b.mend r.id t))
      (hplain : (d.store r.base.other).Plain → s.Plain) :
      ∃ t', (d.setStore s r.base.other).Tables r.base b t' ∧ (t' = t ∨ t' = b.mend r.id t) ∧
        (r.enter (.done (.ok ()))).Faithful r.base b t' ∧ (r.enter (.done (.ok ()))).id = r.id ∧
        d.broker.Alike (d.setStore s r.base.other).broker ∧
        (d.setStore s r.base.other).policy = d.policy := by
    refine ⟨_, hd.setTarget hs hplain, .inr rfl, ⟨rfl, by simp [enter], ?_⟩, rfl, ?_, by simp⟩
    · change (b.mend r.id t).get? r.id = b.get? r.id
      rw [Table.get?_mend, if_pos rfl]
    · rw [Deployment.broker_setStore]
      exact .refl _
  cases hm with
  | begun hnone ha hplain =>
    refine kept ha ⟨rfl, fun f hf => ?_, hphase⟩ rfl
    cases hf
    exact hplain hd.plain
  | found hph hrow ha =>
    rw [hb, ← Table.get?_eq_first?] at hrow
    exact kept ha ⟨rfl, by simp [enter], hrow⟩ rfl
  | missed hph hrow ha =>
    rw [hb, ← Table.get?_eq_first?] at hrow
    exact kept ha ⟨rfl, by simp [enter], hrow⟩ rfl
  | @written s row hph hs hplain =>
    simp only [hph] at hphase
    refine wrote ?_ hplain
    rw [hs, hd.target, Table.mend, hphase]
    rfl
  | removed hph hs hplain =>
    simp only [hph] at hphase
    refine wrote ?_ hplain
    rw [hs, hd.target, Table.mend, hphase]
    rfl
  | failed ha => exact kept ha ⟨rfl, by simp [enter], trivial⟩ rfl
  | misled hex ha =>
    obtain ⟨f, hf, hne⟩ := hex
    exact absurd (hflight f hf) hne

/-- How many moves a repair may have yet to make. -/
def weight (r : Repair ρ) : Nat :=
  let toStart := if r.flight.isNone then 1 else 0
  match r.phase with
  | .reading => 4 + toStart
  | .writing _ | .removing => 2 + toStart
  | .done _ => toStart

/-- When nothing goes wrong, a move of a repair leaves it with less to do, and does not fail it. -/
theorem Moved.weight_lt {l : Nat} {m : Moment} (hm : Moved m d r d' r') (hstop : m.stopped = false)
    (hd : d.Prompt l) (hflight : ∀ f ∈ r.flight, f.Prompt)
    (hok : ∀ e, r.phase ≠ .done (.error e)) :
    r'.weight < r.weight ∧ (∀ f ∈ r'.flight, f.Prompt) ∧ ∀ e, r'.phase ≠ .done (.error e) := by
  cases hm with
  | begun hnone _ _ hp =>
    refine ⟨?_, fun f hf => ?_, hok⟩
    · cases hph : r.phase <;> simp [weight, hph, hnone]
    · cases hf
      exact hp l hd
  | found hph | missed hph | written hph | removed hph =>
    refine ⟨?_, by simp [enter], by simp [enter]⟩
    simp only [weight, enter, hph, Option.isNone_none, if_true]
    omega
  | failed _ hfine => exact absurd ⟨hstop, ⟨l, hd⟩, hflight⟩ hfine
  | misled hex =>
    obtain ⟨f, hf, hne⟩ := hex
    exact absurd (hflight f hf).1 hne

/-- A repair that has not ended moves once the delay of its call is over. -/
theorem step_isSome {m : Moment} (hdone : r.result? = none) (hr : ∀ f ∈ r.flight, f.ready ≤ m.now) :
    (r.step m d).isSome := by
  unfold step
  cases hph : r.phase with
  | reading | writing _ | removing => simpa using Deployment.call_isSome hr
  | done x => simp [result?, hph] at hdone

end Repair

end Cutover
