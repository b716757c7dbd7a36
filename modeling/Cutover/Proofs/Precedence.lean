import Cutover.Proofs.Repairs

/-!
# Repairs one after the other

Reports of any ids, tagged with any sides, are repaired one after the other. A repair gives an id
the same row on both sides, so a later one, from whichever side, finds under the id what it would
write. Main statements: the first report of an id decides what both sides have under it
(`Report.get?_settleAll`), and repairs come to that end whatever their order of moves
(`Repair.first_report_decides`).
-/

namespace Cutover

variable {ρ : Type} [Entity ρ]

/-! ## Tables on both sides -/

/-- The tables of both sides with what the base has under an id. -/
def Side.mend (base : Side) (id : Int) (tables : Side → Table ρ) : Side → Table ρ :=
  fun side => if side = base then tables base else (tables base).mend id (tables side)

theorem Side.get?_mend (base : Side) (id : Int) (tables : Side → Table ρ) (side : Side) (j : Int) :
    (base.mend id tables side).get? j =
      if j = id then (tables base).get? id else (tables side).get? j := by
  unfold mend
  split
  · next hside =>
    split
    · next hid => rw [hid]
    · rw [hside]
  · exact Table.get?_mend ..

/-- An id that is the same on both sides needs no repair. -/
theorem Side.mend_eq_self {base : Side} {id : Int} {tables : Side → Table ρ}
    (h : (tables base.other).get? id = (tables base).get? id) : base.mend id tables = tables := by
  funext side
  refine Table.ext_get? fun j => ?_
  rw [get?_mend]
  split
  · next hid =>
    subst hid
    cases base <;> cases side <;> first | rfl | exact h.symm
  · rfl

theorem Side.mend_mend (base : Side) (id : Int) (tables : Side → Table ρ) :
    base.mend id (base.mend id tables) = base.mend id tables := by
  refine mend_eq_self ?_
  rw [get?_mend, if_pos rfl, get?_mend, if_pos rfl]

namespace Report

/-- The tables of both sides when reports have been repaired one after the other. -/
def settleAll (reports : List Report) (tables : Side → Table ρ) : Side → Table ρ :=
  reports.foldl (fun tables r => r.base.mend r.id tables) tables

/-- Of the reports of an id the first decides: both sides have what its base had. -/
theorem get?_settleAll (reports : List Report) (tables : Side → Table ρ) (side : Side) (id : Int) :
    (settleAll reports tables side).get? id =
      match reports.find? fun r => r.id == id with
      | some r => (tables r.base).get? id
      | none => (tables side).get? id := by
  induction reports generalizing tables with
  | nil => rfl
  | cons r rest ih =>
    refine (ih (r.base.mend r.id tables)).trans ?_
    by_cases hid : r.id = id
    · -- from here on both sides agree under the id, whichever report comes next
      subst hid
      have hboth (other : Side) :
          (r.base.mend r.id tables other).get? r.id = (tables r.base).get? r.id := by
        rw [Side.get?_mend, if_pos rfl]
      rw [List.find?_cons_of_pos (by simp)]
      cases rest.find? fun q => q.id == r.id <;> exact hboth _
    · have hkept (other : Side) :
          (r.base.mend r.id tables other).get? id = (tables other).get? id := by
        rw [Side.get?_mend, if_neg (Ne.symm hid)]
      rw [List.find?_cons_of_neg (by simpa using hid)]
      cases rest.find? fun q => q.id == id <;> exact hkept _

/-- Reports of ids that were reported before change nothing. -/
theorem settleAll_append {reports more : List Report} (h : ∀ r ∈ more, ∃ q ∈ reports, q.id = r.id)
    (tables : Side → Table ρ) : settleAll (reports ++ more) tables = settleAll reports tables := by
  funext side
  refine Table.ext_get? fun id => ?_
  rw [get?_settleAll, get?_settleAll, List.find?_append]
  cases hfirst : reports.find? fun r => r.id == id with
  | some r => rfl
  | none =>
    have hmore : (more.find? fun r => r.id == id) = none := by
      refine List.find?_eq_none.mpr fun r hr hid => ?_
      obtain ⟨q, hq, hqid⟩ := h r hr
      refine List.find?_eq_none.mp hfirst q hq ?_
      rwa [hqid]
    rw [hmore, Option.none_or]

/-- The repair that is made of a report. -/
def repair (r : Report) : Repair ρ := { base := r.base, id := r.id }

end Report

/-- A deployment with a table on each side, which refuses no call when it starts. -/
structure Deployment.Holds (tables : Side → Table ρ) (d : Deployment ρ) : Prop where
  contents : ∀ side, (d.store side).contents = .table (tables side)
  plain : ∀ side, (d.store side).Plain

theorem Deployment.holds_iff {tables : Side → Table ρ} {d : Deployment ρ} (base : Side) :
    d.Holds tables ↔ d.Tables base (tables base) (tables base.other) := by
  constructor
  · intro h
    exact ⟨h.contents base, h.contents base.other, h.plain⟩
  · intro h
    refine ⟨fun side => ?_, h.plain⟩
    cases base <;> cases side <;> first | exact h.source | exact h.target

/-! ## Repairs -/

namespace Repair

variable {l : Nat} {tables goal : Side → Table ρ} {reports : List Report} {d d' : Deployment ρ}
  {r r' : Repair ρ} {rs rs' : List (Repair ρ)}

/-- The next move of repairs that are made one after the other, up to the first that fails. -/
def stepAll (_ : Unit) (m : Moment) (d : Deployment ρ) :
    List (Repair ρ) → Option (Deployment ρ × List (Repair ρ))
  | [] => none
  | r :: rest =>
    match r.result? with
    | some (.ok ()) => some (d, rest)
    | some (.error _) => none
    | none => (r.step m d).map fun (d, r) => (d, r :: rest)

/-- How repairs that are made one after the other ended, if they did. -/
def resultAll? : List (Repair ρ) → Option (Except Error Unit)
  | [] => some (.ok ())
  | r :: _ =>
    match r.result? with
    | some (.error e) => some (.error e)
    | _ => none

/-- A repair of one of two tables that does not fail. -/
structure Steady (tables : Side → Table ρ) (r : Repair ρ) : Prop where
  faithful : r.Faithful r.base (tables r.base) (tables r.base.other)
  prompt : ∀ f ∈ r.flight, f.Prompt
  sound : ∀ e, r.phase ≠ .done (.error e)

theorem steady_repair (tables : Side → Table ρ) (r : Report) :
    (r.repair : Repair ρ).Steady tables :=
  ⟨⟨rfl, by simp [Report.repair], trivial⟩, by simp [Report.repair], by simp [Report.repair]⟩

/-- A move of a repair mends no more than its id. -/
theorem Steady.move {now : Nat} (h : r.Steady tables) (hp : d.Prompt l) (hd : d.Holds tables)
    (hm : r.step ⟨now, false⟩ d = some (d', r')) :
    ∃ tables', d'.Holds tables' ∧ (tables' = tables ∨ tables' = r.base.mend r.id tables) ∧
      r'.Steady tables' ∧ r'.base = r.base ∧ r'.id = r.id ∧ r'.weight < r.weight := by
  have hmoved := moved_of_step hm
  obtain ⟨t, ht, hcase, hf, hid, -, -⟩ :=
    h.faithful.move ((Deployment.holds_iff r.base).mp hd) hmoved
  obtain ⟨hlt, hprompt, hsound⟩ := hmoved.weight_lt rfl hp h.prompt h.sound
  have hside : r'.base = r.base := hf.side
  rcases hcase with rfl | rfl
  · refine ⟨tables, (Deployment.holds_iff r.base).mpr ht, .inl rfl, ⟨?_, hprompt, hsound⟩, hside,
      hid, hlt⟩
    rwa [hside]
  · have hbase : r.base.mend r.id tables r.base = tables r.base := if_pos rfl
    have hother : r.base.mend r.id tables r.base.other =
        (tables r.base).mend r.id (tables r.base.other) := if_neg (Side.other_ne r.base)
    refine ⟨_, (Deployment.holds_iff r.base).mpr ?_, .inr rfl, ⟨?_, hprompt, hsound⟩, hside, hid,
      hlt⟩
    · rwa [hbase, hother]
    · rwa [hside, hbase, hother]

/-- Repairs of reports, of which the first may have begun, that lead from tables to a goal. -/
inductive SteadyAll (goal : Side → Table ρ) (tables : Side → Table ρ) : List (Repair ρ) → Prop where
  | nil : tables = goal → SteadyAll goal tables []
  | cons {r : Repair ρ} {reports : List Report} : r.Steady tables →
      Report.settleAll reports (r.base.mend r.id tables) = goal →
      SteadyAll goal tables (r :: reports.map Report.repair)

theorem steadyAll_start (reports : List Report) (tables : Side → Table ρ) :
    SteadyAll (Report.settleAll reports tables) tables (reports.map Report.repair) := by
  cases reports with
  | nil => exact .nil rfl
  | cons r rest => exact .cons (steady_repair tables r) rfl

/-- How many moves repairs that are made one after the other may have yet to make. -/
def weightAll : List (Repair ρ) → Nat
  | [] => 0
  | r :: rest => r.weight + 1 + weightAll rest

theorem SteadyAll.move {now : Nat} (h : SteadyAll goal tables rs) (hp : d.Prompt l)
    (hd : d.Holds tables) (hm : stepAll () ⟨now, false⟩ d rs = some (d', rs')) :
    d'.Prompt l ∧ (∃ tables', d'.Holds tables' ∧ SteadyAll goal tables' rs') ∧
      weightAll rs' < weightAll rs := by
  cases h with
  | nil => cases hm
  | @cons r reports hr hgoal =>
    simp only [stepAll] at hm
    split at hm
    · next hres =>
      cases hm
      -- the repair has ended, so its id is the same on both sides
      have hsame := hr.faithful.phase
      rw [phase_of_result? hres] at hsame
      rw [Side.mend_eq_self hsame] at hgoal
      refine ⟨hp, ⟨tables, hd, hgoal ▸ steadyAll_start reports tables⟩, ?_⟩
      simp only [weightAll]
      omega
    · cases hm
    · obtain ⟨⟨e, r'⟩, hstep, heq⟩ := Option.map_eq_some_iff.mp hm
      cases heq
      obtain ⟨tables', hd', hcase, hr', hside, hid, hlt⟩ := hr.move hp hd hstep
      refine ⟨(Deployment.frames_prompt l).repair hstep hp, ⟨tables', hd', .cons hr' ?_⟩, ?_⟩
      · rw [hside, hid]
        rcases hcase with rfl | rfl
        · exact hgoal
        · rwa [Side.mend_mend]
      · simp only [weightAll]
        omega

/-- Repairs made one after the other succeed, and leave the tables settled. -/
theorem concludes (hp : d.Prompt l) (hd : ∀ side, (d.store side).contents = .table (tables side))
    (reports : List Report) :
    Deployment.Concludes l stepAll resultAll? d (reports.map Report.repair) fun d' =>
      ∀ side, (d'.store side).contents = .table (Report.settleAll reports tables side) := by
  refine .of_invariant
    (fun e rs => e.Prompt l ∧ ∃ tables', e.Holds tables' ∧
      SteadyAll (Report.settleAll reports tables) tables' rs) weightAll ?_ ?_ ?_ ?_ ?_
  · exact ⟨hp, tables, ⟨hd, fun side => (hp.1 side).2⟩, steadyAll_start reports tables⟩
  · intro e rs e' ⟨hp, tables', he, hs⟩ hr
    refine ⟨hr.prompt hp, tables', ⟨fun side => ?_, fun side => ?_⟩, hs⟩
    · exact (hr.alike.contents side).trans (he.contents side)
    · exact (hr.alike.stores side).plain (he.plain side)
  · intro _ now e rs e' rs' ⟨hp, tables', he, hs⟩ hm
    obtain ⟨hp', hs', hlt⟩ := hs.move hp he hm
    exact ⟨⟨hp', hs'⟩, hlt⟩
  · intro e rs ⟨_, tables', _, hs⟩ hres
    cases hs with
    | nil => cases hres
    | @cons r rest hr _ =>
      cases hend : r.result? with
      | none =>
        refine ⟨(), (r.flight.map Flight.ready).getD 0, fun now hnow => ?_⟩
        simp only [stepAll, hend, Option.isSome_map]
        refine step_isSome hend fun f hf => ?_
        rw [Option.mem_def.mp hf] at hnow
        exact hnow
      | some x =>
        cases x with
        | ok _ => exact ⟨(), 0, fun now _ => by simp [stepAll, hend]⟩
        | error error => simp [resultAll?, hend] at hres
  · intro e rs x ⟨_, tables', he, hs⟩ hres
    cases hs with
    | nil hgoal =>
      cases hres
      exact ⟨rfl, hgoal ▸ he.contents⟩
    | @cons r rest hr _ =>
      simp only [resultAll?] at hres
      split at hres
      · next error hend => exact absurd (phase_of_result? hend) (hr.sound error)
      · cases hres

/-- The first report of an id decides. Let reports be repaired one after the other, while nothing
else is written and no call fails. Then the repairs succeed, and leave under each id of a report on
both sides what the base of its first report had there, and under the other ids what was there.
Further reports of the same ids leave the same. -/
theorem first_report_decides (hp : d.Prompt l)
    (hd : ∀ side, (d.store side).contents = .table (tables side)) (reports : List Report) :
    ∃ final : Side → Table ρ,
      (∀ id r, (reports.find? fun q => q.id == id) = some r →
        ∀ side, (final side).get? id = (tables r.base).get? id) ∧
      (∀ id, (∀ r ∈ reports, r.id ≠ id) → ∀ side, (final side).get? id = (tables side).get? id) ∧
      ∀ more : List Report, (∀ r ∈ more, ∃ q ∈ reports, q.id = r.id) →
        Deployment.Concludes l stepAll resultAll? d ((reports ++ more).map Report.repair) fun d' =>
          ∀ side, (d'.store side).contents = .table (final side) := by
  refine ⟨Report.settleAll reports tables, fun id r hr side => ?_, fun id hid side => ?_,
    fun more hmore => ?_⟩
  · rw [Report.get?_settleAll, hr]
  · have hnone : (reports.find? fun q => q.id == id) = none :=
      List.find?_eq_none.mpr fun r hr => by simpa using hid r hr
    rw [Report.get?_settleAll, hnone]
  · rw [← Report.settleAll_append hmore]
    exact concludes hp hd (reports ++ more)

/-- Two ids of which each is reported from both sides, and one of them once more. -/
theorem first_report_decides_sample :
    let src : List Account := [⟨1, "ann", 10, 0⟩, ⟨3, "cid", 30, 0⟩]
    let dst : List Account := [⟨1, "ann", 11, 0⟩, ⟨2, "bob", 20, 0⟩]
    let site := Deployment.ofRows src dst .srcOnly
    let tables : Side → Table Account
      | .src => Table.empty.insertAll src
      | .dst => Table.empty.insertAll dst
    let reports : List Report :=
      [⟨2, .dst, .targetMissing⟩, ⟨1, .src, .differs⟩, ⟨1, .dst, .differs⟩]
    let more : List Report := [⟨2, .src, .baseMissing⟩]
    site.Prompt 1000 ∧ (∀ side, (site.store side).contents = .table (tables side)) ∧
      (∀ r ∈ more, ∃ q ∈ reports, q.id = r.id) ∧
      ∃ final : Side → Table Account,
        (∀ side, (final side).get? 1 = some ⟨1, "ann", 10, 0⟩ ∧
          (final side).get? 2 = some ⟨2, "bob", 20, 0⟩ ∧
          (final side).get? 3 = (tables side).get? 3) ∧
        Deployment.Concludes 1000 stepAll resultAll? site (reports.map Report.repair)
          (fun d => ∀ side, (d.store side).contents = .table (final side)) ∧
        Deployment.Concludes 1000 stepAll resultAll? site ((reports ++ more).map Report.repair)
          (fun d => ∀ side, (d.store side).contents = .table (final side)) := by
  intro src dst site tables reports more
  have hp : site.Prompt 1000 := Deployment.prompt_ofRows ..
  have hd : ∀ side, (site.store side).contents = .table (tables side)
    | .src | .dst => rfl
  have hmore : ∀ r ∈ more, ∃ q ∈ reports, q.id = r.id := by decide
  obtain ⟨final, hfirst, hothers, hconcludes⟩ := first_report_decides hp hd reports
  refine ⟨hp, hd, hmore, final, fun side => ⟨?_, ?_, ?_⟩, ?_, hconcludes more hmore⟩
  · exact hfirst 1 ⟨1, .src, .differs⟩ rfl side
  · exact hfirst 2 ⟨2, .dst, .targetMissing⟩ rfl side
  · exact hothers 3 (by decide) side
  · exact hconcludes [] (by simp)

end Repair

end Cutover
