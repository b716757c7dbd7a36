import Cutover.Proofs.Steady
import Cutover.RowCheck
import Mathlib.Data.Option.Basic

/-!
# Checks of single rows and scans

Checks of one row each, made one after the other, report the differences of the stores under the ids
they are about. Main statements: `RowCheck.concludes`, and that a scan reports what the checks of
all ids report (`Scan.scan_reports_as_checks`).
-/

namespace Cutover

variable {ρ : Type} [Entity ρ]

/-! ## Lookups -/

namespace Lookup

/-- A lookup among the rows of a store that does not fail. -/
def Steady (rows : List ρ) (id : Int) : Lookup ρ → Prop
  | asking flight => ∀ f ∈ flight, f.Prompt
  | found row => row = Rows.first? id rows
  | failed _ => False

/-- How many moves a lookup may have yet to make. -/
def weight : Lookup ρ → Nat
  | asking none => 2
  | asking (some _) => 1
  | _ => 0

variable {c : Comparison} {side : Side} {id : Int} {d d' : Deployment ρ} {l l' : Lookup ρ}

theorem Steady.move {now : Nat} (h : l.Steady (d.store side).rows id)
    (hp : d.Prompt c.callLimit) (hm : l.step c side id ⟨now, false⟩ d = some (d', l')) :
    d.Alike d' ∧ d'.Prompt c.callLimit ∧ l'.Steady (d.store side).rows id ∧
      l'.weight < l.weight := by
  cases l with
  | found | failed => cases hm
  | asking flight =>
    obtain ⟨⟨e, progress⟩, hc, heq⟩ := Option.map_eq_some_iff.mp hm
    cases heq
    cases Deployment.called_of_call hc with
    | begun _ hsame _ hprompt =>
      obtain ⟨hf, hs⟩ := hprompt c.callLimit (by simp) (hp.1 side)
      refine ⟨.setStore hsame, hp.setStore hs side, fun g hg => ?_, Nat.lt_succ_self _⟩
      cases hg
      exact hf
    | answered _ _ hsame hplain hprompt =>
      cases hfound : Rows.first? id (d.store side).rows with
      | none =>
        rw [Contents.run_first_none hfound] at hsame ⊢
        exact ⟨.setStore ⟨hsame, hplain⟩, hp.setStore (hprompt _ (hp.1 side)) side, hfound.symm,
          Nat.zero_lt_one⟩
      | some r =>
        rw [Contents.run_first_some hfound] at hsame ⊢
        exact ⟨.setStore ⟨hsame, hplain⟩, hp.setStore (hprompt _ (hp.1 side)) side, hfound.symm,
          Nat.zero_lt_one⟩
    | failed _ _ hfine => exact absurd ⟨rfl, ⟨_, hp.1 side⟩, h⟩ hfine

omit [Entity ρ] in
theorem weight_asking_pos (flight : Option Flight) : 0 < (asking flight : Lookup ρ).weight := by
  cases flight with
  | none => exact Nat.zero_lt_two
  | some f => exact Nat.zero_lt_one

theorem step_isSome {m : Moment} {flight : Option Flight} (h : ∀ f ∈ flight, f.ready ≤ m.now) :
    ((asking flight).step c side id m d).isSome := by
  simpa [step] using Deployment.call_isSome h

end Lookup

/-! ## Checks of one row -/

namespace RowCheck

/-- What a check of an id in the rows of `d₀` has to report. -/
def verdict (c : Comparison) (d₀ : Deployment ρ) (id : Int) : List Report :=
  (Mismatch.between (Rows.first? id (d₀.store c.base).rows)
    (Rows.first? id (d₀.store c.target).rows)).toList.map (c.report id)

/-- What a check has yet to report. -/
def owed (d₀ : Deployment ρ) (c : RowCheck ρ) : List Report :=
  match c.phase with
  | .done _ => []
  | _ => verdict c.comparison d₀ c.id

/-- A check of the rows of `d₀` that does not fail. -/
def Steady (d₀ : Deployment ρ) (c : RowCheck ρ) : Prop :=
  match c.phase with
  | .looking base target =>
    base.Steady (d₀.store c.comparison.base).rows c.id ∧
      target.Steady (d₀.store c.comparison.target).rows c.id ∧ 0 < base.weight + target.weight
  | .reporting kind flight =>
    verdict c.comparison d₀ c.id = [c.comparison.report c.id kind] ∧ ∀ f ∈ flight, f.Prompt
  | .done r => r = .ok ()

/-- How many moves a check may have yet to make. -/
def weight (c : RowCheck ρ) : Nat :=
  match c.phase with
  | .looking base target => base.weight + target.weight + 2
  | .reporting _ none => 2
  | .reporting _ (some _) => 1
  | .done _ => 0

variable {limit : Nat} {topic : String} {reports rest : List Report} {d₀ d d' : Deployment ρ}
  {c c' : RowCheck ρ}

theorem steady_settle {base target : Lookup ρ}
    (hb : base.Steady (d₀.store c.comparison.base).rows c.id)
    (ht : target.Steady (d₀.store c.comparison.target).rows c.id) :
    ({ c with phase := settle base target } : RowCheck ρ).Steady d₀ ∧
      ({ c with phase := settle base target } : RowCheck ρ).weight ≤
        base.weight + target.weight + 2 ∧
      ({ c with phase := settle base target } : RowCheck ρ).owed d₀ =
        verdict c.comparison d₀ c.id := by
  cases base with
  | failed e => exact hb.elim
  | asking f =>
    have := Lookup.weight_asking_pos (ρ := ρ) f
    cases target with
    | failed e => exact ht.elim
    | asking g => exact ⟨⟨hb, ht, by omega⟩, Nat.le_refl _, rfl⟩
    | found t => exact ⟨⟨hb, ht, by omega⟩, Nat.le_refl _, rfl⟩
  | found b =>
    cases target with
    | failed e => exact ht.elim
    | asking g =>
      have := Lookup.weight_asking_pos (ρ := ρ) g
      exact ⟨⟨hb, ht, by omega⟩, Nat.le_refl _, rfl⟩
    | found t =>
      obtain rfl : b = _ := hb
      obtain rfl : t = _ := ht
      cases hk : Mismatch.between (Rows.first? c.id (d₀.store c.comparison.base).rows)
          (Rows.first? c.id (d₀.store c.comparison.target).rows) with
      | none =>
        have hv : verdict c.comparison d₀ c.id = [] := by simp only [verdict, hk]; rfl
        simp only [settle, hk]
        exact ⟨rfl, Nat.zero_le _, hv.symm⟩
      | some kind =>
        have hv : verdict c.comparison d₀ c.id = [c.comparison.report c.id kind] := by
          simp only [verdict, hk]; rfl
        simp only [settle, hk]
        exact ⟨⟨hv, by simp⟩, Nat.le_refl _, rfl⟩

theorem Steady.move {now : Nat} (h : c.Steady d₀)
    (ho : d₀.Owes limit topic reports d (c.owed d₀ ++ rest))
    (hlimit : c.comparison.callLimit = limit)
    (htopic : c.comparison.topic = topic) (hm : c.step ⟨now, false⟩ d = some (d', c')) :
    c'.Steady d₀ ∧ c'.weight < c.weight ∧ d₀.Owes limit topic reports d' (c'.owed d₀ ++ rest) ∧
      c'.comparison = c.comparison := by
  subst hlimit htopic
  have hp := ho.prompt
  cases hph : c.phase with
  | done r => simp only [step, hph] at hm; cases hm
  | looking base target =>
    rw [Steady, hph] at h
    obtain ⟨hb, ht, hpos⟩ := h
    have howed : c.owed d₀ = verdict c.comparison d₀ c.id := by simp only [owed, hph]
    have hweight : c.weight = base.weight + target.weight + 2 := by simp only [weight, hph]
    rw [howed] at ho
    simp only [step, hph] at hm
    rw [← ho.rows] at hb ht
    rcases (Option.orElse_eq_some ..).mp hm with hm | ⟨-, hm⟩
    · obtain ⟨⟨e, base'⟩, hstep, heq⟩ := Option.map_eq_some_iff.mp hm
      cases heq
      obtain ⟨ha, hp', hb', hlt⟩ := hb.move hp hstep
      rw [ho.rows] at hb' ht
      obtain ⟨h1, h2, h3⟩ := steady_settle hb' ht
      exact ⟨h1, Nat.lt_of_le_of_lt h2 (by omega), by rw [h3]; exact ho.alike ha hp', rfl⟩
    · obtain ⟨⟨e, target'⟩, hstep, heq⟩ := Option.map_eq_some_iff.mp hm
      cases heq
      obtain ⟨ha, hp', ht', hlt⟩ := ht.move hp hstep
      rw [ho.rows] at hb ht'
      obtain ⟨h1, h2, h3⟩ := steady_settle hb ht'
      exact ⟨h1, Nat.lt_of_le_of_lt h2 (by omega), by rw [h3]; exact ho.alike ha hp', rfl⟩
  | reporting kind flight =>
    rw [Steady, hph] at h
    obtain ⟨hv, hf⟩ := h
    have howed : c.owed d₀ = verdict c.comparison d₀ c.id := by simp only [owed, hph]
    rw [howed] at ho
    simp only [step, hph] at hm
    obtain ⟨⟨e, progress⟩, hc, heq⟩ := Option.map_eq_some_iff.mp hm
    cases heq
    cases Deployment.posted_of_publish hc with
    | begun _ ha hprompt =>
      obtain ⟨hf', hb⟩ := hprompt c.comparison.callLimit (by simp) hp.2
      refine ⟨⟨hv, fun g hg => ?_⟩, ?_, ho.alike (.withBroker ha) ⟨fun side => ?_, hb⟩, rfl⟩
      · cases hg
        exact hf'
      · simp only [weight, hph, afterReport]
        exact Nat.one_lt_two
      · simpa using hp.1 side
    | answered _ _ =>
      rw [hv] at ho
      refine ⟨rfl, ?_, ho.report, rfl⟩
      simp only [weight, hph, afterReport]
      exact Nat.zero_lt_one
    | failed _ hfine => exact absurd ⟨rfl, ⟨_, hp.2⟩, hf⟩ hfine

theorem Steady.step_isSome (h : c.Steady d₀) (hr : c.result? = none) :
    ∃ t, ∀ now, t ≤ now → (c.step ⟨now, false⟩ d).isSome := by
  -- the call that is waited for has some moment at which it is ready
  have ready (flight : Option Flight) : ∃ t, ∀ now, t ≤ now → ∀ f ∈ flight, f.ready ≤ now := by
    refine ⟨(flight.map Flight.ready).getD 0, fun now hnow f hf => ?_⟩
    rw [Option.mem_def.mp hf] at hnow
    exact hnow
  cases hph : c.phase with
  | done r =>
    rw [result?, hph] at hr
    cases hr
  | looking base target =>
    rw [Steady, hph] at h
    obtain ⟨hb, ht, hpos⟩ := h
    simp only [step, hph]
    cases base with
    | failed e => exact hb.elim
    | asking flight =>
      obtain ⟨t, hready⟩ := ready flight
      refine ⟨t, fun now hnow => ?_⟩
      have : ((Lookup.asking flight).step c.comparison c.comparison.base c.id ⟨now, false⟩
          d).isSome := Lookup.step_isSome (hready now hnow)
      simp [this]
    | found b =>
      cases target with
      | failed e => exact ht.elim
      | found t => cases hpos
      | asking flight =>
        obtain ⟨t, hready⟩ := ready flight
        refine ⟨t, fun now hnow => ?_⟩
        have : ((Lookup.asking flight).step c.comparison c.comparison.target c.id ⟨now, false⟩
            d).isSome := Lookup.step_isSome (hready now hnow)
        simpa [Lookup.step] using this
  | reporting kind flight =>
    obtain ⟨t, hready⟩ := ready flight
    refine ⟨t, fun now hnow => ?_⟩
    simp only [step, hph, Option.isSome_map]
    exact Deployment.publish_isSome (hready now hnow)

omit [Entity ρ] in
theorem phase_of_result? {r : Except Error Unit} (h : c.result? = some r) :
    c.phase = .done r := by
  unfold result? at h
  split at h
  · next hph => cases h; exact hph
  · cases h

/-! ## Checks one after the other -/

/-- The next move of checks that are made one after the other, up to the first that fails. -/
def stepAll (_ : Unit) (m : Moment) (d : Deployment ρ) :
    List (RowCheck ρ) → Option (Deployment ρ × List (RowCheck ρ))
  | [] => none
  | c :: rest =>
    match c.result? with
    | some (.ok ()) => some (d, rest)
    | some (.error _) => none
    | none => (c.step m d).map fun (d, c) => (d, c :: rest)

/-- How checks that are made one after the other ended, if they did. -/
def resultAll? : List (RowCheck ρ) → Option (Except Error Unit)
  | [] => some (.ok ())
  | c :: _ =>
    match c.result? with
    | some (.error e) => some (.error e)
    | _ => none

/-- Checks of ids in the rows of `d₀`, of which the first may have begun. -/
inductive SteadyAll (plan : Comparison) (d₀ : Deployment ρ) : List (RowCheck ρ) → Prop where
  | nil : SteadyAll plan d₀ []
  | cons {c ids} : c.Steady d₀ → c.comparison = plan →
      SteadyAll plan d₀ (c :: List.map (fun id => { comparison := plan, id }) ids)

theorem steadyAll_start (plan : Comparison) (d₀ : Deployment ρ) (ids : List Int) :
    SteadyAll plan d₀ (ids.map fun id => { comparison := plan, id }) := by
  cases ids with
  | nil => exact .nil
  | cons id rest => exact .cons ⟨by simp [Lookup.Steady], by simp [Lookup.Steady],
      Nat.zero_lt_succ _⟩ rfl

/-- What checks that are made one after the other have yet to report. -/
def owedAll (d₀ : Deployment ρ) (cs : List (RowCheck ρ)) : List Report := cs.flatMap (owed d₀)

/-- How many moves checks that are made one after the other may have yet to make. -/
def weightAll : List (RowCheck ρ) → Nat
  | [] => 0
  | c :: cs => c.weight + 1 + weightAll cs

theorem SteadyAll.move {plan : Comparison} {cs cs' : List (RowCheck ρ)} {now : Nat}
    (h : SteadyAll plan d₀ cs)
    (ho : d₀.Owes plan.callLimit plan.topic reports d (owedAll d₀ cs))
    (hm : stepAll () ⟨now, false⟩ d cs = some (d', cs')) :
    SteadyAll plan d₀ cs' ∧ d₀.Owes plan.callLimit plan.topic reports d' (owedAll d₀ cs') ∧
      weightAll cs' < weightAll cs := by
  cases h with
  | nil => cases hm
  | @cons c ids hc hplan =>
    simp only [stepAll] at hm
    split at hm
    · next hr =>
      cases hm
      refine ⟨steadyAll_start plan d₀ ids, ?_, ?_⟩
      · have : c.owed d₀ = [] := by rw [owed, phase_of_result? hr]
        simpa [owedAll, this] using ho
      · simp only [weightAll]
        omega
    · cases hm
    · next hr =>
      obtain ⟨⟨e, c'⟩, hstep, heq⟩ := Option.map_eq_some_iff.mp hm
      cases heq
      obtain ⟨h1, h2, h3, h4⟩ := hc.move ho (by rw [hplan]) (by rw [hplan]) hstep
      refine ⟨.cons h1 (h4.trans hplan), h3, ?_⟩
      simp only [weightAll]
      omega

/-- Checks made one after the other report the differences under their ids, and nothing else. -/
theorem concludes {plan : Comparison} (hp : d₀.Prompt plan.callLimit) (ids : List Int) :
    Deployment.Concludes plan.callLimit stepAll resultAll? d₀
      (ids.map fun id => { comparison := plan, id })
      (d₀.Published plan.topic (ids.flatMap (verdict plan d₀))) := by
  refine .of_invariant
    (fun d cs => SteadyAll plan d₀ cs ∧ d₀.Owes plan.callLimit plan.topic
      (ids.flatMap (verdict plan d₀)) d (owedAll d₀ cs)) weightAll ?_ ?_ ?_ ?_ ?_
  · refine ⟨steadyAll_start plan d₀ ids, .start hp (.of_eq ?_)⟩
    rw [owedAll, List.flatMap_map]
    rfl
  · exact fun ⟨hs, ho⟩ hr => ⟨hs, ho.alike hr.alike (hr.prompt ho.prompt)⟩
  · intro _ now d cs d' cs' ⟨hs, ho⟩ hm
    obtain ⟨h1, h2, h3⟩ := hs.move ho hm
    exact ⟨⟨h1, h2⟩, h3⟩
  · intro d cs ⟨hs, ho⟩ hr
    cases hs with
    | nil => cases hr
    | @cons c ids hc hplan =>
      cases hres : c.result? with
      | none =>
        obtain ⟨t, ht⟩ := hc.step_isSome (d := d) hres
        refine ⟨(), t, fun now hnow => ?_⟩
        simp only [stepAll, hres, Option.isSome_map]
        exact ht now hnow
      | some r =>
        cases r with
        | ok _ => exact ⟨(), 0, fun now _ => by simp [stepAll, hres]⟩
        | error e => simp [resultAll?, hres] at hr
  · intro d cs r ⟨hs, ho⟩ hr
    cases hs with
    | nil =>
      cases hr
      exact ⟨rfl, ho.published⟩
    | @cons c ids hc hplan =>
      simp only [resultAll?] at hr
      split at hr
      · next hres =>
        rw [Steady, phase_of_result? hres] at hc
        cases hc
      · cases hr

end RowCheck

/-! ## Scans and checks -/

/-- Whether a report is right about rows that are compared. -/
def Report.IsRight (base target : List ρ) (r : Report) : Prop :=
  match r.kind with
  | .targetMissing => r.id ∈ base.map Entity.id ∧ r.id ∉ target.map Entity.id
  | .baseMissing => r.id ∉ base.map Entity.id ∧ r.id ∈ target.map Entity.id
  | .differs => ∃ b ∈ base, ∃ t ∈ target,
      Entity.id b = r.id ∧ Entity.id t = r.id ∧ Entity.agrees b t = false

theorem Report.isRight_iff {base target : List ρ} (hb : Rows.Distinct base)
    (ht : Rows.Distinct target) (r : Report) :
    r.IsRight base target ↔
      Mismatch.between (Rows.first? r.id base) (Rows.first? r.id target) = some r.kind := by
  obtain ⟨id, side, kind⟩ := r
  cases kind with
  | targetMissing | baseMissing =>
    simp only [IsRight, ← Rows.first?_isSome_iff]
    cases Rows.first? id base <;> cases Rows.first? id target <;> simp [Mismatch.between]
  | differs =>
    constructor
    · rintro ⟨b, hbm, t, htm, hbid, htid, hne⟩
      rw [(Rows.first?_eq_some_iff hb).mpr ⟨hbm, hbid⟩,
        (Rows.first?_eq_some_iff ht).mpr ⟨htm, htid⟩]
      simp [Mismatch.between, hne]
    · intro h
      cases hfb : Rows.first? id base with
      | none =>
        rw [hfb] at h
        cases hft : Rows.first? id target <;> simp [hft, Mismatch.between] at h
      | some b =>
        cases hft : Rows.first? id target with
        | none => simp [hfb, hft, Mismatch.between] at h
        | some t =>
          obtain ⟨hbm, hbid⟩ := Rows.mem_of_first? hfb
          obtain ⟨htm, htid⟩ := Rows.mem_of_first? hft
          refine ⟨b, hbm, t, htm, hbid, htid, ?_⟩
          simpa [hfb, hft, Mismatch.between] using h

theorem RowCheck.mem_verdict {c : Comparison} {d₀ : Deployment ρ} {id : Int} {r : Report} :
    r ∈ verdict c d₀ id ↔ r.id = id ∧ r.base = c.tag ∧
      Mismatch.between (Rows.first? id (d₀.store c.base).rows)
        (Rows.first? id (d₀.store c.target).rows) = some r.kind := by
  obtain ⟨rid, side, kind⟩ := r
  simp only [verdict, List.mem_map, Option.mem_toList, Comparison.report, Report.mk.injEq]
  constructor
  · rintro ⟨k, hk, rfl, rfl, rfl⟩
    exact ⟨rfl, rfl, hk⟩
  · rintro ⟨rfl, rfl, hk⟩
    exact ⟨kind, hk, rfl, rfl, rfl⟩

theorem RowCheck.nodup_verdicts (c : Comparison) (d₀ : Deployment ρ) {ids : List Int}
    (h : ids.Nodup) : (ids.flatMap (verdict c d₀)).Nodup := by
  refine List.nodup_flatMap.mpr ⟨fun id _ => ?_, h.imp fun {a b} hab r hra hrb => ?_⟩
  · unfold verdict
    cases Mismatch.between (Rows.first? id (d₀.store c.base).rows)
      (Rows.first? id (d₀.store c.target).rows) <;> simp
  · exact hab ((mem_verdict.mp hra).1.symm.trans (mem_verdict.mp hrb).1)

theorem Deployment.Published.perm {d₀ d : Deployment ρ} {topic : String}
    {reports reports' : List Report} (h : d₀.Published topic reports d)
    (hperm : reports.Perm reports') : d₀.Published topic reports' d := by
  obtain ⟨published, hp, hlog⟩ := h.log
  exact ⟨h.contents, ⟨published, hp.trans hperm, hlog⟩, h.others⟩

namespace Scan

variable {plan : Plan} {d₀ : Deployment ρ}

theorem mem_allReports (hs : Sound plan d₀) {r : Report} :
    r ∈ plan.allReports d₀ ↔ r.base = plan.tag ∧
      r.IsRight (d₀.store plan.base).rows (d₀.store plan.target).rows := by
  rw [Report.isRight_iff (hs.distinct _) (hs.distinct _),
    ← mem_differences (hs.distinct _) (hs.distinct _)]
  obtain ⟨id, side, kind⟩ := r
  simp only [Plan.allReports, Plan.reports, List.mem_map, Comparison.report, Report.mk.injEq]
  constructor
  · rintro ⟨x, hx, rfl, rfl, rfl⟩
    exact ⟨rfl, hx⟩
  · rintro ⟨rfl, hx⟩
    exact ⟨(id, kind), hx, rfl, rfl, rfl⟩

theorem nodup_allReports (hs : Sound plan d₀) : (plan.allReports d₀).Nodup := by
  refine (nodup_differences (hs.distinct _) (hs.distinct _)).map fun x y hxy => ?_
  obtain ⟨hid, -, hkind⟩ := Report.mk.inj hxy
  exact Prod.ext hid hkind

/-- The checks of all ids report what a scan reports. -/
theorem verdicts_perm (hs : Sound plan d₀) {ids : List Int} (hnodup : ids.Nodup)
    (hids : ∀ id, id ∈ ids ↔ ∃ side, id ∈ (d₀.store side).rows.map Entity.id) :
    (ids.flatMap (RowCheck.verdict plan.toComparison d₀)).Perm (plan.allReports d₀) := by
  refine (List.perm_ext_iff_of_nodup (RowCheck.nodup_verdicts _ _ hnodup)
    (nodup_allReports hs)).mpr fun r => ?_
  rw [mem_allReports hs, Report.isRight_iff (hs.distinct _) (hs.distinct _), List.mem_flatMap]
  constructor
  · rintro ⟨id, -, hr⟩
    obtain ⟨rfl, htag, hk⟩ := RowCheck.mem_verdict.mp hr
    exact ⟨htag, hk⟩
  · rintro ⟨htag, hk⟩
    refine ⟨r.id, (hids _).mpr ?_, RowCheck.mem_verdict.mpr ⟨rfl, htag, hk⟩⟩
    -- an id that neither store has makes no mismatch
    cases hfb : Rows.first? r.id (d₀.store plan.base).rows with
    | some b => exact ⟨_, Rows.first?_isSome_iff.mp (by rw [hfb]; rfl)⟩
    | none =>
      cases hft : Rows.first? r.id (d₀.store plan.target).rows with
      | some t => exact ⟨_, Rows.first?_isSome_iff.mp (by rw [hft]; rfl)⟩
      | none => simp [hfb, hft, Mismatch.between] at hk

/-- A scan and the checks of all ids of both stores report the same: each difference of the stores
once. -/
theorem scan_reports_as_checks (hs : Sound plan d₀) (hbatch : 0 < plan.batch)
    (hmode : plan.mode = .oneShot) (hsince : plan.since = none) :
    ∃ reports : List Report, reports.Nodup ∧
      (∀ r, r ∈ reports ↔ r.base = plan.tag ∧
        r.IsRight (d₀.store plan.base).rows (d₀.store plan.target).rows) ∧
      Deployment.Concludes plan.callLimit stepWay result? d₀ { plan }
        (d₀.Published plan.topic reports) ∧
      ∀ ids : List Int, ids.Nodup →
        (∀ id, id ∈ ids ↔ ∃ side, id ∈ (d₀.store side).rows.map Entity.id) →
        Deployment.Concludes plan.callLimit RowCheck.stepAll RowCheck.resultAll? d₀
          (ids.map fun id => { comparison := plan.toComparison, id })
          (d₀.Published plan.topic reports) := by
  refine ⟨plan.allReports d₀, nodup_allReports hs, fun r => mem_allReports hs,
    concludes hs hbatch hmode hsince, fun ids hnodup hids => ?_⟩
  exact (RowCheck.concludes hs.prompt ids).mono fun d hd => hd.perm (verdicts_perm hs hnodup hids)

theorem sound_ofRows (plan : Plan) {src dst : List ρ} (policy : Policy)
    (hsrc : (Table.empty.insertAll src).rows.length < UInt64.size)
    (hdst : (Table.empty.insertAll dst).rows.length < UInt64.size) :
    Sound plan (.ofRows src dst policy) where
  prompt := Deployment.prompt_ofRows src dst policy _
  distinct side := by cases side <;> exact Table.distinct _
  size side := by cases side; exacts [hsrc, hdst]

/-- Two stores that differ in each of the ways in which stores can differ. -/
def sampleSite : Deployment Account :=
  .ofRows [⟨1, "alice", 10, 0⟩, ⟨2, "bob", 20, 0⟩, ⟨3, "carol", 30, 0⟩]
    [⟨2, "bob", 21, 0⟩, ⟨3, "carol", 30, 0⟩, ⟨4, "dave", 40, 0⟩] .srcOnly

/-- The plan of a scan with pages of two rows. -/
def samplePlan : Plan := .ofSide { batchSize := 2 } .src none .oneShot

theorem scan_reports_as_checks_sample :
    Sound samplePlan sampleSite ∧
      ∃ reports : List Report, reports.Nodup ∧
        (∀ r, r ∈ reports ↔ r.base = .src ∧
          r.IsRight (sampleSite.store .src).rows (sampleSite.store .dst).rows) ∧
        Deployment.Concludes 1000 stepWay result? sampleSite { plan := samplePlan }
          (sampleSite.Published "migrator_inconsistent" reports) ∧
        Deployment.Concludes 1000 RowCheck.stepAll RowCheck.resultAll? sampleSite
          ([1, 2, 3, 4].map fun id => { comparison := samplePlan.toComparison, id })
          (sampleSite.Published "migrator_inconsistent" reports) := by
  have hs : Sound samplePlan sampleSite := sound_ofRows _ _ (by decide) (by decide)
  obtain ⟨reports, hnodup, hmem, hscan, hchecks⟩ :=
    scan_reports_as_checks hs (by decide) rfl rfl
  have hsrc : (sampleSite.store .src).rows.map Entity.id = [1, 2, 3] := rfl
  have hdst : (sampleSite.store .dst).rows.map Entity.id = [2, 3, 4] := rfl
  refine ⟨hs, reports, hnodup, hmem, hscan, hchecks _ (by decide) fun id => ?_⟩
  constructor
  · intro h
    rcases List.mem_cons.mp h with rfl | h
    · exact ⟨.src, by rw [hsrc]; decide⟩
    · exact ⟨.dst, by rwa [hdst]⟩
  · rintro ⟨side, h⟩
    cases side with
    | src => exact (by decide : ([1, 2, 3] : List Int) ⊆ [1, 2, 3, 4]) (hsrc ▸ h)
    | dst => exact List.mem_cons_of_mem _ (hdst ▸ h)

end Scan

end Cutover
