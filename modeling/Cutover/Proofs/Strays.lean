import Cutover.Proofs.Stages

/-!
# Rows that a scan passes over

When rows before it are taken out, a row of the target may move to a page that was read, and then
the scan passes it over. A schedule that does so has three stages: rows of the base are put into the
target until their number is the wrong one (`Stage.Rests.fill`), the pages before such a row are
read and repaired (`Stage.Rests.skip`), and the scan goes on to its end (`Stage.Rests.leave`). Main
statement: the repairs make the stores agree under every schedule exactly if no row can move so
(`Migration.overlap_agrees_iff`).
-/

namespace Cutover

variable {ρ : Type} [Entity ρ]

/-! ## A schedule that leaves a row behind -/

/-- What grows by no more than one at a time takes every value in between. -/
private theorem exists_eq_of_steps {f : Nat → Nat} {n k : Nat} (hstart : f 0 ≤ n) (hend : n ≤ f k)
    (hstep : ∀ i, f (i + 1) ≤ f i + 1) : ∃ i ≤ k, f i = n := by
  induction k with
  | zero => exact ⟨0, Nat.le_refl 0, Nat.le_antisymm hstart hend⟩
  | succ k ih =>
    by_cases hk : n ≤ f k
    · obtain ⟨i, hi, heq⟩ := ih hk
      exact ⟨i, Nat.le_succ_of_le hi, heq⟩
    · have := hstep k
      exact ⟨k + 1, Nat.le_refl _, by omega⟩

namespace Scan

theorem Way.isSome_of_mem_forth {b : Table ρ} {others : List ρ} {x : Int × Mismatch}
    (h : x ∈ Way.baseToTarget.differences others b.rows) : (b.get? x.1).isSome := by
  obtain ⟨r, hr, hid⟩ := List.mem_map.mp (Way.mem_ids_of_mem h)
  rw [← hid, Table.get?_of_mem hr]
  rfl

theorem Way.eq_none_of_mem_back {b : Table ρ} {rows : List ρ} {x : Int × Mismatch}
    (h : x ∈ Way.targetToBase.differences b.rows rows) : b.get? x.1 = none := by
  obtain ⟨r, -, hv⟩ := Way.mem_differences.mp h
  rw [Way.id_of_mem_verdict hv]
  unfold Way.verdict at hv
  split at hv
  · contradiction
  · next hnone => exact (b.get?_eq_first? _).trans hnone
  · cases hv

end Scan

namespace Table

variable {b t : Table ρ}

/-- Mended under some of the first differences, a table has any number of rows of the base before
`x` between those that it has and those that the base has. -/
theorem exists_shared_mendAll {x : Int} {n : Nat} (hle : b.shared t x ≤ n) (hn : n ≤ b.rank x) :
    ∃ k ≤ (Scan.Way.baseToTarget.differences t.rows b.rows).length, b.shared (b.mendAll
      (((Scan.Way.baseToTarget.differences t.rows b.rows).take k).map Prod.fst) t) x = n := by
  generalize hfound : Scan.Way.baseToTarget.differences t.rows b.rows = found
  refine exists_eq_of_steps (f := fun k => b.shared (b.mendAll ((found.take k).map Prod.fst) t) x)
    (by simpa [mendAll] using hle)
      (Nat.le_trans hn (rank_le_shared (fun id hid => ?_) x)) fun k => ?_
  · -- each row of the base is in the table, or is found to be missing
    rw [List.take_length, get?_mendAll]
    split
    · exact hid
    · next hnot =>
      obtain ⟨r, hr⟩ := Option.isSome_iff_exists.mp hid
      obtain ⟨hrow, rfl⟩ := get?_eq_some_iff.mp hr
      cases ht : t.get? (Entity.id r) with
      | some s => rfl
      | none =>
        refine absurd ?_ hnot
        rw [← hfound]
        refine List.mem_map.mpr ⟨(Entity.id r, .targetMissing),
          Scan.Way.mem_differences.mpr ⟨r, hrow, ?_⟩, rfl⟩
        have hnone : Rows.first? (Entity.id r) t.rows = none := (t.get?_eq_first? _).symm.trans ht
        simp [Scan.Way.verdict, hnone, Mismatch.between]
  · rw [List.take_add_one, List.map_append]
    cases found[k]? with
    | none => simp
    | some y =>
      have heq : b.mendAll ((found.take k).map Prod.fst ++ [y.1]) t =
          b.mend y.1 (b.mendAll ((found.take k).map Prod.fst) t) := by simp [mendAll]
      simp only [Option.toList_some, List.map_cons, List.map_nil, heq]
      exact shared_mend_le ..

end Table

namespace Stage

variable {plan : Scan.Plan} {group : String} {b t₀ : Table ρ} {g : Stage ρ} {m : Migration ρ}

section

variable (hplan : plan.IsFull) (hrefl : ∀ r : ρ, Entity.agrees r r = true)
  (hsmall : ∀ id, b.Differs t₀ id → IsSmall id)
  (hsize : b.rows.length + t₀.rows.length < UInt64.size)
include hplan hrefl hsmall hsize

/-- A pass runs to its end, and what it has found is repaired. -/
theorem Rests.finish (h : g.Rests plan group b t₀ m) (way : Scan.Way) {rows others : List ρ}
    (hrows : rows = (way.reads b g.target).rows) (hothers : others = (way.consults b g.target).rows)
    (hsteady : (g.scan.pass way).Steady plan rows)
    (hlength : g.reports.length + ((g.scan.pass way).pending others rows).length < UInt64.size) :
    ∃ (p : Scan.Pass ρ) (g' : Stage ρ) (m' : Migration ρ), m.Reaches plan m' ∧
      g'.Rests plan group b t₀ m' ∧ g'.scan = g.scan.setPass p way ∧ p.result? = some (.ok ()) ∧
      g'.reports.length = g.reports.length + ((g.scan.pass way).pending others rows).length ∧
      g'.target = b.mendAll (((g.scan.pass way).pending others rows).map Prod.fst) g.target := by
  obtain ⟨p, m₁, hreaches, hholds, hdone⟩ :=
    h.holds.run_end hplan hrefl hsmall hsize way hrows hothers hsteady
  obtain ⟨g', m₂, hreaches', hrests, hscan, hreports, htarget⟩ := h.drain hholds hlength
  exact ⟨p, g', m₂, hreaches.trans hreaches', hrests, hscan, hdone, hreports, htarget⟩

/-- The pass through the base is stopped when some number of rows of the base are before `x`. -/
theorem Rests.fill (h : g.Rests plan group b t₀ m) (htarget : g.target = t₀)
    (hstart : g.scan.pass .baseToTarget = { way := .baseToTarget }) (hreports : g.reports = [])
    {x : Int} {n : Nat} (hle : b.shared t₀ x ≤ n) (hn : n ≤ b.rank x) :
    ∃ (p : Scan.Pass ρ) (g' : Stage ρ) (m' : Migration ρ), m.Reaches plan m' ∧
      g'.Rests plan group b t₀ m' ∧ g'.scan = g.scan.setPass p .baseToTarget ∧
      p.Steady plan b.rows ∧ (p.pending t₀.rows b.rows).length ≤ b.rows.length ∧
      g'.reports.length ≤ b.rows.length ∧ b.shared g'.target x = n ∧
      ∀ id, b.get? id = none → g'.target.get? id = t₀.get? id := by
  obtain ⟨k, hk, hshared⟩ := Table.exists_shared_mendAll hle hn
  have hpending : (g.scan.pass .baseToTarget).pending t₀.rows b.rows =
      Scan.Way.baseToTarget.differences t₀.rows b.rows := by
    simp only [hstart, Scan.Pass.pending, List.drop_zero]
  have hfound := Scan.Way.length_differences_le .baseToTarget t₀.rows b.rows
  obtain ⟨p, m₁, hreaches, hholds, hsteady, hdrop⟩ := h.holds.run_length hplan hrefl hsmall hsize
    .baseToTarget (rfl : b.rows = _) (by rw [htarget]; rfl : t₀.rows = _)
    (by rw [hstart]; exact ⟨Nat.two_pow_pos 64, by simp, trivial⟩) (hpending ▸ hk)
  rw [hpending] at hholds hdrop
  have htake : ((Scan.Way.baseToTarget.differences t₀.rows b.rows).take k).length ≤ b.rows.length :=
    Nat.le_trans (List.length_take_le' ..) hfound
  obtain ⟨g', m₂, hreaches', hrests, hscan, hlength, htarget'⟩ := h.drain hholds (by
    rw [hreports, List.length_nil]
    omega)
  rw [htarget] at htarget'
  refine ⟨p, g', m₂, hreaches.trans hreaches', hrests, hscan, hsteady, ?_, ?_, htarget' ▸ hshared,
    fun id hid => ?_⟩
  · rw [hdrop, List.length_drop]
    omega
  · rw [hlength, hreports, List.length_nil]
    omega
  · rw [htarget', Table.get?_mendAll_of_ne]
    rintro y hy rfl
    have := Scan.Way.isSome_of_mem_forth (List.mem_of_mem_take hy)
    simp [hid] at this

/-- When rows before `x` are taken out whose pages were read, a row that only the target has moves
to one of these pages. -/
theorem Rests.skip (h : g.Rests plan group b t₀ m)
    (hstart : g.scan.pass .targetToBase = { way := .targetToBase }) {x : Int}
    (hx : (g.target.get? x).isSome) (hb : b.get? x = none) {q : Nat} (hq : plan.batch ∣ q)
    (hshared : b.shared g.target x < q) (hrank : q ≤ g.target.rank x)
    (hlength : g.reports.length + g.target.rows.length < UInt64.size) :
    ∃ (p : Scan.Pass ρ) (g' : Stage ρ) (m' : Migration ρ) (y : Int), m.Reaches plan m' ∧
      g'.Rests plan group b t₀ m' ∧ g'.scan = g.scan.setPass p .targetToBase ∧
      p.phase = .reading ∧ p.offset = q ∧ (∀ f ∈ p.flight, f.Prompt) ∧
      g'.reports.length ≤ g.reports.length + g.target.rows.length ∧
      (g'.target.get? y).isSome ∧ b.get? y = none ∧ g'.target.rank y < q := by
  obtain ⟨r, hr⟩ := Option.isSome_iff_exists.mp hx
  obtain ⟨hrow, rfl⟩ := Table.get?_eq_some_iff.mp hr
  have hroom : q ≤ g.target.rows.length := Nat.le_of_lt (Nat.lt_of_le_of_lt hrank
    (Table.rank_lt_length hrow))
  obtain ⟨p, m₁, hreaches, hholds, hsteady, hph, hoffset⟩ :=
    h.holds.run_page hplan hrefl hsmall hsize
    .targetToBase (rfl : g.target.rows = _) (rfl : b.rows = _) hstart hq hroom
  generalize hfound : Scan.Way.targetToBase.differences b.rows (g.target.rows.take q) =
      found at hholds
  have hle : found.length ≤ g.target.rows.length :=
    hfound ▸ Nat.le_trans (Scan.Way.length_differences_le ..) (List.length_take_le' ..)
  obtain ⟨g', m₂, hreaches', hrests, hscan, hreports, htarget⟩ := h.drain hholds (by omega)
  -- `x` itself was not read, and so it stays
  have hkept : (g'.target.get? (Entity.id r)).isSome := by
    rw [htarget, Table.get?_mendAll_of_ne, hr]
    · rfl
    · intro z hz hzid
      obtain ⟨s, hs, hsid⟩ := List.mem_map.mp (Scan.Way.mem_ids_of_mem (hfound ▸ hz))
      have := Table.rank_lt_of_mem_take hs
      rw [hsid, hzid] at this
      omega
  obtain ⟨y, hyx, hy, hyb, hextra⟩ := Table.exists_extra_eq_zero hkept hb
  refine ⟨p, g', m₂, y, hreaches.trans hreaches', hrests, hscan, hph, hoffset, hsteady.prompt,
    by omega, hy, hyb, ?_⟩
  calc g'.target.rank y = b.shared g'.target y := by rw [Table.rank_eq b, hextra, Nat.add_zero]
    _ ≤ b.shared g'.target (Entity.id r) := Table.shared_mono hyx ..
    _ ≤ b.shared g.target (Entity.id r) := by
        refine Table.shared_le (fun id hid hsome => ?_) _
        rw [htarget, Table.get?_mendAll_of_ne] at hsome
        · exact hsome
        · rintro z hz rfl
          rw [Scan.Way.eq_none_of_mem_back (hfound ▸ hz)] at hid
          cases hid
    _ < q := hshared

/-- When the pass through the target has read beyond the place of a row that only the target has,
the scan ends and leaves the row behind. -/
theorem Rests.leave (h : g.Rests plan group b t₀ m)
    (hback : (g.scan.pass .targetToBase).Steady plan g.target.rows)
    (hph : (g.scan.pass .targetToBase).phase = .reading) {y : Int}
    (hrank : g.target.rank y < (g.scan.pass .targetToBase).offset)
    (hforth : (g.scan.pass .baseToTarget).Steady plan b.rows) (hy : (g.target.get? y).isSome)
    (hb : b.get? y = none)
    (hlength : g.reports.length + g.target.rows.length +
      ((g.scan.pass .baseToTarget).pending t₀.rows b.rows).length + b.rows.length < UInt64.size) :
    ∃ (g' : Stage ρ) (m' : Migration ρ), m.Reaches plan m' ∧ g'.Rests plan group b t₀ m' ∧
      g'.scan.result? = some (.ok ()) ∧ (g'.target.get? y).isSome := by
  have hway := (h.holds.passes .targetToBase).1
  have hbehind : (g.scan.pass .targetToBase).pending b.rows g.target.rows =
      Scan.Way.targetToBase.differences b.rows
        (g.target.rows.drop (g.scan.pass .targetToBase).offset) := by
    simp only [Scan.Pass.pending, hph, hway]
  have hfound := Scan.Way.length_differences_le .targetToBase b.rows
    (g.target.rows.drop (g.scan.pass .targetToBase).offset)
  rw [List.length_drop] at hfound
  -- the pass through the target reads on behind the row
  obtain ⟨pb, g₁, m₁, hreaches₁, h₁, hscan₁, hdoneb, hreports₁, htarget₁⟩ :=
    h.finish hplan hrefl hsmall hsize .targetToBase (rfl : g.target.rows = _)
      (rfl : b.rows = _) hback
      (by rw [hbehind]; omega)
  rw [hbehind] at hreports₁ htarget₁
  have hy₁ : (g₁.target.get? y).isSome := by
    rwa [htarget₁, Table.get?_mendAll_of_ne]
    intro z hz hzy
    obtain ⟨s, hs, hsid⟩ := List.mem_map.mp (Scan.Way.mem_ids_of_mem hz)
    have := Table.le_rank_of_mem_drop hs
    rw [hsid, hzy] at this
    omega
  -- the pass through the base reports ids of the base
  have hpassf : g₁.scan.pass .baseToTarget = g.scan.pass .baseToTarget := by
    rw [hscan₁, Scan.pass_setPass, if_neg (by decide)]
  have hrest := hforth.length_pending_le t₀.rows g₁.target.rows
  obtain ⟨pf, g₂, m₂, hreaches₂, h₂, hscan₂, hdonef, -, htarget₂⟩ :=
    h₁.finish hplan hrefl hsmall hsize .baseToTarget (rfl : b.rows = _) (rfl : g₁.target.rows = _)
      (hpassf ▸ hforth) (by rw [hpassf]; omega)
  have hy₂ : (g₂.target.get? y).isSome := by
    rwa [htarget₂, Table.get?_mendAll_of_ne]
    rintro z hz rfl
    obtain ⟨hway, hcompares⟩ := h₁.holds.passes .baseToTarget
    have := hcompares.isSome_of_mem_pending hway hz
    simp [hb] at this
  refine ⟨g₂, m₂, hreaches₁.trans hreaches₂, h₂, ?_, hy₂⟩
  have hf : g₂.scan.forth.result? = some (.ok ()) := by
    have : g₂.scan.pass .baseToTarget = pf := by rw [hscan₂, Scan.pass_setPass, if_pos rfl]
    rw [← hdonef, ← this]
    rfl
  have hb : g₂.scan.back.result? = some (.ok ()) := by
    have : g₂.scan.pass .targetToBase = pb := by
      rw [hscan₂, Scan.pass_setPass, if_neg (by decide), hscan₁, Scan.pass_setPass, if_pos rfl]
    rw [← hdoneb, ← this]
    rfl
  have hbroken := Scan.isBroken_eq_false_iff.mpr h₂.holds.unbroken
  simp [Scan.result?, hf, hb, hbroken]

end

/-- A row that only the target has is left behind, if the others before it can decide on which page
a row is. -/
theorem Rests.exists_stray (hplan : plan.IsFull) (hrefl : ∀ r : ρ, Entity.agrees r r = true)
    (hsmall : ∀ id, b.Differs t₀ id → IsSmall id)
    (hsize : 8 * (b.rows.length + t₀.rows.length) ≤ UInt64.size) (h : g.Rests plan group b t₀ m)
    (htarget : g.target = t₀) (hstart : ∀ way, g.scan.pass way = { way })
    (hreports : g.reports = [])
    {x : Int} {n : Nat} (hx : (t₀.get? x).isSome) (hb : b.get? x = none) (hle : b.shared t₀ x ≤ n)
    (hn : n ≤ b.rank x) (hpage : (n + b.extra t₀ x) / plan.batch ≠ n / plan.batch) :
    ∃ (g' : Stage ρ) (m' : Migration ρ) (y : Int), m.Reaches plan m' ∧
      g'.Rests plan group b t₀ m' ∧ g'.scan.result? = some (.ok ()) ∧ (g'.target.get? y).isSome ∧
      b.get? y = none := by
  have hpos : 0 < UInt64.size := Nat.two_pow_pos 64
  have hsize' : b.rows.length + t₀.rows.length < UInt64.size := by omega
  obtain ⟨pf, g₁, m₁, hreaches₁, h₁, hscan₁, hforth, hpending, hreports₁, hshared, hextra⟩ :=
    h.fill hplan hrefl hsmall hsize' htarget (hstart _) hreports hle hn
  have hlength₁ := h₁.holds.origin.length_le
  -- the first page whose offset is behind all rows of the base before `x`
  obtain ⟨q, hdvd, hlt, hrank⟩ : ∃ q, plan.batch ∣ q ∧ n < q ∧ q ≤ g₁.target.rank x := by
    have hgrow : n / plan.batch < (n + b.extra t₀ x) / plan.batch :=
      Nat.lt_of_le_of_ne (Nat.div_le_div_right (Nat.le_add_right ..)) hpage.symm
    refine ⟨(n + b.extra t₀ x) / plan.batch * plan.batch, Nat.dvd_mul_left .., ?_, ?_⟩
    · exact (Nat.div_lt_iff_lt_mul hplan.batch).mp hgrow
    · refine Nat.le_trans (Nat.div_mul_le_self ..) ?_
      rw [Table.rank_eq b, hshared]
      refine Nat.add_le_add_left (Table.extra_le (fun id hid hsome => ?_) x) n
      rwa [hextra id hid]
  obtain ⟨pb, g₂, m₂, y, hreaches₂, h₂, hscan₂, hph, hoffset, hflight, hreports₂, hy, hyb, hyq⟩ :=
    h₁.skip hplan hrefl hsmall hsize'
      (by rw [hscan₁, Scan.pass_setPass, if_neg (by decide), hstart])
      (x := x) (by rwa [hextra x hb]) hb hdvd (by rwa [hshared]) hrank (by omega)
  have hlength₂ := h₂.holds.origin.length_le
  have hpassb : g₂.scan.pass .targetToBase = pb := by rw [hscan₂, Scan.pass_setPass, if_pos rfl]
  have hpassf : g₂.scan.pass .baseToTarget = pf := by
    rw [hscan₂, Scan.pass_setPass, if_neg (by decide), hscan₁, Scan.pass_setPass, if_pos rfl]
  have hq : q < UInt64.size := by
    have : g₁.target.rank x ≤ g₁.target.rows.length := List.countP_le_length
    omega
  obtain ⟨g₃, m₃, hreaches₃, h₃, hdone, hleft⟩ := h₂.leave hplan hrefl hsmall hsize'
    (by rw [hpassb]; exact ⟨hoffset ▸ hq, hflight, by simp only [hph]⟩) (hpassb ▸ hph)
    (by rwa [hpassb, hoffset]) (hpassf ▸ hforth) hy hyb (by rw [hpassf]; omega)
  exact ⟨g₃, m₃, y, hreaches₁.trans (hreaches₂.trans hreaches₃), h₃, hdone, hleft, hyb⟩

end Stage

namespace Migration

section

variable {config : Config} {src dst : List ρ} {policy : Policy} {b t₀ : Table ρ}

/-- The consumer that starts with a scan. -/
def fixerJoins (config : Config) : Happening ρ :=
  .join .fixer config.fixGroup config.inconsistencyTopic config.fixTimeout.ticks
    config.redeliveryBackoff.ticks false

/-- When a scan and a consumer have started, and nothing has happened yet. -/
theorem rests_start (config : Config)
    (hb : ((Deployment.ofRows src dst policy).store policy.primary).contents = .table b)
    (ht : ((Deployment.ofRows src dst policy).store policy.primary.other).contents = .table t₀) :
    ∃ g : Stage ρ, g.Rests (ofRows config src dst policy).fullPlan config.fixGroup b t₀
        ((ofRows config src dst policy).startFull.perform (fixerJoins config)) ∧
      g.target = t₀ ∧ (∀ way, g.scan.pass way = { way }) ∧ g.reports = [] := by
  refine ⟨{
    target := t₀
    scan := { plan := (ofRows config src dst policy).fullPlan }
    reports := []
    consumer := {
      subscription := ⟨config.fixGroup, config.inconsistencyTopic, 0⟩
      handler := .fixer
      limit := config.fixTimeout.ticks
      backoff := config.redeliveryBackoff.ticks }
    committed := 0 },
    ⟨⟨(mending_ofRows config hb ht).tables, .refl b t₀, Deployment.prompt_ofRows .., fun op => rfl,
      rfl, by simp, rfl, rfl, jobs_startFull config src dst policy, rfl, fun way => ?_,
      fun way r hr => ?_, fun way => ?_⟩, ⟨rfl, rfl, rfl, rfl⟩, rfl⟩, rfl, fun way => ?_, rfl⟩
  · cases way <;> exact ⟨rfl, trivial⟩
  · cases way <;> cases hr
  · cases way <;> exact Scan.Pass.isBroken_eq_false_iff.mpr (Nat.two_pow_pos 64)
  · cases way <;> rfl

/-- The repairs make the stores agree, whatever the schedule, exactly if the rows that only the
target has cannot decide on which page one of them is. -/
theorem overlap_agrees_iff (hrefl : ∀ r : ρ, Entity.agrees r r = true)
    (hvalid : config.validate = .ok ())
    (hb : ((Deployment.ofRows src dst policy).store policy.primary).contents = .table b)
    (ht : ((Deployment.ofRows src dst policy).store policy.primary.other).contents = .table t₀)
    (hsize : 8 * (b.rows.length + t₀.rows.length) ≤ UInt64.size)
    (hsmall : ∀ id, b.Differs t₀ id → IsSmall id) :
    (∀ history m, Overlap config history →
        m = (ofRows config src dst policy).startFull.after history → Exhausted config m →
        m.site.Agree policy.primary) ↔
      Table.KeepsPages config.batchSize b t₀ := by
  have hpos : 0 < UInt64.size := Nat.two_pow_pos 64
  constructor
  · intro hagree r hr hnone n hn hle
    refine Classical.not_not.mp fun hpage => ?_
    have hplan : (ofRows config src dst policy).fullPlan.IsFull :=
      ⟨rfl, rfl, Config.batchSize_pos hvalid, rfl⟩
    obtain ⟨g, hrests, htarget, hstart, hreports⟩ := rests_start config hb ht
    obtain ⟨g', m, y, ⟨history, hhistory, hm⟩, hend, hdone, hy, hyb⟩ :=
      hrests.exists_stray hplan hrefl hsmall hsize htarget hstart hreports
        (by rw [Table.get?_of_mem hr]; rfl) hnone hle hn hpage
    have hoverlap : Overlap config (fixerJoins config :: history) :=
      List.forall_mem_cons.mpr ⟨⟨⟨rfl, rfl⟩, trivial⟩, hhistory⟩
    have hexhausted : Exhausted config m := by
      refine ⟨?_, ?_⟩
      · simp [Scheduler.jobStatus?, hend.holds.jobs, Job.isFinished, Scan.isOver_of_result? hdone]
      · have hlog := hend.holds.log
        refine hend.holds.committed.trans (hend.all.trans ?_)
        exact ((congrArg List.length hlog).trans (List.length_map ..)).symm
    have := (hend.holds.tables.agree_iff.mp (hagree _ m hoverlap hm hexhausted)) y
    refine this ?_
    obtain ⟨s, hs⟩ := Option.isSome_iff_exists.mp hy
    simp [Table.Differs, hyb, hs, Mismatch.between]
  · intro hpages history m hhistory hm hend
    exact agree_of_keepsPages hrefl hvalid hb ht (by omega) hsmall hpages hhistory hm hend

end

/-- Rows of a target whose base is empty. -/
def sampleStrays : List Account :=
  [⟨1, "o1", 10, 1⟩, ⟨2, "o2", 20, 2⟩, ⟨3, "o3", 30, 3⟩, ⟨4, "o4", 40, 4⟩]

/-- The schedules decide on pages of one row, and not on pages that hold all rows. -/
theorem overlap_agrees_iff_sample :
    (∀ history m, Overlap {} history →
        m = (ofRows {} [] sampleStrays .srcOnly).startFull.after history → Exhausted {} m →
        m.site.Agree .src) ∧
      ¬ ∀ history m, Overlap { batchSize := 1 } history →
        m = (ofRows { batchSize := 1 } [] sampleStrays .srcOnly).startFull.after history →
        Exhausted { batchSize := 1 } m → m.site.Agree .src := by
  have hrefl (r : Account) : Entity.agrees r r = true := by simp [Entity.agrees]
  have hb : ((Deployment.ofRows [] sampleStrays .srcOnly).store .src).contents = .table .empty :=
    rfl
  have hsmall (id : Int) (h : Table.empty.Differs (Table.empty.insertAll sampleStrays) id) :
      IsSmall id :=
    isSmall_of_differs (fun side => by cases side <;> decide) hb rfl h
  refine ⟨(overlap_agrees_iff hrefl (by decide) rfl rfl (by decide) hsmall).mpr (by decide), ?_⟩
  exact mt (overlap_agrees_iff hrefl (by decide) rfl rfl (by decide) hsmall).mp (by decide)

/-- A scan and a consumer take turns for some milliseconds, while calls take some. -/
def sampleOverlap : List (Happening Account) :=
  [.plan .src { latency := 3 }, .plan .dst { latency := 7 }, .planBroker { latency := 2 },
    .join .fixer "migrator-fix" "migrator_inconsistent" 1000 100 false] ++
  (List.range 50).flatMap fun now => .time now ::
    (List.replicate 3 [.turn (.job 0 .baseToTarget), .turn (.job 0 .targetToBase),
      .turn (.consumer 0)]).flatten

theorem overlap_sampleOverlap : Overlap { batchSize := 1 } sampleOverlap := by
  intro x hx
  rcases List.mem_append.mp hx with hx | hx
  · simp only [List.mem_cons, List.not_mem_nil, or_false] at hx
    rcases hx with rfl | rfl | rfl | rfl
    · exact ⟨trivial, fun _ => rfl, by decide⟩
    · exact ⟨trivial, fun _ => rfl, by decide⟩
    · exact ⟨trivial, fun _ => rfl, by decide⟩
    · exact ⟨⟨rfl, rfl⟩, trivial⟩
  · obtain ⟨now, -, hx⟩ := List.mem_flatMap.mp hx
    rcases List.mem_cons.mp hx with rfl | hx
    · exact ⟨trivial, trivial⟩
    · obtain ⟨round, hround, hx⟩ := List.mem_flatten.mp hx
      rw [List.eq_of_mem_replicate hround] at hx
      simp only [List.mem_cons, List.not_mem_nil, or_false] at hx
      rcases hx with rfl | rfl | rfl <;> exact ⟨trivial, trivial⟩

/-- With pages of one row, the scan passes over the third of the rows. -/
theorem overlap_leaves_stray :
    let m := (ofRows { batchSize := 1 } [] sampleStrays .srcOnly).startFull.after sampleOverlap
    Overlap { batchSize := 1 } sampleOverlap ∧ Exhausted { batchSize := 1 } m ∧
      m.site.src.rows = [] ∧ m.site.dst.rows = [⟨3, "o3", 30, 3⟩] := by
  intro m
  exact ⟨overlap_sampleOverlap, ⟨by decide +kernel, by decide +kernel⟩, by decide +kernel,
    by decide +kernel⟩

end Migration

end Cutover
