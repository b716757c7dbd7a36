import Cutover.Proofs.Reads

/-!
# When offsets stay within 64 bits

A page that is read takes the offset of a direction to the end of its rows, while a page that cannot
be read takes it further by the size of a page, however far behind the last row it is. Nobody
writes, and stores and broker refuse what they like. If a direction gives up at the first page that
it leaves out, its offset stays within the rows; otherwise it stays within 64 bits only if the scan
goes through the rows once and there is room for the pages that may be left out in a row. To show
that there is no other way, a direction is led to any offset that it can come to (`Watch.Leads`).
Main statements: `Watch.unbroken_iff`, and a scan that breaks down (`Watch.unread_breaks`).
-/

namespace Cutover

variable {ρ : Type} [Entity ρ]

namespace Scan

/-! ## Offsets that stay within 64 bits -/

namespace Pass

/-- As many rows came with the page in hand as there are from the offset on, up to a full page. -/
def Fetched (plan : Plan) (rows : List ρ) (p : Pass ρ) : Prop :=
  match p.phase with
  | .comparing fetched _ | .reporting fetched _ _ _ =>
    fetched = ((rows.drop p.offset).take plan.batch).length
  | .reading | .pausing | .done _ => True

/-- What a move makes of the offset of a pass: nothing, or it takes it behind the rows of the page,
or it leaves the page out. -/
inductive Advances (plan : Plan) (rows : List ρ) (p p' : Pass ρ) : Prop where
  | stays : p'.Fetched plan rows → p'.offset = p.offset → Advances plan rows p p'
  | passes : p'.Fetched plan rows →
      p'.offset = p.offset + ((rows.drop p.offset).take plan.batch).length →
      Advances plan rows p p'
  | skips : p'.Fetched plan rows → p.phase = .reading → p.failures + 1 < plan.failureLimit →
      p'.offset = p.offset + plan.batch → Advances plan rows p p'

/-- A pass that gives up at the first page that it leaves out, or goes through the rows once and has
room for all pages that may be left out in a row. -/
def HasRoom (plan : Plan) (rows : List ρ) (p : Pass ρ) : Prop :=
  plan.failureLimit = 1 ∨ plan.Once ∧
    (rows.length / plan.batch + plan.failureLimit - 1) * plan.batch < UInt64.size ∧
    ∃ looked, p.Reads plan rows looked

/-- A pass with an offset of 64 bits that has room for the pages that may be left out in a row. -/
structure Within (plan : Plan) (rows : List ρ) (p : Pass ρ) : Prop where
  size : p.offset < UInt64.size
  fetched : p.Fetched plan rows
  room : p.HasRoom plan rows

variable {plan : Plan} {rows : List ρ} {fetched : Nat} {p p' : Pass ρ} {m : Moment}
  {d d' : Deployment ρ}

omit [Entity ρ] in
theorem advances_turn {q : Pass ρ} (hq : q.offset = p.offset)
    (h : fetched = ((rows.drop p.offset).take plan.batch).length) :
    p.Advances plan rows (q.turn plan fetched) := by
  refine .passes ?_ (by rw [offset_turn, hq, h])
  unfold turn
  cases plan.mode <;> split <;> exact trivial

omit [Entity ρ] in
theorem advances_reportAll (h : fetched = ((rows.drop p.offset).take plan.batch).length)
    (found : List (Int × Mismatch)) : p.Advances plan rows (p.reportAll plan fetched found) := by
  cases found with
  | nil => exact advances_turn (q := { p with failures := 0 }) rfl h
  | cons x rest => exact .stays h rfl

omit [Entity ρ] in
theorem advances_leaveOut {next : Pass ρ → Pass ρ}
    (h : p.failures + 1 < plan.failureLimit →
      p.Advances plan rows (next { p with failures := p.failures + 1 })) :
    p.Advances plan rows (p.leaveOut plan next) := by
  unfold leaveOut
  dsimp only
  split
  · exact .stays trivial rfl
  · next hlimit => exact h (Nat.not_le.mp hlimit)

theorem advances_of_step (h : p.Fetched plan rows) (hrows : plan.scanned d p.way = rows)
    (hstep : p.step plan m d = some (d', p')) : p.Advances plan rows p' := by
  have hm := fared_of_step hstep
  generalize p.reply? plan m d = reply at hm
  unfold Fetched at h
  cases hm with
  | begun => exact .stays h rfl
  | paged =>
    have hlength : (p.ahead plan d).length = ((rows.drop p.offset).take plan.batch).length := by
      rw [ahead, hrows]
    unfold afterPage
    dsimp only
    split
    · exact advances_reportAll hlength []
    · exact .stays hlength rfl
  | unread hph =>
    unfold afterPage
    dsimp only
    split
    · exact .stays trivial rfl
    · exact advances_leaveOut fun hlimit => .skips trivial hph hlimit rfl
  | compared hph =>
    simp only [hph] at h
    exact advances_reportAll h _
  | uncompared hph =>
    simp only [hph] at h
    unfold afterLookup
    dsimp only
    split
    · exact .stays trivial rfl
    · exact advances_leaveOut fun _ => advances_turn rfl h
  | reported hph | unreported hph =>
    simp only [hph] at h
    unfold afterReport
    split
    · exact .stays trivial rfl
    · exact advances_reportAll h _
  | rested | disturbed => exact .stays trivial rfl

theorem HasRoom.step (h : p.HasRoom plan rows) (hrows : plan.scanned d p.way = rows)
    (hstop : m.stopped = false) (hstep : p.step plan m d = some (d', p')) :
    p'.HasRoom plan rows := by
  refine h.imp_right ?_
  rintro ⟨hplan, hsize, looked, hreads⟩
  obtain ⟨looked', hreads', -⟩ := hreads.step hplan hrows hstop hstep
  exact ⟨hplan, hsize, looked', hreads'⟩

/-- Where a page may be left out, there is room for it. -/
theorem Within.skip (h : p.Within plan rows) (hph : p.phase = .reading)
    (hlimit : p.failures + 1 < plan.failureLimit) : p.offset + plan.batch < UInt64.size := by
  rcases h.room with hone | ⟨-, hsize, looked, hreads⟩
  · omega
  · simp only [Reads, hph] at hreads
    obtain ⟨before, hnext, -⟩ := hreads
    rw [hnext.place, ← Nat.succ_mul]
    refine Nat.lt_of_le_of_lt (Nat.mul_le_mul_right _ ?_) hsize
    have := hnext.count
    omega

/-- A move does not take the offset beyond 64 bits, and leaves room as it was. -/
theorem Within.step (h : p.Within plan rows) (hsize : rows.length < UInt64.size)
    (hrows : plan.scanned d p.way = rows) (hstop : m.stopped = false)
    (hstep : p.step plan m d = some (d', p')) : p'.Within plan rows := by
  have hroom := h.room.step hrows hstop hstep
  cases advances_of_step h.fetched hrows hstep with
  | stays hfetched ho => exact ⟨ho ▸ h.size, hfetched, hroom⟩
  | passes hfetched ho =>
    refine ⟨?_, hfetched, hroom⟩
    -- the rows of a page reach up to the last row at most
    have hoffset := h.size
    rw [ho, List.length_take, List.length_drop]
    omega
  | skips hfetched hph hlimit ho => exact ⟨ho ▸ h.skip hph hlimit, hfetched, hroom⟩

/-! ### What becomes of a pass when its call is answered -/

/-- A pass when the call that is its next one has been answered, and nothing was refused. -/
def onward (plan : Plan) (d : Deployment ρ) (p : Pass ρ) : Pass ρ :=
  match p.phase with
  | .reading => p.afterPage plan (.ok (p.ahead plan d))
  | .comparing fetched page =>
    p.reportAll plan fetched (p.way.mismatches page (plan.others d p.way))
  | .reporting fetched _ _ rest => p.reportAll plan fetched rest
  | .pausing => p.enter .reading
  | .done _ => p

theorem onward_congr (h : ∀ side, (d'.store side).contents = (d.store side).contents)
    (hlive : p.result? = none) (flight : Option Flight) :
    ({ p with flight } : Pass ρ).onward plan d' = p.onward plan d := by
  have hpage (rows : List ρ) :
      ({ p with flight } : Pass ρ).afterPage plan (.ok rows) = p.afterPage plan (.ok rows) := by
    unfold afterPage
    dsimp only
    split
    · exact reportAll_withFlight ..
    · rfl
  unfold onward ahead
  cases hph : p.phase with
  | reading =>
    simp only [plan.scanned_congr p.way (h _)]
    exact hpage _
  | comparing =>
    simp only [plan.others_congr p.way (h _)]
    exact reportAll_withFlight plan p flight _ _
  | reporting => exact reportAll_withFlight plan p flight _ _
  | pausing => rfl
  | done r => simp [result?, hph] at hlive

/-- A call of a pass that is going to be answered is answered, and not refused. -/
theorem onward_of_step (hstop : m.stopped = false) (hd : d.Prompt plan.callLimit) {f : Flight}
    (hf : f.Prompt) (hfl : p.flight = some f) (hstep : p.step plan m d = some (d', p')) :
    p' = p.onward plan d := by
  unfold onward
  cases moved_of_step hstep with
  | begun _ _ hnone =>
    rw [hfl] at hnone
    cases hnone
  | paged hph =>
    rw [hph]
    exact congrArg (p.afterPage plan <| .ok ·) (page_eq_ahead plan d p)
  | compared hph =>
    rw [hph, rows_lookupSide]
    rfl
  | reported hph =>
    rw [hph]
    rfl
  | rested hph =>
    rw [hph]
    rfl
  | failed _ _ hfine =>
    refine absurd ⟨hstop, ⟨_, hd⟩, fun g hg => ?_⟩ hfine
    rw [hfl] at hg
    cases hg
    exact hf

end Pass

end Scan

/-! ## Refusals -/

/-- A call for which a refusal is planned is refused when it ends, and the next one is not. -/
theorem Store.finish_armed (s : Store ρ) (c : Call ρ) :
    ∃ faults : FaultPlan, (∀ limit, faults.Prompt limit) ∧
      ({ s with faults := ({} : FaultPlan).arm c.op 1 } : Store ρ).finish c =
        (.error (FaultPlan.refusal s.name c.op), { s with faults }) := by
  have hspend : (({} : FaultPlan).arm c.op 1).refusal? c.op =
      some { armed := (({} : FaultPlan).arm c.op 1).armed.put c.op 0 } := by
    unfold FaultPlan.refusal?
    rw [FaultPlan.spend_eq, FaultPlan.arm, Assoc.getD_put, if_pos rfl]
    rfl
  refine ⟨_, fun limit => ⟨fun op => ?_, Nat.zero_le _⟩, by rw [finish, hspend]⟩
  rw [FaultPlan.arm, Assoc.getD_put, Assoc.getD_put]
  split
  · rfl
  · rfl

theorem Deployment.call_armed {limit : Nat} {d : Deployment ρ} (hd : d.Prompt limit) (side : Side)
    (c : Call ρ) {f : Flight} (hf : f.Prompt) :
    ∃ d' e, d'.Prompt limit ∧ e.isCancellation = false ∧
      (d.setFaults side (({} : FaultPlan).arm c.op 1)).call ⟨f.ready, false⟩ (some limit) side c
          (some f) =
        some (d', .answered (.error e)) := by
  obtain ⟨faults, hfaults, hfinish⟩ := (d.store side).finish_armed c
  refine ⟨d.setFaults side faults, FaultPlan.refusal (d.store side).name c.op,
    hd.setFaults (hfaults limit) side, rfl, ?_⟩
  rw [call, Flight.step_ready rfl (Nat.le_refl _) hf.1, setFaults, store_setStore, if_pos rfl,
    hfinish]
  cases side with
  | src | dst => rfl

/-! ## Watches -/

namespace Watch

variable {plan : Scan.Plan} {d : Deployment ρ} {way : Scan.Way} {rows : List ρ} {w : Watch ρ}
  {x : Incident ρ}

/-- A watch of a scan in which a direction through some rows stays within 64 bits. -/
structure Within (plan : Scan.Plan) (way : Scan.Way) (rows : List ρ) (w : Watch ρ) : Prop
    extends w.Scans plan way rows where
  pass : (w.scan.pass way).Within plan rows

theorem Within.perform (h : w.Within plan way rows) (hsize : rows.length < UInt64.size)
    (hx : ∀ id, ¬x.Writes id) : (w.perform x).Within plan way rows := by
  have hscans := h.toScans.perform hx
  rcases w.stepped_perform way x with ⟨hpass, -⟩ | ⟨now, hstep, -⟩
  · exact ⟨hscans, hpass ▸ h.pass⟩
  · rw [h.planned] at hstep
    exact ⟨hscans, h.pass.step hsize (h.own.symm ▸ h.scanned) rfl hstep⟩

/-- Whatever happens that writes nothing, the scan does not break down. -/
def NeverBreaks (w : Watch ρ) : Prop :=
  ∀ incidents, (∀ x ∈ incidents, ∀ id, ¬Incident.Writes id x) →
    (w.after incidents).scan.isBroken = false

theorem NeverBreaks.perform (h : w.NeverBreaks) (hx : ∀ id, ¬x.Writes id) :
    (w.perform x).NeverBreaks :=
  fun incidents hincidents => h (x :: incidents) (List.forall_mem_cons.mpr ⟨hx, hincidents⟩)

theorem neverBreaks_of_within {rows : Scan.Way → List ρ} (h : ∀ way, w.Within plan way (rows way))
    (hsize : ∀ way, (rows way).length < UInt64.size) : w.NeverBreaks := by
  intro incidents hincidents
  induction incidents generalizing w with
  | nil =>
    refine Scan.isBroken_eq_false_iff.mpr fun way => ?_
    exact Scan.Pass.isBroken_eq_false_iff.mpr (h way).pass.size
  | cons x rest ih =>
    obtain ⟨hx, hrest⟩ := List.forall_mem_cons.mp hincidents
    exact ih (fun way => (h way).perform (hsize way) hx) hrest

/-! ### Where a direction can be led -/

/-- A watch of a scan of the rows of `d` that does not break down, in which a direction is at a
place, and the other one has not ended. -/
structure At (plan : Scan.Plan) (d : Deployment ρ) (way : Scan.Way) (p : Scan.Pass ρ)
    (w : Watch ρ) : Prop where
  planned : w.scan.plan = plan
  contents : ∀ side, (w.site.store side).contents = (d.store side).contents
  pass : w.scan.pass way = p
  others : ∀ other, other ≠ way → (w.scan.pass other).result? = none
  unbroken : w.NeverBreaks

/-- From one place a direction can be led to another by incidents that write nothing. -/
def Leads (plan : Scan.Plan) (d : Deployment ρ) (way : Scan.Way) (p q : Scan.Pass ρ) : Prop :=
  ∀ w : Watch ρ, w.At plan d way p → w.site.Prompt plan.callLimit →
    ∃ incidents, (∀ x ∈ incidents, ∀ id, ¬Incident.Writes id x) ∧
      (w.after incidents).At plan d way q ∧
      (w.after incidents).site.Prompt plan.callLimit

variable {p q r : Scan.Pass ρ}

theorem Leads.refl (plan : Scan.Plan) (d : Deployment ρ) (way : Scan.Way) (p : Scan.Pass ρ) :
    Leads plan d way p p :=
  fun _ hat hprompt => ⟨[], by simp, hat, hprompt⟩

theorem Leads.trans (h : Leads plan d way p q) (h' : Leads plan d way q r) :
    Leads plan d way p r := by
  intro w hat hprompt
  obtain ⟨past, hpast, hat, hprompt⟩ := h w hat hprompt
  obtain ⟨recent, hrecent, hat, hprompt⟩ := h' _ hat hprompt
  rw [← after_append] at hat hprompt
  exact ⟨past ++ recent, List.forall_mem_append.mpr ⟨hpast, hrecent⟩, hat, hprompt⟩

/-- A direction that takes its turn moves, if it does not have to wait. -/
theorem At.turn (h : w.At plan d way p) (hlive : p.result? = none) {now : Nat} {site : Deployment ρ}
    (hstep : p.step plan ⟨now, false⟩ w.site = some (site, q)) :
    (w.perform (.turn way now)).At plan d way q ∧ (w.perform (.turn way now)).site = site := by
  obtain ⟨rfl, hcontents, rfl, hothers, hunbroken⟩ := h
  have hundone (other : Scan.Way) : (w.scan.pass other).result? = none := by
    by_cases hother : other = way
    · rw [hother, hlive]
    · exact hothers other hother
  have hgoes : w.scan.isOver = false :=
    Scan.isOver_eq_false_iff.mpr ⟨hunbroken [] (by simp), Scan.result?_eq_none hundone⟩
  have hperform : w.perform (.turn way now) = { site, scan := w.scan.setPass q way } := by
    simp only [perform, Scan.stepWay, hgoes, hstep, Bool.false_eq_true, if_false, Option.map_some]
  have hkept := hunbroken.perform (x := .turn way now) fun _ => id
  rw [hperform] at hkept ⊢
  refine ⟨⟨Scan.plan_setPass .., fun side => ?_, ?_, fun other hother => ?_, hkept⟩, rfl⟩
  · exact ((Scan.Pass.moved_of_step hstep).contents side).trans (hcontents side)
  · rw [Scan.pass_setPass, if_pos rfl]
  · rw [Scan.pass_setPass, if_neg hother]
    exact hothers other hother

omit [Entity ρ] in
theorem phase_ne_done (hlive : p.result? = none) (r : Except Error Unit) : p.phase ≠ .done r := by
  intro hph
  rw [Scan.Pass.result?, hph] at hlive
  cases hlive

/-- A direction whose call is going to be answered moves. -/
theorem At.move (h : w.At plan d way p) (hlive : p.result? = none)
    (hprompt : w.site.Prompt plan.callLimit) (hflight : ∀ f ∈ p.flight, f.Prompt) :
    ∃ now site q, p.step plan ⟨now, false⟩ w.site = some (site, q) ∧
      (w.perform (.turn way now)).At plan d way q ∧
      (w.perform (.turn way now)).site.Prompt plan.callLimit := by
  obtain ⟨⟨site, q⟩, hstep⟩ :=
    Option.isSome_iff_exists.mp (Scan.Pass.step_due_isSome (phase_ne_done hlive) plan w.site)
  obtain ⟨hat, hsite⟩ := h.turn hlive hstep
  refine ⟨_, site, q, hstep, hat, ?_⟩
  rw [hsite]
  exact (Scan.Pass.moved_of_step hstep).prompt rfl hprompt hflight

/-- A direction without a call under way begins one. -/
theorem At.begin (h : w.At plan d way p) (hlive : p.result? = none) (hfl : p.flight = none)
    (hprompt : w.site.Prompt plan.callLimit) :
    ∃ f now, f.Prompt ∧ (w.perform (.turn way now)).At plan d way { p with flight := some f } ∧
      (w.perform (.turn way now)).site.Prompt plan.callLimit := by
  have hflight : ∀ g ∈ p.flight, g.Prompt := by simp [hfl]
  obtain ⟨now, site, q, hstep, hat, hkept⟩ := h.move hlive hprompt hflight
  cases Scan.Pass.moved_of_step hstep with
  | begun _ _ _ _ hp => exact ⟨_, now, (hp _ (Nat.le_refl _) hprompt).1, hat, hkept⟩
  | paged _ hf | compared _ hf | reported _ hf =>
    rw [hfl] at hf
    cases hf
  | rested =>
    obtain ⟨f, hf⟩ := Scan.Pass.begun_of_step rfl hfl hstep
    cases congrArg Scan.Pass.flight hf
  | failed _ _ hfine => exact absurd ⟨rfl, ⟨_, hprompt⟩, hflight⟩ hfine

/-- A direction can be led on behind its next call. -/
theorem leads_onward (hlive : p.result? = none) (hfl : p.flight = none) :
    Leads plan d way p (p.onward plan d) := by
  intro w hat hprompt
  obtain ⟨f, start, hf, hat, hprompt⟩ := hat.begin hlive hfl hprompt
  obtain ⟨now, site, q, hstep, hnext, hkept⟩ := hat.move hlive hprompt fun g hg => by
    cases hg
    exact hf
  have hq := Scan.Pass.onward_of_step rfl hprompt hf rfl hstep
  rw [Scan.Pass.onward_congr hat.contents hlive] at hq
  exact ⟨[.turn way start, .turn way now], by simp [Incident.Writes], hq ▸ hnext, hkept⟩

/-- A direction can be led on behind what it has to report of a page. -/
theorem leads_reportAll (fetched : Nat) (found : List (Int × Mismatch)) :
    Leads plan d way (p.reportAll plan fetched found)
      (({ p with failures := 0 } : Scan.Pass ρ).turn plan fetched) := by
  induction found generalizing p with
  | nil => exact Leads.refl plan d way _
  | cons x rest ih =>
    let reporting := p.enter (.reporting fetched x.1 x.2 rest)
    have hnext : Leads plan d way reporting (reporting.reportAll plan fetched rest) :=
      leads_onward rfl rfl
    exact hnext.trans ih

/-- A direction can be led on behind its next page. -/
theorem leads_page {offset failures : Nat} (way : Scan.Way) {page : List ρ}
    (hpage : page = ((plan.scanned d way).drop offset).take plan.batch) :
    Leads plan d way { way, offset, failures }
      (({ way, offset } : Scan.Pass ρ).turn plan page.length) := by
  refine (leads_onward rfl rfl).trans ?_
  have hahead : ({ way, offset, failures } : Scan.Pass ρ).ahead plan d = page := hpage.symm
  simp only [Scan.Pass.onward, hahead, Scan.Pass.afterPage]
  split
  · exact leads_reportAll (p := { way, offset, failures }) page.length []
  · next r rest _ =>
    refine (leads_onward rfl rfl).trans ?_
    exact leads_reportAll
      (p := { way, offset, failures, phase := .comparing page.length (r :: rest) }) _ _

theorem At.planned_faults (h : w.At plan d way p) (side : Side) (faults : FaultPlan) :
    (w.perform (.plan side faults)).At plan d way p :=
  ⟨h.planned, fun other => (w.contents_perform (.plan side faults) other).trans (h.contents other),
    h.pass, h.others, h.unbroken.perform fun _ => id⟩

/-- A direction can be led to leave a page out, unless that were too many in a row. -/
theorem leads_skip {offset failures : Nat} (way : Scan.Way)
    (hlimit : failures + 1 < plan.failureLimit) :
    Leads plan d way { way, offset, failures }
      { way, offset := offset + plan.batch, failures := failures + 1 } := by
  intro w hat hprompt
  obtain ⟨f, start, hf, hat, hprompt⟩ := hat.begin rfl rfl hprompt
  -- the call has started, and a refusal that is planned now is for its end
  let waiting : Scan.Pass ρ := { way, offset, failures, flight := some f }
  let call : Call ρ := .findPage (waiting.pageQuery plan)
  let faults := ({} : FaultPlan).arm call.op 1
  have hasks : waiting.Asks plan (waiting.pageSide plan) call (waiting.afterPage plan) := .page rfl
  obtain ⟨site, e, hsite, he, hcall⟩ :=
    Deployment.call_armed hprompt (waiting.pageSide plan) call hf
  have hskipped : waiting.afterPage plan (.error e) =
      { way, offset := offset + plan.batch, failures := failures + 1 } := by
    rw [Scan.Pass.afterPage, he, if_neg Bool.false_ne_true]
    exact if_neg (Nat.not_le.mpr hlimit)
  have hstep : waiting.step plan ⟨f.ready, false⟩
      ((w.perform (.turn way start)).perform (.plan (waiting.pageSide plan) faults)).site =
        some (site, { way, offset := offset + plan.batch, failures := failures + 1 }) := by
    refine (hasks.step ..).trans ((congrArg (Option.map _) hcall).trans ?_)
    exact congrArg (fun q => some (site, q)) hskipped
  obtain ⟨hnext, hleft⟩ := (hat.planned_faults (waiting.pageSide plan) faults).turn rfl hstep
  refine ⟨[.turn way start, .plan (waiting.pageSide plan) faults, .turn way f.ready],
    by simp [Incident.Writes], hnext, ?_⟩
  exact (congrArg (Deployment.Prompt plan.callLimit) hleft).mpr hsite

/-- A direction can be led behind a full page. -/
theorem leads_full {offset failures : Nat} (way : Scan.Way) {page : List ρ}
    (hpage : page = ((plan.scanned d way).drop offset).take plan.batch)
    (hfull : page.length = plan.batch) :
    Leads plan d way { way, offset, failures } { way, offset := offset + plan.batch } := by
  have hturn : ({ way, offset } : Scan.Pass ρ).turn plan page.length =
      { way, offset := offset + plan.batch } := by
    rw [hfull]
    exact if_pos (Nat.le_refl _)
  exact hturn ▸ leads_page way hpage

/-- A direction that goes on for ever can be led behind the last row. -/
theorem leads_short {poll offset failures : Nat} (way : Scan.Way)
    (hmode : plan.mode = .continuous poll)
    {page : List ρ} (hpage : page = ((plan.scanned d way).drop offset).take plan.batch)
    (hshort : page.length < plan.batch) :
    Leads plan d way { way, offset, failures } { way, offset := offset + page.length } := by
  have hturn : ({ way, offset } : Scan.Pass ρ).turn plan page.length =
      { way, offset := offset + page.length, phase := .pausing } := by
    unfold Scan.Pass.turn
    rw [hmode]
    exact if_neg (Nat.not_le.mpr hshort)
  exact (leads_page way hpage).trans (hturn ▸ leads_onward rfl rfl)

/-! ### What it takes never to break down -/

/-- A direction can be led from the start of a scan to a place. -/
def Reaches (plan : Scan.Plan) (d : Deployment ρ) (way : Scan.Way) (p : Scan.Pass ρ)
    (start : Watch ρ) : Prop :=
  ∃ incidents, (∀ x ∈ incidents, ∀ id, ¬Incident.Writes id x) ∧
    (start.after incidents).At plan d way p ∧ (start.after incidents).site.Prompt plan.callLimit

section Necessity

variable {start : Watch ρ} {n : Nat}

theorem reaches_start (hd : d.Prompt plan.callLimit)
    (h : ({ site := d, scan := { plan } } : Watch ρ).NeverBreaks) (way : Scan.Way) :
    ({ site := d, scan := { plan } } : Watch ρ).Reaches plan d way { way } := by
  refine ⟨[], by simp, ⟨rfl, fun _ => rfl, ?_, fun other _ => ?_, h⟩, hd⟩
  · cases way <;> rfl
  · cases other <;> rfl

theorem Reaches.leads (h : start.Reaches plan d way p) (hpq : Leads plan d way p q) :
    start.Reaches plan d way q := by
  obtain ⟨past, hpast, hat, hprompt⟩ := h
  obtain ⟨recent, hrecent, hnext, hkept⟩ := hpq _ hat hprompt
  rw [← after_append] at hnext hkept
  exact ⟨past ++ recent, List.forall_mem_append.mpr ⟨hpast, hrecent⟩, hnext, hkept⟩

/-- Where a direction can be led its offset has no more than 64 bits. -/
theorem Reaches.offset_lt (h : start.Reaches plan d way p) : p.offset < UInt64.size := by
  obtain ⟨incidents, -, hat, -⟩ := h
  have hunbroken := Scan.isBroken_eq_false_iff.mp (hat.unbroken [] (by simp)) way
  exact hat.pass ▸ Scan.Pass.isBroken_eq_false_iff.mp hunbroken

/-- A direction can be led behind any number of full pages. -/
theorem Reaches.full (h : start.Reaches plan d way { way }) (hpos : 0 < plan.batch)
    (hn : n ≤ (plan.scanned d way).length / plan.batch) :
    start.Reaches plan d way { way, offset := n * plan.batch } := by
  induction n with
  | zero =>
    rw [Nat.zero_mul]
    exact h
  | succ n ih =>
    have hrows := (Nat.le_div_iff_mul_le hpos).mp hn
    rw [Nat.succ_mul] at hrows ⊢
    have hlength : (((plan.scanned d way).drop (n * plan.batch)).take plan.batch).length =
        plan.batch := by
      rw [List.length_take, List.length_drop]
      omega
    exact (ih (Nat.le_of_succ_le hn)).leads (leads_full way rfl hlength)

/-- A direction can be led behind the rows, to leave out as many pages in a row as it may. -/
theorem Reaches.skipped (h : start.Reaches plan d way { way }) (hpos : 0 < plan.batch)
    (hn : n < plan.failureLimit) :
    start.Reaches plan d way
      { way, offset := ((plan.scanned d way).length / plan.batch + n) * plan.batch,
        failures := n } := by
  induction n with
  | zero => exact h.full hpos (Nat.le_refl _)
  | succ n ih =>
    rw [← Nat.add_assoc, Nat.succ_mul]
    exact (ih (Nat.lt_of_succ_lt hn)).leads (leads_skip way hn)

omit [Entity ρ] in
/-- Behind the full pages there are the rows that do not make another one. -/
theorem length_remainder {batch : Nat} (hpos : 0 < batch) (rows : List ρ) :
    ((rows.drop (rows.length / batch * batch)).take batch).length = rows.length % batch := by
  have hdiv := Nat.div_add_mod' rows.length batch
  have hmod := Nat.mod_lt rows.length hpos
  rw [List.length_take, List.length_drop]
  omega

/-- No more rows than 64 bits can be gone through. -/
theorem Reaches.length_lt (h : start.Reaches plan d way { way }) (hpos : 0 < plan.batch) :
    (plan.scanned d way).length < UInt64.size := by
  have hlt := ((h.full hpos (Nat.le_refl _)).leads (leads_page way rfl)).offset_lt
  rwa [Scan.Pass.offset_turn, length_remainder hpos, Nat.div_add_mod'] at hlt

/-- A direction that goes on for ever and may leave a page out can be led as far behind the rows as
one likes. -/
theorem Reaches.behind {poll : Nat} (h : start.Reaches plan d way { way }) (hpos : 0 < plan.batch)
    (hmode : plan.mode = .continuous poll) (hlimit : 1 < plan.failureLimit) (n : Nat) :
    start.Reaches plan d way { way, offset := (plan.scanned d way).length + n * plan.batch } := by
  induction n with
  | zero =>
    have hlength := length_remainder hpos (plan.scanned d way)
    have hbehind := (h.full hpos (Nat.le_refl _)).leads
      (leads_short way hmode rfl (hlength ▸ Nat.mod_lt _ hpos))
    rw [hlength, Nat.div_add_mod'] at hbehind
    rwa [Nat.zero_mul, Nat.add_zero]
  | succ n ih =>
    have hnone : ([] : List ρ) = ((plan.scanned d way).drop
        ((plan.scanned d way).length + n * plan.batch + plan.batch)).take plan.batch := by
      rw [List.drop_eq_nil_of_le (by omega), List.take_nil]
    rw [Nat.succ_mul, ← Nat.add_assoc]
    exact (ih.leads (leads_skip way hlimit)).leads (leads_short way hmode hnone hpos)

end Necessity

/-! ### The exact condition -/

/-- No offset of a scan comes to more than 64 bits can count, whatever the stores and the broker
refuse, exactly if in each direction there are no more rows than 64 bits can count, and a direction
gives up at the first page that it leaves out, or goes through the rows once and has room for all
pages that may be left out in a row. -/
theorem unbroken_iff {config : Config} (hvalid : config.validate = .ok ()) {base : Side}
    {since : Option Int} {mode : Scan.Mode} {plan : Scan.Plan}
    (hplan : plan = .ofSide config base since mode) (d : Deployment ρ) :
    (∀ d' : Deployment ρ, (∀ side, (d'.store side).contents = (d.store side).contents) →
      ({ site := d', scan := { plan } } : Watch ρ).NeverBreaks) ↔
    ∀ way, (plan.scanned d way).length < UInt64.size ∧
      (config.maxConsecutiveFailures = 1 ∨ mode = .oneShot ∧
        ((plan.scanned d way).length / config.batchSize + config.maxConsecutiveFailures - 1) *
          config.batchSize < UInt64.size) := by
  have hpos : 0 < plan.batch := hplan ▸ config.batchSize_pos hvalid
  have hlimit : 0 < plan.failureLimit := hplan ▸ config.maxConsecutiveFailures_pos hvalid
  rw [show config.batchSize = plan.batch by rw [hplan]; rfl,
    show config.maxConsecutiveFailures = plan.failureLimit by rw [hplan]; rfl,
    show mode = plan.mode by rw [hplan]; rfl]
  constructor
  · intro h way
    -- stores that refuse nothing until they are told to
    let calm : Deployment ρ :=
      { src := { name := "", contents := (d.store .src).contents }
        dst := { name := "", contents := (d.store .dst).contents } }
    have hcontents : ∀ side, (calm.store side).contents = (d.store side).contents
      | .src | .dst => rfl
    have hcalm : calm.Prompt plan.callLimit :=
      ⟨fun side => by cases side <;> exact ⟨⟨fun _ => rfl, Nat.zero_le _⟩, fun _ => rfl⟩,
        rfl, ⟨fun _ => rfl, Nat.zero_le _⟩, rfl⟩
    have hstart := reaches_start hcalm (h calm hcontents) way
    rw [← plan.scanned_congr way (hcontents _)]
    refine ⟨hstart.length_lt hpos, ?_⟩
    by_cases hone : plan.failureLimit = 1
    · exact .inl hone
    refine .inr ⟨?_, ?_⟩
    · cases hmode : plan.mode with
      | oneShot => rfl
      | continuous poll =>
        have hlt := (hstart.behind hpos hmode (by omega) UInt64.size).offset_lt
        have hle := Nat.le_mul_of_pos_right UInt64.size hpos
        dsimp only at hlt
        omega
    · have hlt := (hstart.skipped hpos (Nat.sub_one_lt_of_lt hlimit)).offset_lt
      rwa [← Nat.add_sub_assoc hlimit] at hlt
  · intro h d' hcontents
    have hscanned (way : Scan.Way) : plan.scanned d' way = plan.scanned d way :=
      plan.scanned_congr way (hcontents _)
    refine neverBreaks_of_within (fun way => ⟨scans_start plan d' way, ?_, ?_, ?_⟩)
      fun way => hscanned way ▸ (h way).1
    · cases way <;> exact Nat.two_pow_pos 64
    · cases way <;> exact trivial
    · refine (h way).2.imp_right fun ⟨hmode, hroom⟩ => ?_
      have honce : plan.Once := ⟨hmode, hpos, hlimit⟩
      exact ⟨honce, hscanned way ▸ hroom, [], (asks_start d' way honce rfl).pass⟩

/-- With the settings that a configuration has of itself, two rows may be gone through once,
whatever is refused. -/
theorem unbroken_iff_sample :
    let config : Config := {}
    let plan : Scan.Plan := .ofSide config .src none .oneShot
    let d : Deployment Account := .ofRows [⟨1, "ann", 10, 5⟩, ⟨2, "bob", 20, 6⟩] [] .srcOnly
    config.validate = .ok () ∧
      ∀ d' : Deployment Account, (∀ side, (d'.store side).contents = (d.store side).contents) →
        ({ site := d', scan := { plan } } : Watch Account).NeverBreaks := by
  intro config plan d
  have hvalid : config.validate = .ok () := by decide +kernel
  have hroom : ∀ way, (plan.scanned d way).length < UInt64.size ∧
      (config.maxConsecutiveFailures = 1 ∨ Scan.Mode.oneShot = .oneShot ∧
        ((plan.scanned d way).length / config.batchSize + config.maxConsecutiveFailures - 1) *
          config.batchSize < UInt64.size)
    | .baseToTarget | .targetToBase => by decide +kernel
  exact ⟨hvalid, (unbroken_iff hvalid rfl d).mpr hroom⟩

/-- Pages of half of what 64 bits can count: when two of them could not be read the offset comes to
more than 64 bits can count, and the scan is over, without a result and with nothing reported of the
two rows. -/
theorem unread_breaks :
    let half : Nat := UInt64.size / 2
    let config : Config := { batchSize := half }
    let plan : Scan.Plan := .ofSide config .src none .oneShot
    let down : Option Error := some (.store "down")
    let d : Deployment Account :=
      { src := (Store.ofTable "src" [⟨1, "ann", 10, 5⟩, ⟨2, "bob", 20, 6⟩]).setScript
          "find_page" [down, down]
        dst := .ofTable "dst" [] }
    let start : Watch Account := { site := d, scan := { plan } }
    let incidents : List (Incident Account) := List.replicate 12 (.turn .baseToTarget 0)
    config.validate = .ok () ∧ ¬start.NeverBreaks ∧
      start.calls .baseToTarget incidents =
        [(.src, .findPage ⟨0, half, none⟩), (.src, .findPage ⟨half, half, none⟩)] ∧
      ((start.after incidents).scan.pass .baseToTarget).offset = UInt64.size ∧
      (start.after incidents).scan.end? = some none ∧ (start.after incidents).log = [] := by
  intro half config plan down d start incidents
  have hbroken : (start.after incidents).scan.isBroken = true := by decide +kernel
  refine ⟨by decide, fun hnever => ?_, by decide +kernel, by decide +kernel, by decide +kernel,
    by decide +kernel⟩
  rw [hnever incidents fun x hx id hwrites => ?_] at hbroken
  · cases hbroken
  · obtain ⟨-, rfl⟩ := List.mem_replicate.mp hx
    exact hwrites

end Watch

end Cutover
