import Cutover.Proofs.Outages
import Cutover.Proofs.Skips

/-!
# How many pages a direction reads

Nobody writes while a scan goes through the rows once, and stores and broker refuse what they like,
also with a word of cancellation, or take too long. A direction then asks for one page after the
other, and looks the rows of a page up at most once (`Scan.Plan.asked`). Before the page that is
next there are full pages of rows, and pages that it has left out one after the other
(`Scan.Pass.Next`); of these there may not be many, so behind the last row it soon ends. Main
statement: `Watch.reads_bounded`.
-/

namespace Cutover

variable {ρ : Type} [Entity ρ]

namespace Scan

/-! ## The calls of a direction -/

namespace Plan

/-- The call for a page, by its number. -/
def pageCall (plan : Plan) (way : Way) (n : Nat) : Side × Call ρ :=
  (plan.pages way, .findPage ⟨n * plan.batch, plan.batch, plan.watermark way⟩)

/-- The call with which the rows of a page are looked up. -/
def lookupCall (plan : Plan) (way : Way) (page : List ρ) : Side × Call ρ :=
  match way with
  | .baseToTarget => (plan.target, .findByIds (page.map Entity.id))
  | .targetToBase => (plan.base, .findIds (page.map Entity.id))

/-- The calls for a page: it is read, and perhaps its rows are looked up, of each id the first
one. -/
def callsFor (plan : Plan) (way : Way) (rows : List ρ) (looked : Bool) (n : Nat) :
    List (Side × Call ρ) :=
  plan.pageCall way n :: if looked then [plan.lookupCall way (dedup (plan.page rows n))] else []

/-- The calls for the first pages, in order; it is marked of which of them the rows are looked
up. -/
def asked (plan : Plan) (way : Way) (rows : List ρ) (looked : List Bool) : List (Side × Call ρ) :=
  looked.zipIdx.flatMap fun (mark, n) => plan.callsFor way rows mark n

variable {plan : Plan} {way : Way} {rows : List ρ}

theorem asked_concat (looked : List Bool) (mark : Bool) :
    plan.asked way rows (looked ++ [mark]) =
      plan.asked way rows looked ++ plan.callsFor way rows mark looked.length := by
  simp [asked, List.zipIdx_append]

/-- To look the rows of the last page up is one more call. -/
theorem asked_concat_true (looked : List Bool) :
    plan.asked way rows (looked ++ [true]) = plan.asked way rows (looked ++ [false]) ++
      [plan.lookupCall way (dedup (plan.page rows looked.length))] := by
  rw [asked_concat, asked_concat, List.append_assoc]
  rfl

/-- As many pages are read as there are marks. -/
theorem countP_asked (looked : List Bool) :
    (plan.asked way rows looked).countP (·.2.op = "find_page") = looked.length := by
  induction looked using List.reverseRecOn with
  | nil => rfl
  | append_singleton looked mark ih =>
    have hlookup (page : List ρ) : (plan.lookupCall way page).2.op ≠ "find_page" := by
      cases way <;> simp [lookupCall, Call.op]
    have hpage : (plan.pageCall way looked.length : Side × Call ρ).2.op = "find_page" := rfl
    rw [asked_concat, List.countP_append, ih, List.length_append, List.length_singleton]
    congr 1
    cases mark with
    | false => simp [callsFor, hpage]
    | true => simp [callsFor, hpage, hlookup]

omit [Entity ρ] in
/-- The rows in a full page are rows that are looked at. -/
theorem Once.lt_of_full (h : plan.Once) {n : Nat}
    (hfull : plan.batch ≤ (plan.page rows n).length) : n + 1 ≤ rows.length / plan.batch := by
  have hpos := h.pos
  rw [page, List.length_take, List.length_drop] at hfull
  rw [Nat.le_div_iff_mul_le hpos, Nat.succ_mul]
  omega

end Plan

/-! ## Passes -/

namespace Pass

/-- A pass for which the page with a number is next: the pages before it were full, but for those
that were left out last. -/
structure Next (plan : Plan) (rows : List ρ) (n : Nat) (p : Pass ρ) : Prop where
  place : p.offset = n * plan.batch
  limit : p.failures < plan.failureLimit
  count : n ≤ rows.length / plan.batch + p.failures

/-- A pass that has asked for pages, and has looked up the rows of those that are marked. -/
def Reads (plan : Plan) (rows : List ρ) (looked : List Bool) (p : Pass ρ) : Prop :=
  match p.phase with
  | .reading =>
    ∃ before, p.Next plan rows before.length ∧
      looked = if p.flight.isSome then before ++ [false] else before
  | .comparing fetched page =>
    ∃ before, p.Next plan rows before.length ∧ looked = before ++ [p.flight.isSome] ∧
      fetched = (plan.page rows before.length).length ∧ page = dedup (plan.page rows before.length)
  | .reporting fetched _ _ _ =>
    ∃ before mark, p.Next plan rows before.length ∧ looked = before ++ [mark] ∧
      fetched = (plan.page rows before.length).length
  | .pausing => False
  | .done _ => looked.length ≤ rows.length / plan.batch + plan.failureLimit

/-- How many more moves a pass may make for the page that it has asked for. -/
def left (plan : Plan) (p : Pass ρ) : Nat :=
  match p.phase, p.flight with
  | .reading, none => 0
  | .reading, some _ => 2 * plan.batch + 3
  | .comparing _ _, none => 2 * plan.batch + 2
  | .comparing _ _, some _ => 2 * plan.batch + 1
  | .reporting _ _ _ rest, none => 2 * rest.length + 2
  | .reporting _ _ _ rest, some _ => 2 * rest.length + 1
  | .pausing, _ | .done _, _ => 0

variable {plan : Plan} {rows : List ρ} {looked before : List Bool} {mark : Bool} {fetched n : Nat}
  {p p' : Pass ρ} {m : Moment} {d d' : Deployment ρ}

omit [Entity ρ] in
theorem Next.lt (h : p.Next plan rows n) : n < rows.length / plan.batch + plan.failureLimit :=
  Nat.lt_of_le_of_lt h.count (Nat.add_lt_add_left h.limit _)

omit [Entity ρ] in
/-- The offset of a page that may be read comes to 64 bits, if those of all such pages do. -/
theorem Next.offset_lt (h : p.Next plan rows n)
    (hsize : (rows.length / plan.batch + plan.failureLimit - 1) * plan.batch < UInt64.size) :
    p.offset < UInt64.size := by
  rw [h.place]
  exact Nat.lt_of_le_of_lt (Nat.mul_le_mul_right _ (Nat.le_sub_one_of_lt h.lt)) hsize

/-- For a pass that goes on, a page is next. -/
theorem Reads.exists_next (h : p.Reads plan rows looked) (hlive : p.result? = none) :
    ∃ n, p.Next plan rows n := by
  unfold Reads at h
  cases hph : p.phase with
  | reading =>
    simp only [hph] at h
    obtain ⟨before, hnext, -⟩ := h
    exact ⟨_, hnext⟩
  | comparing =>
    simp only [hph] at h
    obtain ⟨before, hnext, -⟩ := h
    exact ⟨_, hnext⟩
  | reporting =>
    simp only [hph] at h
    obtain ⟨before, mark, hnext, -⟩ := h
    exact ⟨_, hnext⟩
  | pausing => simp only [hph] at h
  | done r =>
    rw [result?, hph] at hlive
    cases hlive

theorem Reads.length_le (h : p.Reads plan rows looked) :
    looked.length ≤ rows.length / plan.batch + plan.failureLimit := by
  unfold Reads at h
  cases hph : p.phase with
  | reading =>
    simp only [hph] at h
    obtain ⟨before, hnext, rfl⟩ := h
    split
    · rw [List.length_append]
      exact hnext.lt
    · exact Nat.le_of_lt hnext.lt
  | comparing =>
    simp only [hph] at h
    obtain ⟨before, hnext, rfl, -⟩ := h
    rw [List.length_append]
    exact hnext.lt
  | reporting =>
    simp only [hph] at h
    obtain ⟨before, mark, hnext, rfl, -⟩ := h
    rw [List.length_append]
    exact hnext.lt
  | pausing => simp only [hph] at h
  | done => simpa only [hph] using h

/-- A pass may end at any page that it has asked for. -/
theorem reads_done {r : Except Error Unit} (mark : Bool)
    (hcount : before.length < rows.length / plan.batch + plan.failureLimit)
    (hph : p.phase = .done r) :
    p.Reads plan rows (before ++ [mark]) := by
  unfold Reads
  simp only [hph]
  rw [List.length_append]
  exact hcount

/-- A pass that leaves the last page out or has reported all of it goes on behind it, or has come to
its end. -/
theorem reads_turn (hplan : plan.Once) (mark : Bool)
    (hplace : p.offset = before.length * plan.batch) (hlimit : p.failures < plan.failureLimit)
    (hcount : before.length < rows.length / plan.batch + plan.failureLimit)
    (hfetched : fetched = (plan.page rows before.length).length) :
    (p.turn plan fetched).Reads plan rows (before ++ [mark]) := by
  unfold turn
  rw [hplan.mode]
  split
  · next hfull =>
    have hle := hplan.lt_of_full (hfetched ▸ hfull)
    have hbatch : fetched = plan.batch :=
      Nat.le_antisymm (hfetched ▸ List.length_take_le ..) hfull
    refine ⟨before ++ [mark], ⟨?_, hlimit, ?_⟩, rfl⟩
    · rw [List.length_append, List.length_singleton]
      change p.offset + fetched = _
      rw [hplace, hbatch, Nat.succ_mul]
    · rw [List.length_append]
      exact Nat.le_trans hle (Nat.le_add_right ..)
  · exact reads_done mark hcount rfl

theorem reads_reportAll (hplan : plan.Once) (mark : Bool) (h : p.Next plan rows before.length)
    (hfetched : fetched = (plan.page rows before.length).length) (found : List (Int × Mismatch)) :
    (p.reportAll plan fetched found).Reads plan rows (before ++ [mark]) := by
  cases found with
  | nil =>
    exact reads_turn (p := { p with failures := 0 }) hplan mark h.place hplan.limit h.lt hfetched
  | cons x rest => exact ⟨before, mark, ⟨h.place, h.limit, h.count⟩, rfl, hfetched⟩

theorem reads_leaveOut (mark : Bool) (h : p.Next plan rows before.length) {next : Pass ρ → Pass ρ}
    (hnext : p.failures + 1 < plan.failureLimit →
      (next { p with failures := p.failures + 1 }).Reads plan rows (before ++ [mark])) :
    (p.leaveOut plan next).Reads plan rows (before ++ [mark]) := by
  unfold leaveOut
  dsimp only
  split
  · exact reads_done mark h.lt rfl
  · next hlimit => exact hnext (Nat.not_le.mp hlimit)

theorem reads_unread (h : p.Next plan rows before.length) (e : Error) :
    (p.afterPage plan (.error e)).Reads plan rows (before ++ [false]) := by
  unfold afterPage
  dsimp only
  split
  · exact reads_done false h.lt rfl
  · refine reads_leaveOut false h fun hlimit => ⟨before ++ [false], ⟨?_, hlimit, ?_⟩, rfl⟩
    · rw [List.length_append, List.length_singleton]
      change p.offset + plan.batch = _
      rw [h.place, Nat.succ_mul]
    · rw [List.length_append]
      exact Nat.add_le_add_right h.count 1

theorem reads_read (hplan : plan.Once) (h : p.Next plan rows before.length) :
    (p.afterPage plan (.ok (plan.page rows before.length))).Reads plan rows
      (before ++ [false]) := by
  unfold afterPage
  dsimp only
  split
  · exact reads_reportAll hplan false h rfl []
  · next heq => exact ⟨before, ⟨h.place, h.limit, h.count⟩, rfl, rfl, heq.symm⟩

theorem reads_uncompared (hplan : plan.Once) (mark : Bool) (h : p.Next plan rows before.length)
    (hfetched : fetched = (plan.page rows before.length).length) (e : Error) :
    (p.afterLookup plan fetched (.error e)).Reads plan rows (before ++ [mark]) := by
  unfold afterLookup
  dsimp only
  split
  · exact reads_done mark h.lt rfl
  · refine reads_leaveOut mark h fun hlimit => ?_
    exact reads_turn (p := { p with failures := p.failures + 1 }) hplan mark h.place hlimit h.lt
      hfetched

theorem reads_reported (hplan : plan.Once) (mark : Bool) (h : p.Next plan rows before.length)
    (hfetched : fetched = (plan.page rows before.length).length) (rest : List (Int × Mismatch))
    (r : Except Error Unit) : (p.afterReport plan fetched rest r).Reads plan rows
      (before ++ [mark]) := by
  unfold afterReport
  split
  · exact reads_done mark h.lt rfl
  · exact reads_reportAll hplan mark h hfetched rest

/-! ### How many moves a page takes -/

omit [Entity ρ] in
theorem left_turn (plan : Plan) (p : Pass ρ) (fetched : Nat) :
    (p.turn plan fetched).left plan = 0 := by
  unfold turn
  cases plan.mode <;> split <;> rfl

omit [Entity ρ] in
theorem left_reportAll_le (plan : Plan) (p : Pass ρ) (fetched : Nat)
    (found : List (Int × Mismatch)) :
    (p.reportAll plan fetched found).left plan ≤ 2 * found.length := by
  cases found with
  | nil => exact Nat.le_of_eq (left_turn plan { p with failures := 0 } fetched)
  | cons x rest => exact Nat.le_refl _

omit [Entity ρ] in
theorem left_leaveOut {next : Pass ρ → Pass ρ} (hnext : ∀ q, (next q).left plan = 0) :
    (p.leaveOut plan next).left plan = 0 := by
  unfold leaveOut
  dsimp only
  split
  · rfl
  · exact hnext _

theorem left_afterPage_le (plan : Plan) (p : Pass ρ) (r : Except Error (List ρ)) :
    (p.afterPage plan r).left plan ≤ 2 * plan.batch + 2 := by
  unfold afterPage
  cases r with
  | error e =>
    dsimp only
    split
    · exact Nat.zero_le _
    · rw [left_leaveOut fun _ => rfl]
      exact Nat.zero_le _
  | ok rows =>
    dsimp only
    split
    · exact Nat.le_trans (left_reportAll_le ..) (Nat.zero_le _)
    · exact Nat.le_refl _

omit [Entity ρ] in
theorem left_afterLookup_le (plan : Plan) (p : Pass ρ) (fetched : Nat)
    {r : Except Error (List (Int × Mismatch))} {n : Nat}
    (hr : ∀ found, r = .ok found → found.length ≤ n) :
    (p.afterLookup plan fetched r).left plan ≤ 2 * n := by
  unfold afterLookup
  cases r with
  | error e =>
    dsimp only
    split
    · exact Nat.zero_le _
    · rw [left_leaveOut fun q => left_turn plan q fetched]
      exact Nat.zero_le _
  | ok found => exact Nat.le_trans (left_reportAll_le ..) (Nat.mul_le_mul_left 2 (hr found rfl))

omit [Entity ρ] in
theorem left_afterReport_le (plan : Plan) (p : Pass ρ) (fetched : Nat)
    (rest : List (Int × Mismatch))
    (r : Except Error Unit) : (p.afterReport plan fetched rest r).left plan ≤ 2 * rest.length := by
  unfold afterReport
  split
  · exact Nat.zero_le _
  · exact left_reportAll_le ..

theorem length_dedup_le (rows : List ρ) : (dedup rows).length ≤ rows.length := by
  induction rows with
  | nil => exact Nat.le_refl _
  | cons r rest ih =>
    rw [dedup, List.length_cons, List.length_cons]
    exact Nat.succ_le_succ (Nat.le_trans (List.length_filter_le ..) ih)

/-- In a page there are no more mismatches than rows. -/
theorem length_mismatches_le (way : Way) (page rows : List ρ) :
    (way.mismatches page rows).length ≤ page.length := by
  cases way with
  | baseToTarget => exact List.length_filterMap_le ..
  | targetToBase =>
    rw [Way.mismatches, targetMismatches, List.length_map]
    exact List.length_filter_le ..

/-! ### Moves -/

/-- A call that begins is the next one. -/
theorem Reads.begin (h : p.Reads plan rows looked) (hstop : m.stopped = false)
    (hfl : p.flight = none) (hstep : p.step plan m d = some (d', p')) :
    ∃ looked', p'.Reads plan rows looked' ∧
      plan.asked p.way rows looked' =
        plan.asked p.way rows looked ++ (p.act plan m d).call?.toList ∧
      p'.left plan + 1 + plan.perPage * looked.length ≤
        p.left plan + plan.perPage * looked'.length := by
  obtain ⟨f, rfl⟩ := begun_of_step hstop hfl hstep
  unfold Reads at h
  cases hph : p.phase with
  | reading =>
    simp only [hph, hfl] at h
    obtain ⟨before, hnext, rfl⟩ := h
    refine ⟨looked ++ [false], ?_, ?_, ?_⟩
    · simp only [Reads]
      exact ⟨looked, ⟨hnext.place, hnext.limit, hnext.count⟩, rfl⟩
    · have hquery : p.pageQuery plan = ⟨looked.length * plan.batch, plan.batch,
          plan.watermark p.way⟩ := by
        rw [pageQuery, hnext.place]
        cases p.way <;> rfl
      rw [Plan.asked_concat, Asks.act (.page hph), hfl, pageSide_eq, hquery]
      rfl
    · rw [List.length_append, List.length_singleton, Nat.mul_add_one, ← Nat.add_assoc]
      simp only [left, hph, hfl, Plan.perPage]
      omega
  | comparing fetched page =>
    simp only [hph, hfl, Option.isSome_none] at h
    obtain ⟨before, hnext, rfl, hfetched, hpage⟩ := h
    refine ⟨before ++ [true], ?_, ?_, ?_⟩
    · simp only [Reads]
      exact ⟨before, ⟨hnext.place, hnext.limit, hnext.count⟩, rfl, hfetched, hpage⟩
    · rw [Plan.asked_concat_true, ← hpage]
      congr 1
      cases hway : p.way with
      | baseToTarget =>
        rw [Asks.act (.rows hph hway), hfl]
        rfl
      | targetToBase =>
        rw [Asks.act (.ids hph hway), hfl]
        rfl
    · simp only [left, hph, hfl, List.length_append, List.length_singleton]
      omega
  | reporting fetched id kind rest =>
    simp only [hph] at h
    obtain ⟨before, mark, hnext, rfl, hfetched⟩ := h
    refine ⟨before ++ [mark], ?_, ?_, ?_⟩
    · simp only [Reads]
      exact ⟨before, mark, ⟨hnext.place, hnext.limit, hnext.count⟩, rfl, hfetched⟩
    · simp [act, hph, hfl, Act.call?]
    · simp only [left, hph, hfl]
      omega
  | pausing => simp only [hph] at h
  | done r =>
    rw [step_done hph] at hstep
    cases hstep

/-- An answer takes from the moves for the page that was asked for. -/
theorem Reads.answer (h : p.Reads plan rows looked) (hplan : plan.Once)
    (hrows : plan.scanned d p.way = rows) {f : Flight} (hfl : p.flight = some f)
    (hstep : p.step plan m d = some (d', p')) :
    p'.Reads plan rows looked ∧ p'.left plan < p.left plan := by
  have hahead {n : Nat} (hplace : p.offset = n * plan.batch) :
      p.ahead plan d = plan.page rows n := by
    rw [ahead, hrows, hplace]
    rfl
  unfold Reads at h
  have hm := fared_of_step hstep
  generalize p.reply? plan m d = reply at hm
  cases hm with
  | begun _ hnone =>
    rw [hfl] at hnone
    cases hnone
  | paged hph =>
    simp only [hph, hfl, Option.isSome_some, if_true] at h
    obtain ⟨before, hnext, rfl⟩ := h
    refine ⟨?_, ?_⟩
    · rw [hahead hnext.place]
      exact reads_read hplan hnext
    · simp only [left, hph, hfl]
      exact Nat.lt_succ_of_le (left_afterPage_le ..)
  | unread hph =>
    simp only [hph, hfl, Option.isSome_some, if_true] at h
    obtain ⟨before, hnext, rfl⟩ := h
    refine ⟨reads_unread hnext _, ?_⟩
    simp only [left, hph, hfl]
    exact Nat.lt_succ_of_le (left_afterPage_le ..)
  | @compared _ fetched page hph =>
    simp only [hph] at h
    obtain ⟨before, hnext, rfl, hfetched, hpage⟩ := h
    have hfound : (p.way.mismatches page (plan.others d p.way)).length ≤ plan.batch := by
      refine Nat.le_trans (length_mismatches_le ..) (hpage ▸ Nat.le_trans (length_dedup_le _) ?_)
      exact List.length_take_le ..
    refine ⟨reads_reportAll hplan _ hnext hfetched _, ?_⟩
    simp only [left, hph, hfl]
    refine Nat.lt_succ_of_le (left_afterLookup_le _ _ _ fun found heq => ?_)
    cases heq
    exact hfound
  | uncompared hph =>
    simp only [hph] at h
    obtain ⟨before, hnext, rfl, hfetched, -⟩ := h
    refine ⟨reads_uncompared hplan _ hnext hfetched _, ?_⟩
    simp only [left, hph, hfl]
    refine Nat.lt_succ_of_le (left_afterLookup_le _ _ _ fun found heq => ?_)
    cases heq
  | reported hph | unreported hph =>
    simp only [hph] at h
    obtain ⟨before, mark, hnext, rfl, hfetched⟩ := h
    refine ⟨reads_reported hplan mark hnext hfetched _ _, ?_⟩
    simp only [left, hph, hfl]
    exact Nat.lt_succ_of_le (left_afterReport_le ..)
  | rested hph | disturbed hph => simp only [hph] at h

/-- A move makes the next call or none, and takes from the moves for the pages that were asked
for. -/
theorem Reads.step (h : p.Reads plan rows looked) (hplan : plan.Once)
    (hrows : plan.scanned d p.way = rows) (hstop : m.stopped = false)
    (hstep : p.step plan m d = some (d', p')) :
    ∃ looked', p'.Reads plan rows looked' ∧
      plan.asked p.way rows looked' =
        plan.asked p.way rows looked ++ (p.act plan m d).call?.toList ∧
      p'.left plan + 1 + plan.perPage * looked.length ≤
        p.left plan + plan.perPage * looked'.length := by
  cases hfl : p.flight with
  | none => exact h.begin hstop hfl hstep
  | some f =>
    obtain ⟨hreads, hlt⟩ := h.answer hplan hrows hfl hstep
    refine ⟨looked, hreads, ?_, Nat.add_le_add_right hlt _⟩
    rw [call?_act_of_flight hfl, Option.toList_none, List.append_nil]

end Pass

end Scan

/-! ## Watches -/

namespace Watch

/-- A watch of a scan in which a direction goes through some rows. -/
structure Scans (plan : Scan.Plan) (way : Scan.Way) (rows : List ρ) (w : Watch ρ) : Prop where
  planned : w.scan.plan = plan
  own : (w.scan.pass way).way = way
  scanned : plan.scanned w.site way = rows

/-- A watch of a scan in which a direction has asked for pages of some rows, and has looked up the
rows of those pages that are marked. -/
structure Asks (plan : Scan.Plan) (way : Scan.Way) (rows : List ρ) (looked : List Bool)
    (w : Watch ρ) :
    Prop extends w.Scans plan way rows where
  pass : (w.scan.pass way).Reads plan rows looked

variable {plan : Scan.Plan} {way : Scan.Way} {rows : List ρ} {looked : List Bool} {w : Watch ρ}
  {x : Incident ρ}

theorem scans_start (plan : Scan.Plan) (d : Deployment ρ) (way : Scan.Way) :
    ({ site := d, scan := { plan } } : Watch ρ).Scans plan way (plan.scanned d way) :=
  ⟨rfl, by cases way <;> rfl, rfl⟩

theorem asks_start (d : Deployment ρ) (way : Scan.Way) (hplan : plan.Once)
    (hrows : rows = plan.scanned d way) :
    ({ site := d, scan := { plan } } : Watch ρ).Asks plan way rows [] := by
  refine ⟨hrows ▸ scans_start plan d way, ?_⟩
  cases way <;> exact ⟨[], ⟨(Nat.zero_mul _).symm, hplan.limit, Nat.zero_le _⟩, rfl⟩

/-- An incident leaves a direction as it is, which does nothing, or is a move of its pass. -/
theorem stepped_perform (w : Watch ρ) (way : Scan.Way) (x : Incident ρ) :
    (w.perform x).scan.pass way = w.scan.pass way ∧ w.act? way x = none ∨
      ∃ now, (w.scan.pass way).step w.scan.plan ⟨now, false⟩ w.site =
          some ((w.perform x).site, (w.perform x).scan.pass way) ∧
        w.act? way x = some ((w.scan.pass way).act w.scan.plan ⟨now, false⟩ w.site) := by
  cases x with
  | put | remove | publish | plan | planBroker => exact .inl ⟨rfl, rfl⟩
  | turn other now =>
    rcases w.act?_turn other now with ⟨heq, hnone⟩ | ⟨site, p, -, hstep, heq, hact⟩
    · exact .inl ⟨by rw [heq], hnone way⟩
    by_cases hway : way = other
    · subst hway
      refine .inr ⟨now, ?_, (hact way).trans (if_pos rfl)⟩
      rw [heq, Scan.pass_setPass, if_pos rfl]
      exact hstep
    · refine .inl ⟨?_, (hact way).trans (if_neg hway)⟩
      rw [heq, Scan.pass_setPass, if_neg hway]

theorem Scans.perform (h : w.Scans plan way rows) (hx : ∀ id, ¬x.Writes id) :
    (w.perform x).Scans plan way rows := by
  refine ⟨(w.plan_perform x).trans h.planned, ?_, (plan.scanned_congr way ?_).trans h.scanned⟩
  · rcases w.stepped_perform way x with ⟨hpass, -⟩ | ⟨now, hstep, -⟩
    · rw [hpass, h.own]
    · rw [Scan.Pass.way_of_step hstep, h.own]
  · rw [contents_perform, Incident.edit_of_not_writes hx]

theorem Asks.perform (h : w.Asks plan way rows looked) (hplan : plan.Once)
    (hx : ∀ id, ¬x.Writes id) :
    ∃ looked', (w.perform x).Asks plan way rows looked' ∧
      plan.asked way rows looked' =
        plan.asked way rows looked ++ (w.act? way x).toList.filterMap Scan.Act.call? ∧
      ((w.perform x).scan.pass way).left plan + (w.act? way x).toList.length +
          plan.perPage * looked.length ≤
        (w.scan.pass way).left plan + plan.perPage * looked'.length := by
  have hscans := h.toScans.perform hx
  rcases w.stepped_perform way x with ⟨hpass, hnone⟩ | ⟨now, hstep, hact⟩
  · refine ⟨looked, ⟨hscans, hpass ▸ h.pass⟩, ?_, ?_⟩
    · rw [hnone, Option.toList_none, List.filterMap_nil, List.append_nil]
    · rw [hpass, hnone]
      exact Nat.le_refl _
  · rw [h.planned] at hstep hact
    obtain ⟨looked', hreads, hasked, hleft⟩ := h.pass.step hplan (h.own.symm ▸ h.scanned) rfl hstep
    rw [h.own] at hasked
    refine ⟨looked', ⟨hscans, hreads⟩, ?_, ?_⟩
    · rw [hasked, hact, Option.toList_some, List.filterMap_cons]
      cases ((w.scan.pass way).act plan ⟨now, false⟩ w.site).call? <;> rfl
    · rw [hact]
      exact hleft

/-- A direction asks for one page after the other, and does not make more moves than these take. -/
theorem Asks.after (h : w.Asks plan way rows looked) (hplan : plan.Once)
    {incidents : List (Incident ρ)} (hincidents : ∀ x ∈ incidents, ∀ id, ¬x.Writes id) :
    ∃ looked', (w.after incidents).Asks plan way rows looked' ∧
      plan.asked way rows looked' = plan.asked way rows looked ++ w.calls way incidents ∧
      ((w.after incidents).scan.pass way).left plan + (w.acts way incidents).length +
          plan.perPage * looked.length ≤
        (w.scan.pass way).left plan + plan.perPage * looked'.length := by
  induction incidents generalizing w looked with
  | nil => exact ⟨looked, h, (List.append_nil _).symm, Nat.le_refl _⟩
  | cons x rest ih =>
    obtain ⟨hx, hrest⟩ := List.forall_mem_cons.mp hincidents
    obtain ⟨marks, hnext, hasked, hleft⟩ := h.perform hplan hx
    obtain ⟨looked', hafter, hasked', hleft'⟩ := ih hnext hrest
    refine ⟨looked', hafter, ?_, ?_⟩
    · rw [hasked', hasked, List.append_assoc, calls, calls, acts, List.filterMap_append]
    · rw [acts, List.length_append, show w.after (x :: rest) = (w.perform x).after rest from rfl]
      omega

/-- Of a scan that goes through the rows once, over stores to which nobody writes, whatever becomes
of its calls: each direction asks for one page after the other, for no more than there are full
pages and pages that may be left out in a row, and looks the rows of each of them up at most once,
which is all that the stores see of it; it makes no more than so many moves for each page, and can
go on until it ends or the scan is over. It has not broken down before it ends if there is room for
the pages that may be left out in a row. -/
theorem reads_bounded {config : Config} (hvalid : config.validate = .ok ()) {base : Side}
    {since : Option Int} {plan : Scan.Plan} (hplan : plan = .ofSide config base since .oneShot)
    {d : Deployment ρ} {way : Scan.Way} {rows : List ρ} (hrows : rows = plan.scanned d way)
    {start w : Watch ρ} (hstart : start = { site := d, scan := { plan } })
    {incidents : List (Incident ρ)}
    (hincidents : ∀ x ∈ incidents, ∀ id, ¬x.Writes id) (hw : w = start.after incidents) :
    (∃ looked : List Bool, start.calls way incidents = plan.asked way rows looked ∧
      looked.length ≤ rows.length / config.batchSize + config.maxConsecutiveFailures ∧
      (start.calls way incidents).countP (·.2.op = "find_page") = looked.length ∧
      (start.acts way incidents).length ≤ plan.perPage * looked.length) ∧
    (∀ side, (w.site.store side).history.filter (·.op = way.op plan side) =
      (d.store side).history.filter (·.op = way.op plan side) ++
        ((start.calls way incidents).filter (·.1 = side)).map Prod.snd) ∧
    ((w.scan.pass way).result? = none →
      ((rows.length / config.batchSize + config.maxConsecutiveFailures - 1) * config.batchSize <
        UInt64.size → (w.scan.pass way).isBroken = false) ∧
      (w.scan.isOver = false →
        ∃ t, ∀ now, t ≤ now → (w.scan.stepWay way ⟨now, false⟩ w.site).isSome)) := by
  have honce : plan.Once := by
    subst hplan
    exact ⟨rfl, config.batchSize_pos hvalid, config.maxConsecutiveFailures_pos hvalid⟩
  have hbegun : start.Asks plan way rows [] := hstart ▸ asks_start d way honce hrows
  obtain ⟨looked, hreads, hasked, hmoves⟩ := hbegun.after honce hincidents
  rw [← hw] at hreads
  have hcalls : start.calls way incidents = plan.asked way rows looked := hasked.symm
  refine ⟨⟨looked, hcalls, ?_, ?_, ?_⟩, fun side => ?_,
    fun hway => ⟨fun hsize => ?_, fun hlive => Scan.stepWay_isSome hlive hway⟩⟩
  · have hle := hreads.pass.length_le
    subst hplan
    exact hle
  · rw [hcalls]
    exact Scan.Plan.countP_asked looked
  · have hnone : (start.scan.pass way).left plan = 0 := by
      rw [hstart]
      cases way <;> rfl
    rw [hnone, List.length_nil] at hmoves
    omega
  · rw [hw, history_after hbegun.planned (hstart ▸ apart_start ..) incidents way side, hstart]
  · obtain ⟨n, hnext⟩ := hreads.pass.exists_next hway
    subst hplan
    exact Scan.Pass.isBroken_eq_false_iff.mpr (hnext.offset_lt hsize)

/-- Pages of two rows: there are three rows, and three reads in a row are refused behind the full
page. -/
theorem reads_bounded_sample :
    let config : Config := { batchSize := 2 }
    let plan : Scan.Plan := .ofSide config .src none .oneShot
    let rows : List Account := [⟨1, "ann", 10, 5⟩, ⟨2, "bob", 20, 6⟩, ⟨3, "cid", 30, 7⟩]
    let down : Option Error := some (.store "down")
    let d : Deployment Account :=
      { src := (Store.ofTable "src" rows).setScript "find_page" [none, down, down, down]
        dst := .ofTable "dst" [] }
    let start : Watch Account := { site := d, scan := { plan } }
    let incidents : List (Incident Account) := List.replicate 14 (.turn .baseToTarget 0)
    config.validate = .ok () ∧
      (∀ x ∈ incidents, ∀ id, ¬x.Writes id) ∧
      ((start.after incidents).scan.pass .baseToTarget).result? = some (.ok ()) ∧
      start.calls .baseToTarget incidents =
        plan.asked .baseToTarget rows [true, false, false, false] ∧
      (∀ side, ((start.after incidents).site.store side).history.filter
          (·.op = Scan.Way.op plan .baseToTarget side) =
        ((start.calls .baseToTarget incidents).filter (·.1 = side)).map Prod.snd) ∧
      (start.calls .baseToTarget incidents).countP (·.2.op = "find_page") ≤ 3 / 2 + 3 := by
  intro config plan rows down d start incidents
  have hvalid : config.validate = .ok () := by decide +kernel
  have hincidents : ∀ x ∈ incidents, ∀ id, ¬x.Writes id := by
    intro x hx id hwrites
    obtain ⟨-, rfl⟩ := List.mem_replicate.mp hx
    exact hwrites
  have hrows : rows = plan.scanned d .baseToTarget := by decide +kernel
  obtain ⟨⟨looked, -, hle, hcount, -⟩, hhistory, -⟩ :=
    reads_bounded hvalid rfl hrows rfl hincidents rfl
  refine ⟨hvalid, hincidents, ?_, ?_, fun side => ?_, hcount ▸ hle⟩
  · decide +kernel
  · decide +kernel
  · have hnone : (d.store side).history = [] := by cases side <;> rfl
    rw [hhistory side, hnone, List.filter_nil, List.nil_append]

end Watch

end Cutover
