import Cutover.Proofs.Appends

/-!
# Rows that come in after a failed read

A page of the base that cannot be read is passed by at its full size, whatever rows it has. From
then on, until the next failed read, the pages that are read are the rows between the offset behind
the failed page and the offset that was come to (`Watch.Since`), so a row that comes in is read once
if its place is not before the former offset, and otherwise it is not read. Main statement:
`Watch.arrivals_read`. A read that fails when all rows have been read puts the offset behind the end
of the rows, and a row that comes in there is not read (`Watch.arrival_unread`).
-/

namespace Cutover

variable {ρ : Type} [Entity ρ]

/-! ## Pages of different rows -/

/-- Among pages of different rows no more than one has an id. -/
theorem Rows.countP_pages {pages : List (List ρ)} (h : Rows.Distinct pages.flatten) (id : Int) :
    pages.countP (fun page => page.any fun s => Entity.id s == id) =
      if id ∈ pages.flatten.map Entity.id then 1 else 0 := by
  induction pages with
  | nil => rfl
  | cons page rest ih =>
    rw [List.flatten_cons] at h ⊢
    obtain ⟨-, hrest, hapart⟩ := List.pairwise_append.mp h
    have hany : (page.any fun s => Entity.id s == id) = true ↔ id ∈ page.map Entity.id := by simp
    rw [List.countP_cons, ih hrest, List.map_append]
    by_cases hid : id ∈ page.map Entity.id
    · have hnone : id ∉ rest.flatten.map Entity.id := by
        intro hmem
        obtain ⟨s, hs, rfl⟩ := List.mem_map.mp hid
        obtain ⟨q, hq, heq⟩ := List.mem_map.mp hmem
        exact hapart s hs q hq heq.symm
      rw [if_pos (hany.mpr hid), if_neg hnone, if_pos (List.mem_append_left _ hid)]
    · have hiff : id ∈ page.map Entity.id ++ rest.flatten.map Entity.id ↔
          id ∈ rest.flatten.map Entity.id := by
        rw [List.mem_append]
        exact or_iff_right hid
      rw [if_neg (hany.not.mpr hid), if_congr hiff rfl rfl, Nat.add_zero]

omit [Entity ρ] in
/-- The rows between two offsets stay the same when rows come in behind the second. -/
theorem take_drop_of_front {view view' : List ρ} (h : view <+: view') {first last : Nat}
    (hlast : last ≤ view.length ∨ last = first) :
    (view'.take last).drop first = (view.take last).drop first := by
  obtain ⟨new, rfl⟩ := h
  rcases hlast with hle | rfl
  · rw [List.take_append_of_le_length hle]
  · rw [List.drop_eq_nil_of_le (List.length_take_le ..),
      List.drop_eq_nil_of_le (List.length_take_le ..)]

omit [Entity ρ] in
/-- A page of the rows behind an offset follows the rows before it. -/
theorem take_drop_append {view : List ρ} {first last : Nat} (hle : first ≤ last)
    (hlast : last ≤ view.length) {page : List ρ} (hpage : page <+: view.drop last) :
    (view.take last).drop first ++ page = (view.take (last + page.length)).drop first := by
  rw [List.take_add, ← List.prefix_iff_eq_take.mp hpage, List.drop_append_of_le_length]
  rw [List.length_take]
  omega

/-! ## Passes -/

namespace Scan.Pass

variable {plan : Plan} {m : Moment} {d d' : Deployment ρ} {p p' : Pass ρ} {reply : Option (Reply ρ)}

omit [Entity ρ] in
theorem next_turn (plan : Plan) (p : Pass ρ) (fetched : Nat) :
    (∃ r, (p.turn plan fetched).phase = .done r) ∨
      (p.turn plan fetched).next = p.offset + fetched := by
  unfold turn
  split
  · exact .inr rfl
  · cases plan.mode with
    | oneShot => exact .inl ⟨_, rfl⟩
    | continuous poll => exact .inr rfl

omit [Entity ρ] in
theorem next_reportAll (plan : Plan) (p : Pass ρ) (fetched : Nat) (found : List (Int × Mismatch)) :
    (∃ r, (p.reportAll plan fetched found).phase = .done r) ∨
      (p.reportAll plan fetched found).next = p.offset + fetched := by
  cases found with
  | nil => exact next_turn plan { p with failures := 0 } fetched
  | cons x rest => exact .inr rfl

/-- A pass goes on behind the page that it is told of, and otherwise stays where it is, unless a
page could not be read. -/
theorem Fared.next (hm : Fared plan m d p reply d' p') (hread : reply ≠ some .unread) :
    (∃ r, p'.phase = .done r) ∨
      reply.toList.filterMap Reply.page? = [] ∧ p'.next = p.next ∨
      p.next = p.offset ∧ reply.toList.filterMap Reply.page? = [p.ahead plan d] ∧
        p'.next = p.next + (p.ahead plan d).length := by
  cases hm with
  | begun => exact .inr (.inl ⟨rfl, rfl⟩)
  | paged hph =>
    have hnext : p.next = p.offset := by rw [Pass.next, hph]
    rw [hnext]
    unfold afterPage
    dsimp only
    split
    · exact (next_reportAll plan p _ []).imp_right fun h => .inr ⟨rfl, rfl, h⟩
    · exact .inr (.inr ⟨rfl, rfl, rfl⟩)
  | unread => exact absurd rfl hread
  | @compared _ fetched page hph =>
    have hnext : p.next = p.offset + fetched := by rw [Pass.next, hph]
    rw [hnext]
    exact (next_reportAll plan p fetched _).imp_right fun h => .inl ⟨rfl, h⟩
  | @uncompared _ fetched page e hph =>
    have hnext : p.next = p.offset + fetched := by rw [Pass.next, hph]
    rw [hnext]
    simp only [afterLookup]
    split
    · exact .inl ⟨_, rfl⟩
    · unfold leaveOut
      dsimp only
      split
      · exact .inl ⟨_, rfl⟩
      · exact (next_turn plan { p with failures := p.failures + 1 } fetched).imp_right
          fun h => .inl ⟨rfl, h⟩
  | @reported fetched id kind rest hph =>
    have hnext : p.next = p.offset + fetched := by rw [Pass.next, hph]
    rw [hnext]
    exact (next_reportAll plan p fetched rest).imp_right fun h => .inl ⟨rfl, h⟩
  | @unreported b e fetched id kind rest hph =>
    have hnext : p.next = p.offset + fetched := by rw [Pass.next, hph]
    rw [hnext]
    unfold afterReport
    split
    · exact .inl ⟨_, rfl⟩
    · exact (next_reportAll plan p fetched rest).imp_right fun h => .inl ⟨rfl, h⟩
  | rested hph =>
    have hnext : p.next = p.offset := by rw [Pass.next, hph]
    exact .inr (.inl ⟨rfl, hnext.symm⟩)
  | disturbed => exact .inl ⟨_, rfl⟩

/-- A pass that is not told of a page goes on behind it at its full size, unless it ends. -/
theorem Fared.next_of_unread (hm : Fared plan m d p (some .unread) d' p') :
    (∃ r, p'.phase = .done r) ∨ p'.next = p.next + plan.batch := by
  cases hm with
  | unread hph =>
    have hnext : p.next = p.offset := by rw [Pass.next, hph]
    rw [hnext]
    simp only [afterPage]
    split
    · exact .inl ⟨_, rfl⟩
    · unfold leaveOut
      dsimp only
      split
      · exact .inl ⟨_, rfl⟩
      · exact .inr rfl

/-- A pass that has ended does not move. -/
theorem Fared.not_done (hm : Fared plan m d p reply d' p') (r : Except Error Unit) :
    p.phase ≠ .done r := by
  cases hm with
  | begun hdone => exact hdone r
  | paged hph | unread hph | compared hph | uncompared hph | reported hph | unreported hph
  | rested hph | disturbed hph => simp [hph]

end Scan.Pass

/-! ## Watches -/

namespace Watch

variable {plan : Scan.Plan} {o : Nat} {seen : List (List ρ)} {w : Watch ρ} {x : Incident ρ}

/-- A watch whose pass through the base has ended, or has read the rows from an offset on up to
where it has come. -/
structure Since (plan : Scan.Plan) (o : Nat) (seen : List (List ρ)) (w : Watch ρ) : Prop where
  planned : w.scan.plan = plan
  apart : w.Apart
  read : (∃ r, w.scan.forth.phase = .done r) ∨
    seen.flatten = ((plan.scanned w.site .baseToTarget).take w.offset).drop o ∧ o ≤ w.offset ∧
      (w.offset ≤ (plan.scanned w.site .baseToTarget).length ∨ w.offset = o)

theorem Since.perform (h : w.Since plan o seen) (hx : x.Extends plan.base w)
    (hread : w.reply? .baseToTarget x ≠ some .unread) :
    (w.perform x).Since plan o
      (seen ++ (w.reply? .baseToTarget x).toList.filterMap Scan.Reply.page?) := by
  have hscanned : plan.scanned w.site .baseToTarget <+:
      plan.scanned (w.perform x).site .baseToTarget := scanned_perform .baseToTarget hx
  refine ⟨(w.plan_perform x).trans h.planned, h.apart.perform x, ?_⟩
  have hoffset : (w.perform x).offset = ((w.perform x).scan.pass .baseToTarget).next := rfl
  change (∃ r, ((w.perform x).scan.pass .baseToTarget).phase = .done r) ∨ _
  rw [hoffset]
  rcases w.fared_perform .baseToTarget x with ⟨hforth, hreply⟩ | ⟨now, p, rfl, hforth, hm⟩
  · rw [hforth, hreply, Option.toList_none, List.filterMap_nil, List.append_nil]
    refine h.read.imp_right fun ⟨hseen, hle, hlast⟩ => ⟨?_, hle, ?_⟩
    · rw [hseen]
      exact (take_drop_of_front hscanned hlast).symm
    · exact hlast.imp_left fun hle => Nat.le_trans hle hscanned.length_le
  · have hsame : plan.scanned (w.perform (.turn .baseToTarget now)).site .baseToTarget =
        plan.scanned w.site .baseToTarget := plan.scanned_congr _ (w.contents_perform _ _)
    obtain ⟨hseen, hle, hlast⟩ := h.read.resolve_left fun ⟨r, hr⟩ => hm.not_done r hr
    rw [hsame, hforth]
    rcases hm.next hread with hdone | ⟨hnone, hnext⟩ | ⟨hhere, hpage, hnext⟩
    · exact .inl hdone
    · rw [hnone, hnext, List.append_nil]
      exact .inr ⟨hseen, hle, hlast⟩
    · have hahead : (w.scan.pass .baseToTarget).ahead w.scan.plan w.site =
          ((plan.scanned w.site .baseToTarget).drop w.offset).take plan.batch := by
        rw [Scan.Pass.ahead, h.apart.way, h.planned, ← hhere]
        rfl
      have hlength : ((w.scan.pass .baseToTarget).ahead w.scan.plan w.site).length =
          min plan.batch ((plan.scanned w.site .baseToTarget).length - w.offset) := by
        rw [hahead, List.length_take, List.length_drop]
      have hfront : (w.scan.pass .baseToTarget).ahead w.scan.plan w.site <+:
          (plan.scanned w.site .baseToTarget).drop w.offset := hahead ▸ List.take_prefix ..
      have hgo : p.next = w.offset +
          ((w.scan.pass .baseToTarget).ahead w.scan.plan w.site).length :=
        hnext
      rw [hpage, hgo, List.flatten_append, List.flatten_singleton, hseen]
      refine .inr ⟨?_, by omega, by omega⟩
      rcases Nat.lt_or_ge (plan.scanned w.site .baseToTarget).length w.offset with hout | hin
      · -- behind the end of the rows there is only an empty page
        have hnil : (w.scan.pass .baseToTarget).ahead w.scan.plan w.site = [] :=
          List.eq_nil_of_length_eq_zero (by omega)
        rw [hnil, List.append_nil]
        rfl
      · exact take_drop_append hle hin hfront

/-- A watch with nothing read yet since it came to its offset. -/
theorem since_offset (hplan : w.scan.plan = plan) (hapart : w.Apart) :
    w.Since plan w.offset [] := by
  refine ⟨hplan, hapart, .inr ⟨?_, Nat.le_refl _, .inr rfl⟩⟩
  rw [List.drop_eq_nil_of_le (List.length_take_le ..)]
  rfl

/-- A page that cannot be read is passed by. -/
theorem since_of_unread (hplan : w.scan.plan = plan) (hapart : w.Apart)
    (hx : w.reply? .baseToTarget x = some .unread) :
    (w.perform x).Since plan (w.offset + plan.batch) [] := by
  have hplan' := (w.plan_perform x).trans hplan
  have hapart' := hapart.perform x
  rcases w.fared_perform .baseToTarget x with ⟨-, hnone⟩ | ⟨now, p, -, hp, hm⟩
  · rw [hnone] at hx
    cases hx
  · rw [hx, hplan] at hm
    rcases hm.next_of_unread with ⟨r, hdone⟩ | hnext
    · rw [← hp] at hdone
      exact ⟨hplan', hapart', .inl ⟨r, hdone⟩⟩
    · have hoffset : (w.perform x).offset = w.offset + plan.batch := by
        rw [← hp] at hnext
        exact hnext
      exact hoffset ▸ since_offset hplan' hapart'

theorem Since.after (h : w.Since plan o []) {incidents : List (Incident ρ)}
    (hall : w.Throughout (fun w x => x.Extends plan.base w) incidents)
    (hread : .unread ∉ w.replies .baseToTarget incidents) :
    (w.after incidents).Since plan o (w.pages .baseToTarget incidents) := by
  refine (hall.and (throughout_of_not_mem_replies hread)).induction
    (I := fun told w => w.Since plan o ((told .baseToTarget).filterMap Scan.Reply.page?))
    (fun hsince ⟨hx, hunread⟩ => ?_) h
  rw [List.filterMap_append]
  exact hsince.perform hx hunread

/-- When there are no more rows, a row of the base has been read since then if its place is not
before the offset. -/
theorem Since.countP_pages (h : w.Since plan o seen) (hbatch : 0 < plan.batch) {b : Table ρ}
    (hb : (w.site.store plan.base).contents = .table b)
    (hx : w.reply? .baseToTarget x = some (.page [])) {r : ρ}
    (hr : r ∈ plan.scanned w.site .baseToTarget) :
    seen.countP (fun page => page.any fun s => Entity.id s == Entity.id r) =
      if o ≤ w.place (Entity.id r) then 1 else 0 := by
  have hrows : plan.scanned w.site .baseToTarget = (b.view plan.since).rows := by
    rw [Scan.Plan.scanned, Scan.Plan.pages, Store.rows, hb, Table.rows_view]
    rfl
  obtain ⟨hph, hahead⟩ := w.ahead_of_reply? hx
  obtain ⟨hseen, -, -⟩ := h.read.resolve_left (by
    rintro ⟨q, hq⟩
    have : (w.scan.pass .baseToTarget).phase = .done q := hq
    rw [hph] at this
    cases this)
  have hoffset : (w.scan.pass .baseToTarget).offset = w.offset := by
    have : (w.scan.pass .baseToTarget).next = (w.scan.pass .baseToTarget).offset := by
      rw [Scan.Pass.next, hph]
    exact this.symm
  have hend : (b.view plan.since).rows.length ≤ w.offset := by
    have hlength := congrArg List.length hahead
    rw [Scan.Pass.ahead, h.apart.way, h.planned, hrows, hoffset, List.length_take, List.length_drop,
      List.length_nil] at hlength
    omega
  rw [hrows, List.drop_take] at hseen
  rw [hrows] at hr
  have hdistinct : Rows.Distinct seen.flatten := hseen ▸ (b.view plan.since).distinct.page ..
  rw [Rows.countP_pages hdistinct, hseen, place_eq h.planned hb]
  refine if_congr ⟨fun hmem => ?_, fun hle => ?_⟩ rfl rfl
  · obtain ⟨s, hs, hid⟩ := List.mem_map.mp hmem
    rw [← hid]
    exact Table.le_rank_of_mem_drop (List.mem_of_mem_take hs)
  · have hlt := Table.rank_lt_length hr
    exact List.mem_map_of_mem (Table.mem_page_of_rank hr hle (by omega))

/-- The rows of a page that a direction was told of are still among those that it looks at. -/
theorem mem_scanned_of_pages (way : Scan.Way) (hplan : w.scan.plan = plan) (hapart : w.Apart)
    {incidents : List (Incident ρ)}
    (hall : w.Throughout (fun w x => x.Extends (plan.pages way) w) incidents) {page : List ρ}
    (hpage : page ∈ w.pages way incidents) {s : ρ} (hs : s ∈ page) :
    s ∈ plan.scanned (w.after incidents).site way := by
  have h := hall.induction
    (I := fun told w => w.scan.plan = plan ∧ w.Apart ∧
      ∀ page ∈ (told way).filterMap Scan.Reply.page?, ∀ s ∈ page, s ∈ plan.scanned w.site way)
    (fun {told w x} ⟨hplan, hapart, hold⟩ hx => by
      have hscanned := scanned_perform way hx
      refine ⟨(w.plan_perform x).trans hplan, hapart.perform x,
        fun page hpage s hs => hscanned.subset ?_⟩
      rw [List.filterMap_append, List.mem_append] at hpage
      rcases hpage with hpage | hpage
      · exact hold page hpage s hs
      · obtain ⟨reply, hreply, hpage⟩ := List.mem_filterMap.mp hpage
        rw [Option.mem_toList] at hreply
        cases reply with
        | page rows =>
          cases hpage
          obtain ⟨-, rfl⟩ := w.ahead_of_reply? hreply
          rw [Scan.Pass.ahead, hplan, hapart.way] at hs
          exact List.mem_of_mem_drop (List.mem_of_mem_take hs)
        | unread | compared | uncompared => cases hpage)
    ⟨hplan, hapart, by simp⟩
  exact h.2.2 page hpage s hs

theorem table_after {side : Side} {t : Table ρ} (h : (w.site.store side).contents = .table t)
    (incidents : List (Incident ρ)) :
    ∃ t', ((w.after incidents).site.store side).contents = .table t' := by
  induction incidents generalizing w t with
  | nil => exact ⟨t, h⟩
  | cons x rest ih =>
    obtain ⟨t', ht', -⟩ := x.edit_table side t
    exact ih (by rw [contents_perform, h, ht'])

theorem plan_after (w : Watch ρ) (incidents : List (Incident ρ)) :
    (w.after incidents).scan.plan = w.scan.plan := by
  induction incidents generalizing w with
  | nil => rfl
  | cons x rest ih => exact (ih (w.perform x)).trans (w.plan_perform x)

/-- A row that comes in after the last failed read is read once, or is passed by for good. Let rows
come in at the base with ids above all that are there, while anything else happens, and let `o` be
the offset behind the last page that could not be read, or the first offset if there is none. When
the pass through the base is told that there are no more rows, a row that has come in since then has
been on one of the pages if its place is not before `o`, and otherwise on none. -/
theorem arrivals_read (hbatch : 0 < plan.batch) {d : Deployment ρ} {b : Table ρ}
    (hd : (d.store plan.base).contents = .table b) {start w : Watch ρ}
    (hstart : start = { site := d, scan := { plan } }) {past recent : List (Incident ρ)}
    (hall : start.Throughout (fun w x => x.Extends plan.base w) (past ++ recent))
    (ho : past = [] ∧ o = 0 ∨ ∃ before y, past = before ++ [y] ∧
      (start.after before).reply? .baseToTarget y = some .unread ∧
      o = (start.after before).offset + plan.batch)
    (hrecent : .unread ∉ (start.after past).replies .baseToTarget recent)
    (hw : w = start.after (past ++ recent))
    (hx : w.reply? .baseToTarget x = some (.page [])) {r : ρ}
    (hr : r ∈ plan.scanned w.site .baseToTarget)
    (hnew : Rows.first? (Entity.id r) (start.after past).base = none) :
    (start.pages .baseToTarget (past ++ recent)).countP
        (fun page => page.any fun s => Entity.id s == Entity.id r) =
      if o ≤ w.place (Entity.id r) then 1 else 0 := by
  obtain ⟨hpast, hlater⟩ := throughout_append.mp hall
  rw [after_append] at hw
  have hplan (xs : List (Incident ρ)) : (start.after xs).scan.plan = plan := by
    rw [plan_after, hstart]
  have hapart (xs : List (Incident ρ)) : (start.after xs).Apart :=
    Apart.after (hstart ▸ apart_start d plan) xs
  have hbefore : (start.pages .baseToTarget past).countP
      (fun page => page.any fun s => Entity.id s == Entity.id r) = 0 := by
    -- the row was not there
    refine List.countP_eq_zero.mpr fun page hpage hany => ?_
    obtain ⟨s, hs, hid⟩ := List.any_eq_true.mp hany
    have hmem := mem_scanned_of_pages .baseToTarget (hplan []) (hapart []) hpast hpage hs
    refine Rows.first?_eq_none_iff.mp hnew s ?_ (by simpa using hid)
    rw [base, hplan]
    exact (List.mem_filter.mp hmem).1
  have hfrom : (start.after past).Since plan o [] := by
    rcases ho with ⟨rfl, rfl⟩ | ⟨before, y, rfl, hy, rfl⟩
    · have hzero : (start.after []).offset = 0 := by rw [hstart]; rfl
      exact hzero ▸ since_offset (hplan []) (hapart [])
    · rw [after_append]
      exact since_of_unread (hplan before) (hapart before) hy
  have hsince := hfrom.after hlater hrecent
  rw [← hw] at hsince
  obtain ⟨t, ht⟩ := table_after (w := start) (by rw [hstart]; exact hd) (past ++ recent)
  rw [after_append, ← hw] at ht
  rw [pages_append, List.countP_append, hbefore, Nat.zero_add]
  exact hsince.countP_pages hbatch ht hx hr

/-! ## Samples -/

/-- What makes the next page of the source fail. -/
def sampleRefusal : Incident Account := .plan .src (({} : FaultPlan).arm "find_page" 1)

/-- A scan with pages of one row, of which the first cannot be read: a third row comes in behind it
and is read once. -/
theorem arrivals_read_sample :
    let plan : Scan.Plan := .ofSide { batchSize := 1 } .src (some 5) (.continuous 10)
    let start : Watch Account := { site := sampleWatch.site, scan := { plan } }
    let turn : Incident Account := .turn .baseToTarget 0
    let before := [sampleRefusal, turn]
    let recent := [turn, turn, .put .src ⟨3, "cid", 30, 7⟩] ++ List.replicate 9 turn
    let w := start.after (before ++ [turn] ++ recent)
    let r : Account := ⟨3, "cid", 30, 7⟩
    start.Throughout (fun w x => x.Extends plan.base w) (before ++ [turn] ++ recent) ∧
      (start.after before).reply? .baseToTarget turn = some .unread ∧
      .unread ∉ (start.after (before ++ [turn])).replies .baseToTarget recent ∧
      w.reply? .baseToTarget turn = some (.page []) ∧ r ∈ plan.scanned w.site .baseToTarget ∧
      Rows.first? 3 (start.after (before ++ [turn])).base = none ∧
      (start.pages .baseToTarget (before ++ [turn] ++ recent)).countP
        (fun page => page.any fun s => Entity.id s == 3) = 1 := by
  intro plan start turn before recent w r
  have hall : start.Throughout (fun w x => x.Extends plan.base w) (before ++ [turn] ++ recent) := by
    decide +kernel
  have hunread : (start.after before).reply? .baseToTarget turn = some .unread := by decide +kernel
  have hrecent : .unread ∉ (start.after (before ++ [turn])).replies .baseToTarget recent := by
    decide +kernel
  have hx : w.reply? .baseToTarget turn = some (.page []) := by decide +kernel
  have hr : r ∈ plan.scanned w.site .baseToTarget := by decide +kernel
  have hnew : Rows.first? 3 (start.after (before ++ [turn])).base = none := by decide +kernel
  have hplace : 1 ≤ w.place 3 := by decide +kernel
  refine ⟨hall, hunread, hrecent, hx, hr, hnew, ?_⟩
  have hone : (start.after before).offset + plan.batch = 1 := by decide +kernel
  exact (arrivals_read (o := 1) (by decide) (d := sampleWatch.site) rfl rfl hall
    (.inr ⟨before, turn, rfl, hunread, hone.symm⟩) hrecent rfl hx hr hnew).trans (if_pos hplace)

/-- A row that comes in when a read has failed at the end of the rows is not read: the pass through
the base has read the two rows, cannot read a page, and is told that there are no more rows after a
third one has come in. -/
theorem arrival_unread :
    let turn (now : Nat) : Incident Account := .turn .baseToTarget now
    let past := sampleFirst ++ [sampleRefusal, turn 0, turn 10, turn 10, turn 10]
    let r : Account := ⟨3, "cid", 30, 7⟩
    let recent := [.put .src r, turn 10]
    let w := sampleWatch.after (past ++ recent)
    samplePlan.mode = .continuous 10 ∧ sampleWatch.site.Prompt samplePlan.callLimit ∧
      sampleWatch.Throughout (fun w x => x.Extends samplePlan.base w) (past ++ recent) ∧
      Rows.isSince samplePlan.since r = true ∧ 1 < samplePlan.failureLimit ∧
      sampleWatch.replies .baseToTarget past =
        [.page [⟨1, "ann", 10, 5⟩, ⟨2, "bob", 20, 6⟩], .compared, .unread] ∧
      (sampleWatch.after past).replies .baseToTarget recent = [] ∧
      w.reply? .baseToTarget (turn 10) = some (.page []) ∧
      r ∈ samplePlan.scanned w.site .baseToTarget ∧
      Rows.first? 3 (sampleWatch.after past).base = none ∧
      (sampleWatch.pages .baseToTarget (past ++ recent)).countP
        (fun page => page.any fun s => Entity.id s == 3) = 0 := by
  intro turn past r recent w
  have hall : sampleWatch.Throughout (fun w x => x.Extends samplePlan.base w) (past ++ recent) := by
    decide +kernel
  refine ⟨rfl, Deployment.prompt_ofRows .., hall, rfl, by decide, ?_, ?_, ?_, ?_, ?_, ?_⟩
  · decide +kernel
  · decide +kernel
  · decide +kernel
  · decide +kernel
  · decide +kernel
  · decide +kernel

end Watch

end Cutover
