import Cutover.Proofs.Refusals

/-!
# Scans that leave pages out

Nobody writes while a scan goes through the rows once, and stores refuse calls now and then. A
direction then cuts the rows into pages and goes through them in order; a page is left out if it
cannot be read or its rows cannot be looked up, and what the direction has published are the
differences of the others (`Scan.Pass.Accounts`). Main statement: `Watch.publishes_seen`.
-/

namespace Cutover

variable {ρ : Type} [Entity ρ]

namespace Scan

/-! ## Pages and what becomes of them -/

/-- What becomes of a page. -/
inductive Fate where
  | unread
  /-- Its rows could not be looked up. -/
  | uncompared
  | compared
  deriving DecidableEq, Repr

/-- What becomes of a page by what is told of it. There is nothing to look up for a page without
rows. -/
def Reply.fate? : Reply ρ → Option Fate
  | .page [] | .compared => some .compared
  | .page (_ :: _) => none
  | .unread => some .unread
  | .uncompared => some .uncompared

/-- How many pages in a row were left out in the end. -/
def leftOut (fates : List Fate) : Nat := (fates.reverse.takeWhile (· ≠ .compared)).length

theorem leftOut_concat (fates : List Fate) (fate : Fate) :
    leftOut (fates ++ [fate]) = if fate = .compared then 0 else leftOut fates + 1 := by
  rw [leftOut, List.reverse_append, List.reverse_singleton, List.singleton_append,
    List.takeWhile_cons]
  by_cases h : fate = .compared
  · simp [h]
  · simp [h, leftOut]

/-- A page of rows, by its number. -/
def Plan.page (plan : Plan) (rows : List ρ) (n : Nat) : List ρ :=
  (rows.drop (n * plan.batch)).take plan.batch

/-- The rows of the pages that were not left out. -/
def Plan.seen (plan : Plan) (rows : List ρ) (fates : List Fate) : List ρ :=
  fates.zipIdx.flatMap fun (fate, n) => if fate = .compared then plan.page rows n else []

/-- Too many pages in a row were left out in the end, or the last page was read and was not full. -/
def Plan.Ends (plan : Plan) (rows : List ρ) (fates : List Fate) : Prop :=
  plan.failureLimit ≤ leftOut fates ∨
    ∃ before fate, fates = before ++ [fate] ∧ fate ≠ .unread ∧
      (plan.page rows before.length).length < plan.batch

/-- The pages up to now give no reason to end. -/
def Plan.GoesOn (plan : Plan) (rows : List ρ) (fates : List Fate) : Prop :=
  ∀ before, before <+: fates → ¬plan.Ends rows before

/-- The last page is the first that gives a reason to end. -/
def Plan.Stops (plan : Plan) (rows : List ρ) (fates : List Fate) : Prop :=
  ∃ before fate, fates = before ++ [fate] ∧ plan.GoesOn rows before ∧ plan.Ends rows fates

section

variable {plan : Plan} {rows : List ρ} {fates : List Fate} {fate : Fate}

omit [Entity ρ] in
theorem Plan.seen_concat (plan : Plan) (rows : List ρ) (fates : List Fate) (fate : Fate) :
    plan.seen rows (fates ++ [fate]) =
      plan.seen rows fates ++ if fate = .compared then plan.page rows fates.length else [] := by
  simp [seen, List.zipIdx_append]

omit [Entity ρ] in
theorem Plan.seen_sublist (plan : Plan) (rows : List ρ) (fates : List Fate) :
    (plan.seen rows fates).Sublist (rows.take (fates.length * plan.batch)) := by
  induction fates using List.reverseRecOn with
  | nil => exact List.nil_sublist _
  | append_singleton fates fate ih =>
    rw [seen_concat, List.length_append, List.length_singleton, Nat.add_one_mul, List.take_add]
    refine ih.append ?_
    split
    · exact .refl _
    · exact List.nil_sublist _

omit [Entity ρ] in
theorem Plan.ends_concat :
    plan.Ends rows (fates ++ [fate]) ↔ plan.failureLimit ≤ leftOut (fates ++ [fate]) ∨
      fate ≠ .unread ∧ (plan.page rows fates.length).length < plan.batch := by
  refine or_congr_right ⟨?_, fun h => ⟨fates, fate, rfl, h⟩⟩
  rintro ⟨before, last, heq, h⟩
  obtain ⟨rfl, rfl⟩ := List.append_singleton_inj.mp heq
  exact h

omit [Entity ρ] in
theorem Plan.goesOn_nil (plan : Plan) (rows : List ρ) (h : 0 < plan.failureLimit) :
    plan.GoesOn rows [] := by
  intro before hbefore
  obtain rfl := List.prefix_nil.mp hbefore
  rintro (hlimit | ⟨before, fate, heq, -⟩)
  · exact absurd hlimit (Nat.not_le.mpr h)
  · simp at heq

omit [Entity ρ] in
theorem Plan.GoesOn.concat (h : plan.GoesOn rows fates)
    (hends : ¬plan.Ends rows (fates ++ [fate])) :
    plan.GoesOn rows (fates ++ [fate]) := by
  intro before hbefore
  rcases List.prefix_concat_iff.mp hbefore with rfl | hbefore
  · exact hends
  · exact h before hbefore

end

/-- Rows with ascending ids have differences with ascending ids. -/
theorem Way.ascending_differences (way : Way) {rows : List ρ}
    (h : rows.Pairwise fun a b => Entity.id a < Entity.id b) (others : List ρ) :
    (way.differences others rows).Pairwise fun x y => x.1 < y.1 := by
  refine h.filterMap _ fun a b hab x hx y hy => ?_
  rwa [id_of_mem_verdict hx, id_of_mem_verdict hy]

/-- How many more pages may be left out or compared from an offset on, after so many in a row were
left out. -/
def Plan.reserve (plan : Plan) (rows : List ρ) (offset failures : Nat) : Nat :=
  (rows.length - offset) * (plan.failureLimit + 1) + (plan.failureLimit - failures)

/-- How many moves a pass makes at most for a page. -/
def Plan.perPage (plan : Plan) : Nat := 2 * plan.batch + 4

section

variable {plan : Plan} {rows : List ρ} {offset offset' failures : Nat}

theorem Plan.perPage_mul_lt (plan : Plan) {r r' : Nat} (h : r' < r) :
    plan.perPage * r' + (2 * plan.batch + 4) ≤ plan.perPage * r :=
  Nat.mul_le_mul_left plan.perPage h

omit [Entity ρ] in
theorem Plan.reserve_mono (h : offset ≤ offset') :
    plan.reserve rows offset' failures ≤ plan.reserve rows offset failures :=
  Nat.add_le_add_right (Nat.mul_le_mul_right _ (Nat.sub_le_sub_left h _)) _

omit [Entity ρ] in
/-- To go on behind a row takes from the reserve, however many pages may be left out behind it. -/
theorem Plan.reserve_lt_of_read (h : offset < rows.length) (failures' : Nat) :
    plan.reserve rows (offset + 1) failures' < plan.reserve rows offset failures := by
  have hrow : rows.length - offset = (rows.length - (offset + 1)) + 1 := by omega
  rw [reserve, reserve, hrow, Nat.add_one_mul]
  omega

omit [Entity ρ] in
theorem Plan.reserve_lt_of_leftOut (h : offset ≤ offset')
    (hlimit : failures + 1 < plan.failureLimit) :
    plan.reserve rows offset' (failures + 1) < plan.reserve rows offset failures := by
  refine Nat.lt_of_le_of_lt (reserve_mono h) ?_
  rw [reserve, reserve]
  omega

end

/-! ## Passes -/

/-- A plan to go through the rows once. -/
structure Plan.Once (plan : Plan) : Prop where
  mode : plan.mode = .oneShot
  pos : 0 < plan.batch
  limit : 0 < plan.failureLimit

/-- Behind some pages, from an offset, the next one is due, and so many of them in a row were left
out. -/
structure Plan.Due (plan : Plan) (rows : List ρ) (fates : List Fate) (offset failures : Nat) :
    Prop where
  place : offset = fates.length * plan.batch
  count : failures = leftOut fates
  goesOn : plan.GoesOn rows fates

namespace Pass

/-- A pass that has sent the differences of the rows of the pages that it did not leave out, but for
those that it has yet to report of the last page. -/
def Accounts (plan : Plan) (others rows : List ρ) (fates : List Fate) (sent : List (Int × Mismatch))
    (p : Pass ρ) : Prop :=
  match p.phase with
  | .reading =>
    plan.Due rows fates p.offset p.failures ∧ sent = p.way.differences others (plan.seen rows fates)
  | .comparing fetched page =>
    plan.Due rows fates p.offset p.failures ∧ page = plan.page rows fates.length ∧ page ≠ [] ∧
      fetched = page.length ∧ sent = p.way.differences others (plan.seen rows fates)
  | .reporting fetched id kind rest =>
    ∃ before, fates = before ++ [.compared] ∧ plan.Due rows before p.offset p.failures ∧
      fetched = (plan.page rows before.length).length ∧
      sent ++ (id, kind) :: rest = p.way.differences others (plan.seen rows fates)
  | .pausing => False
  | .done r =>
    r = .ok () ∧ plan.Stops rows fates ∧ sent = p.way.differences others (plan.seen rows fates)

section

variable {plan : Plan} {others rows : List ρ} {fates : List Fate} {fate : Fate} {fetched : Nat}
  {sent : List (Int × Mismatch)} {p p' : Pass ρ} {m : Moment} {d d' : Deployment ρ}
  {reply : Option (Reply ρ)}

/-- A pass that left the last page out or reported all of it goes on behind it, or has come to its
end. -/
theorem accounts_turn (hplan : plan.Once) (hoffset : p.offset = fates.length * plan.batch)
    (hgoesOn : plan.GoesOn rows fates) (hread : fate ≠ .unread)
    (hfailures : p.failures = leftOut (fates ++ [fate])) (hlimit : p.failures < plan.failureLimit)
    (hfetched : fetched = (plan.page rows fates.length).length)
    (hsent : sent = p.way.differences others (plan.seen rows (fates ++ [fate]))) :
    (p.turn plan fetched).Accounts plan others rows (fates ++ [fate]) sent := by
  have hle : fetched ≤ plan.batch := hfetched ▸ List.length_take_le ..
  unfold turn
  rw [hplan.mode]
  by_cases hfull : plan.batch ≤ fetched
  · -- a full page has as many rows as a page may have, so the next number is the next offset
    rw [if_pos hfull]
    have hends : ¬plan.Ends rows (fates ++ [fate]) := by
      rw [Plan.ends_concat, ← hfailures, ← hfetched]
      omega
    refine ⟨⟨?_, hfailures, hgoesOn.concat hends⟩, hsent⟩
    change p.offset + fetched = _
    rw [hoffset, Nat.le_antisymm hle hfull, List.length_append, List.length_singleton,
      Nat.add_one_mul]
  · rw [if_neg hfull]
    refine ⟨rfl, ⟨fates, fate, rfl, hgoesOn, Plan.ends_concat.mpr (.inr ⟨hread, ?_⟩)⟩, hsent⟩
    omega

theorem accounts_reportAll (found : List (Int × Mismatch)) (hplan : plan.Once)
    (h : plan.Due rows fates p.offset p.failures)
    (hfetched : fetched = (plan.page rows fates.length).length)
    (hsent : sent ++ found = p.way.differences others (plan.seen rows (fates ++ [.compared]))) :
    (p.reportAll plan fetched found).Accounts plan others rows (fates ++ [.compared]) sent := by
  cases found with
  | nil =>
    rw [List.append_nil] at hsent
    exact accounts_turn (p := { p with failures := 0 }) hplan h.place h.goesOn (by simp)
      (by simp [leftOut_concat]) hplan.limit hfetched hsent
  | cons x rest => exact ⟨fates, rfl, h, hfetched, hsent⟩

/-- A pass that leaves a page out has come to its end if it was one too many. -/
theorem accounts_leaveOut (fate : Fate) {next : Pass ρ → Pass ρ}
    (h : plan.Due rows fates p.offset p.failures) (hfate : fate ≠ .compared)
    (hsent : sent = p.way.differences others (plan.seen rows fates))
    (hnext : p.failures + 1 = leftOut (fates ++ [fate]) → p.failures + 1 < plan.failureLimit →
      sent = p.way.differences others (plan.seen rows (fates ++ [fate])) →
      (next { p with failures := p.failures + 1 }).Accounts plan others rows
        (fates ++ [fate]) sent) :
    (p.leaveOut plan next).Accounts plan others rows (fates ++ [fate]) sent := by
  have hfailures : p.failures + 1 = leftOut (fates ++ [fate]) := by
    rw [leftOut_concat, if_neg hfate, h.count]
  have hsent' : sent = p.way.differences others (plan.seen rows (fates ++ [fate])) := by
    rwa [Plan.seen_concat, if_neg hfate, List.append_nil]
  by_cases hlimit : plan.failureLimit ≤ p.failures + 1
  · rw [leaveOut, if_pos hlimit]
    exact ⟨rfl, ⟨fates, fate, rfl, h.goesOn, .inl (hfailures ▸ hlimit)⟩, hsent'⟩
  · have heq : p.leaveOut plan next = next { p with failures := p.failures + 1 } := if_neg hlimit
    rw [heq]
    exact hnext hfailures (Nat.not_le.mp hlimit) hsent'

theorem accounts_unread {e : Error} (he : e.isCancellation = false)
    (h : plan.Due rows fates p.offset p.failures)
    (hsent : sent = p.way.differences others (plan.seen rows fates)) :
    (p.afterPage plan (.error e)).Accounts plan others rows (fates ++ [.unread]) sent := by
  rw [afterPage, he, if_neg Bool.false_ne_true]
  refine accounts_leaveOut .unread h (by simp) hsent fun hfailures hlimit hsent' => ?_
  have hends : ¬plan.Ends rows (fates ++ [.unread]) := by
    rw [Plan.ends_concat, ← hfailures]
    simpa using hlimit
  refine ⟨⟨?_, hfailures, h.goesOn.concat hends⟩, hsent'⟩
  change p.offset + plan.batch = _
  rw [h.place, List.length_append, List.length_singleton, Nat.add_one_mul]

theorem accounts_uncompared {e : Error} (he : e.isCancellation = false) (hplan : plan.Once)
    (h : plan.Due rows fates p.offset p.failures)
    (hfetched : fetched = (plan.page rows fates.length).length)
    (hsent : sent = p.way.differences others (plan.seen rows fates)) :
    (p.afterLookup plan fetched (.error e)).Accounts plan others rows
      (fates ++ [.uncompared]) sent := by
  rw [afterLookup, he, if_neg Bool.false_ne_true]
  refine accounts_leaveOut .uncompared h (by simp) hsent fun hfailures hlimit hsent' => ?_
  exact accounts_turn (p := { p with failures := p.failures + 1 }) hplan h.place h.goesOn
    (by simp) hfailures hlimit hfetched hsent'

theorem accounts_paged (hplan : plan.Once) (hdistinct : Rows.Distinct rows)
    (h : plan.Due rows fates p.offset p.failures) {page : List ρ}
    (hpage : page = plan.page rows fates.length)
    (hsent : sent = p.way.differences others (plan.seen rows fates)) :
    (p.afterPage plan (.ok page)).Accounts plan others rows
      (fates ++ [Reply.page page].filterMap Reply.fate?) sent := by
  by_cases hne : page = []
  · subst hne
    refine accounts_reportAll [] hplan h (hpage ▸ rfl) ?_
    rw [List.append_nil, Plan.seen_concat, if_pos rfl, ← hpage, List.append_nil]
    exact hsent
  · have hlocal : Rows.Distinct page := by
      rw [hpage]
      exact hdistinct.page ..
    rw [afterPage_of_distinct hlocal hne]
    obtain ⟨r, rest, rfl⟩ := List.exists_cons_of_ne_nil hne
    rw [List.filterMap_cons_none rfl, List.filterMap_nil, List.append_nil]
    exact ⟨h, hpage, hne, rfl, hsent⟩

/-- A move sends the next difference of the page in hand, or none. -/
theorem Accounts.move (h : p.Accounts plan others rows fates sent) (hplan : plan.Once)
    (hrows : plan.scanned d p.way = rows) (hothers : plan.others d p.way = others)
    (hdistinct : Rows.Distinct rows) (hdistinct' : Rows.Distinct others) (hstop : m.stopped = false)
    (hd : d.Mild plan.callLimit) (hp : p.Bears) (hp' : p'.Bears)
    (hcarries : p.Carries (fun _ => True) fun x => x.2.way = p.way)
    (hm : Fared plan m d p reply d' p') :
    ∃ sent', p'.Accounts plan others rows (fates ++ reply.toList.filterMap Reply.fate?) sent' ∧
      plan.Sends p.way d sent d' sent' := by
  cases hm with
  | begun _ _ ha =>
    refine ⟨sent, ?_, .inl ⟨ha, rfl⟩⟩
    rw [Option.toList_none, List.filterMap_nil, List.append_nil]
    exact h
  | paged hph ha =>
    simp only [Accounts, hph] at h
    obtain ⟨hdue, hsent⟩ := h
    refine ⟨sent, ?_, .inl ⟨ha, rfl⟩⟩
    have hpage : p.ahead plan d = plan.page rows fates.length := by
      rw [ahead, hrows, hdue.place]
      rfl
    exact accounts_paged hplan hdistinct hdue hpage hsent
  | unread hph ha =>
    -- a word of cancellation would have made the pass fail
    simp only [Accounts, hph] at h
    refine ⟨sent, ?_, .inl ⟨ha, rfl⟩⟩
    exact accounts_unread hp'.isCancellation_of_page h.1 h.2
  | compared hph ha =>
    simp only [Accounts, hph] at h
    obtain ⟨hdue, hpage, -, rfl, hsent⟩ := h
    refine ⟨sent, ?_, .inl ⟨ha, rfl⟩⟩
    refine accounts_reportAll _ hplan hdue (hpage ▸ rfl) ?_
    rw [hothers, Way.mismatches_eq _ hdistinct', Plan.seen_concat, if_pos rfl, ← hpage,
      Way.differences_append, hsent]
  | uncompared hph ha =>
    simp only [Accounts, hph] at h
    obtain ⟨hdue, hpage, -, rfl, hsent⟩ := h
    refine ⟨sent, ?_, .inl ⟨ha, rfl⟩⟩
    exact accounts_uncompared hp'.isCancellation_of_lookup hplan hdue (hpage ▸ rfl) hsent
  | @reported fetched id kind rest hph =>
    simp only [Accounts, hph] at h
    obtain ⟨before, rfl, hdue, hfetched, hsent⟩ := h
    rw [Carries, hph] at hcarries
    refine ⟨sent ++ [(id, kind)], ?_, .inr ⟨id, kind, hcarries.1, rfl, rfl⟩⟩
    rw [Option.toList_none, List.filterMap_nil, List.append_nil]
    refine accounts_reportAll rest hplan hdue hfetched ?_
    rw [List.append_assoc]
    exact hsent
  | unreported hph _ hfine => exact absurd ⟨hstop, ⟨_, hd.broker⟩, hp.reports hph⟩ hfine
  | rested hph | disturbed hph =>
    simp only [Accounts, hph] at h

/-! ### How long a pass goes on -/

/-- How many more moves a pass through the rows may make. -/
def budget (plan : Plan) (rows : List ρ) (p : Pass ρ) : Nat :=
  let toStart := if p.flight.isNone then 1 else 0
  match p.phase with
  | .reading => plan.perPage * plan.reserve rows p.offset p.failures + 3 + toStart
  | .comparing _ _ => plan.perPage * plan.reserve rows p.offset p.failures + 1 + toStart
  | .reporting _ _ _ rest =>
    plan.perPage * plan.reserve rows (p.offset + 1) 0 + 2 * rest.length + 5 + toStart
  | .pausing | .done _ => 0

omit [Entity ρ] in
theorem budget_turn_le (rows : List ρ) (hplan : plan.Once) :
    (p.turn plan fetched).budget plan rows ≤
      plan.perPage * plan.reserve rows (p.offset + 1) p.failures + 4 := by
  unfold turn
  rw [hplan.mode]
  split
  · next hfull =>
    have hle : p.offset + 1 ≤ p.offset + fetched :=
      Nat.add_le_add_left (Nat.le_trans hplan.pos hfull) _
    exact Nat.add_le_add_right (Nat.mul_le_mul_left _ (Plan.reserve_mono hle)) 4
  · exact Nat.zero_le _

omit [Entity ρ] in
theorem budget_reportAll_le (rows : List ρ) (hplan : plan.Once) {found : List (Int × Mismatch)} :
    (p.reportAll plan fetched found).budget plan rows ≤
      plan.perPage * plan.reserve rows (p.offset + 1) 0 + 2 * found.length + 4 := by
  cases found with
  | nil => exact budget_turn_le (p := { p with failures := 0 }) rows hplan
  | cons x rest =>
    simp only [reportAll, enter, budget, Option.isNone_none, if_true, List.length_cons]
    omega

omit [Entity ρ] in
/-- To leave a page out takes from the moves that a pass may make. -/
theorem budget_leaveOut_lt {next : Pass ρ → Pass ρ} {offset budget : Nat}
    (hoffset : p.offset ≤ offset)
    (hbudget : plan.perPage * plan.reserve rows p.offset p.failures < budget)
    (hnext : (next { p with failures := p.failures + 1 }).budget plan rows ≤
      plan.perPage * plan.reserve rows offset (p.failures + 1) + 4) :
    (p.leaveOut plan next).budget plan rows < budget := by
  by_cases hlimit : plan.failureLimit ≤ p.failures + 1
  · rw [leaveOut, if_pos hlimit]
    exact Nat.zero_lt_of_lt hbudget
  · have heq : p.leaveOut plan next = next { p with failures := p.failures + 1 } := if_neg hlimit
    have hlt : plan.reserve rows offset (p.failures + 1) < plan.reserve rows p.offset p.failures :=
      Plan.reserve_lt_of_leftOut hoffset (Nat.not_le.mp hlimit)
    have hspent := plan.perPage_mul_lt hlt
    rw [heq]
    omega

/-- A move takes from the moves that a pass may make. -/
theorem Accounts.budget_lt (h : p.Accounts plan others rows fates sent) (hplan : plan.Once)
    (hrows : plan.scanned d p.way = rows)
    (hothers : plan.others d p.way = others) (hdistinct : Rows.Distinct rows)
    (hdistinct' : Rows.Distinct others) (hstop : m.stopped = false)
    (hd : d.Mild plan.callLimit) (hp : p.Bears) (hp' : p'.Bears)
    (hm : Fared plan m d p reply d' p') : p'.budget plan rows < p.budget plan rows := by
  cases hm with
  | begun hdone hnone =>
    cases hph : p.phase with
    | reading | comparing | reporting => simp [budget, hph, hnone]
    | pausing => simp only [Accounts, hph] at h
    | done r => exact absurd hph (hdone r)
  | paged hph =>
    simp only [Accounts, hph] at h
    by_cases hne : p.ahead plan d = []
    · -- an empty page is not full
      rw [hne]
      simp only [afterPage, dedup, reportAll, turn, List.length_nil, Nat.not_le.mpr hplan.pos,
        if_false, hplan.mode, enter, budget, hph]
      omega
    · have hlocal : Rows.Distinct (p.ahead plan d) := by
        rw [ahead, hrows]
        exact hdistinct.page ..
      rw [afterPage_of_distinct hlocal hne]
      simp only [enter, budget, hph, Option.isNone_none, if_true]
      omega
  | unread hph =>
    rw [afterPage, hp'.isCancellation_of_page, if_neg Bool.false_ne_true]
    refine budget_leaveOut_lt (Nat.le_refl _) (by simp only [budget, hph]; omega) ?_
    have hmono : p.offset ≤ p.offset + plan.batch := Nat.le_add_right ..
    exact Nat.add_le_add_right (Nat.mul_le_mul_left _ (Plan.reserve_mono hmono)) 4
  | uncompared hph =>
    rw [afterLookup, hp'.isCancellation_of_lookup, if_neg Bool.false_ne_true]
    refine budget_leaveOut_lt (Nat.le_succ _) (by simp only [budget, hph]; omega) ?_
    exact budget_turn_le (p := { p with failures := p.failures + 1 }) rows hplan
  | @compared _ _ page hph =>
    simp only [Accounts, hph] at h
    obtain ⟨hdue, hpage, hne, rfl, -⟩ := h
    have hpageLe : page.length ≤ plan.batch := hpage ▸ List.length_take_le ..
    have hrow : p.offset < rows.length := by
      refine Nat.not_le.mp fun hend => hne ?_
      rw [hpage, Plan.page, ← hdue.place, List.drop_eq_nil_of_le hend, List.take_nil]
    -- the count of failures starts anew, which the row behind which the pass goes on pays for
    have hlt : plan.reserve rows (p.offset + 1) 0 < plan.reserve rows p.offset p.failures :=
      Plan.reserve_lt_of_read hrow 0
    have hspent := plan.perPage_mul_lt hlt
    have hfound := Way.length_differences_le p.way others page
    refine Nat.lt_of_le_of_lt (budget_reportAll_le rows hplan) ?_
    rw [hothers, Way.mismatches_eq _ hdistinct']
    simp only [budget, hph]
    omega
  | reported hph =>
    simp only [Accounts, hph] at h
    obtain ⟨before, rfl, hdue, rfl, -⟩ := h
    refine Nat.lt_of_le_of_lt (budget_reportAll_le rows hplan) ?_
    simp only [budget, hph]
    omega
  | unreported hph _ hfine => exact absurd ⟨hstop, ⟨_, hd.broker⟩, hp.reports hph⟩ hfine
  | rested hph | disturbed hph =>
    simp only [Accounts, hph] at h

end

end Pass

end Scan

/-! ## Watches -/

/-- What is allowed to happen while nobody writes: stores may refuse any calls, but answer or refuse
each within the limit of a call, and what is published goes through. -/
def Incident.Mild (plan : Scan.Plan) : Incident ρ → Prop
  | .put _ _ | .remove _ _ => False
  | .publish topic _ => topic ≠ plan.topic
  | .plan _ faults => faults.latency ≤ plan.callLimit
  | .planBroker faults => faults.Prompt plan.callLimit
  | .turn _ _ => True

namespace Watch

/-- What becomes of the pages that a direction goes through in the course of some incidents. -/
def fates (way : Scan.Way) (w : Watch ρ) (incidents : List (Incident ρ)) : List Scan.Fate :=
  (w.replies way incidents).filterMap Scan.Reply.fate?

/-- Whether a pass moves in an incident. -/
def moves? (w : Watch ρ) : Incident ρ → Bool
  | .turn way now => (w.scan.stepWay way ⟨now, false⟩ w.site).isSome
  | _ => false

/-- How many moves the passes make in the course of some incidents. -/
def moves (w : Watch ρ) : List (Incident ρ) → Nat
  | [] => 0
  | x :: rest => (if w.moves? x then 1 else 0) + (w.perform x).moves rest

/-- A watch of a scan of the rows of `d` that accounts for what it was told. -/
structure Accounts (plan : Scan.Plan) (d : Deployment ρ) (before : List Bytes)
    (told : Scan.Way → List (Scan.Reply ρ)) (w : Watch ρ) : Prop where
  planned : w.scan.plan = plan
  mild : w.site.Mild plan.callLimit
  bears : ∀ way, (w.scan.pass way).Bears
  apart : w.Apart
  contents : ∀ side, (w.site.store side).contents = (d.store side).contents
  sent : ∃ sent : Scan.Way → List Report, Scan.Sent before sent (w.site.broker.log plan.topic) ∧
    ∀ way, ∃ found, sent way = plan.reports found ∧
      (w.scan.pass way).Accounts plan (plan.others d way) (plan.scanned d way)
        ((told way).filterMap Scan.Reply.fate?) found

/-- How many more moves the passes of a scan of the rows of `d` may make. -/
def budget (plan : Scan.Plan) (d : Deployment ρ) (w : Watch ρ) : Nat :=
  (w.scan.pass .baseToTarget).budget plan (plan.scanned d .baseToTarget) +
    (w.scan.pass .targetToBase).budget plan (plan.scanned d .targetToBase)

section

variable {plan : Scan.Plan} {d : Deployment ρ} {before : List Bytes}
  {told : Scan.Way → List (Scan.Reply ρ)} {w : Watch ρ} {x : Incident ρ}

theorem contents_perform_of_mild (hx : x.Mild plan) (w : Watch ρ) (side : Side) :
    ((w.perform x).site.store side).contents = (w.site.store side).contents := by
  rw [contents_perform]
  cases x with
  | put | remove => exact hx.elim
  | turn | publish | plan | planBroker => rfl

/-- What is not a move of a pass leaves an account as it is. -/
theorem Accounts.perform_other (h : w.Accounts plan d before told) (hx : x.Mild plan)
    (hturn : ∀ way now, x ≠ .turn way now) : (w.perform x).Accounts plan d before told := by
  have hlog : (w.perform x).site.broker.log plan.topic = w.site.broker.log plan.topic := by
    refine log_perform_of_ne w hturn ?_
    rintro payload rfl
    exact hx rfl
  have hcontents (side : Side) := (contents_perform_of_mild hx w side).trans (h.contents side)
  have hsent := h.sent
  rw [← hlog] at hsent
  cases x with
  | turn way now => exact absurd rfl (hturn way now)
  | put | remove => exact hx.elim
  | publish =>
    exact ⟨h.planned, h.mild.withBroker h.mild.broker, h.bears, h.apart.perform _, hcontents, hsent⟩
  | plan side faults =>
    exact ⟨h.planned, h.mild.setFaults hx side, h.bears, h.apart.perform _, hcontents, hsent⟩
  | planBroker faults =>
    exact ⟨h.planned, h.mild.setBrokerFaults hx, h.bears, h.apart.perform _, hcontents, hsent⟩

/-- A move of a pass accounts for what it is told, and takes from the moves that the passes may
make. -/
theorem Accounts.move (h : w.Accounts plan d before told) (hplan : plan.Once)
    (hdistinct : ∀ side, Rows.Distinct (d.store side).rows) {way : Scan.Way} {now : Nat}
    {reply : Option (Scan.Reply ρ)} {site : Deployment ρ} {p : Scan.Pass ρ}
    (hstep : (w.scan.pass way).step plan ⟨now, false⟩ w.site = some (site, p))
    (hm : Scan.Pass.Fared plan ⟨now, false⟩ w.site (w.scan.pass way) reply site p) {next : Watch ρ}
    (hnext : next = { site, scan := w.scan.setPass p way }) (hapart : next.Apart) :
    next.Accounts plan d before
      (fun other => told other ++ if other = way then reply.toList else []) ∧
      next.budget plan d < w.budget plan d := by
  have hway := h.apart.way way
  have hrows : plan.scanned w.site (w.scan.pass way).way = plan.scanned d way := by
    rw [hway, plan.scanned_congr way (h.contents _)]
  have hothers : plan.others w.site (w.scan.pass way).way = plan.others d way := by
    rw [hway, plan.others_congr way (h.contents _)]
  have hscanned := Scan.Plan.distinct_scanned (hdistinct (plan.pages way))
  obtain ⟨hmild, hbears⟩ := (h.bears way).step rfl h.mild hstep
  obtain ⟨sent, hlog, hways⟩ := h.sent
  obtain ⟨found, hsent, hacc⟩ := hways way
  obtain ⟨found', hacc', hsends⟩ := hacc.move hplan hrows hothers hscanned
    (hdistinct _) rfl h.mild (h.bears way) hbears (by rw [hway]; exact h.apart.carries way) hm
  obtain ⟨sent', hlog', hsent', hkept⟩ := hlog.sends hsent (hway ▸ hsends)
  have hlt := hacc.budget_lt hplan hrows hothers hscanned (hdistinct _) rfl h.mild
    (h.bears way) hbears hm
  have hpass (other : Scan.Way) :
      next.scan.pass other = if other = way then p else w.scan.pass other := by
    rw [hnext, Scan.pass_setPass]
  have hsite : next.site = site := by rw [hnext]
  -- the other direction keeps its account
  have hboth (other : Scan.Way) :
      ∃ found, sent' other = plan.reports found ∧
        (next.scan.pass other).Accounts plan (plan.others d other) (plan.scanned d other)
          ((told other ++ if other = way then reply.toList else []).filterMap
            Scan.Reply.fate?) found := by
    rw [hpass]
    split
    · next hsame =>
      subst hsame
      rw [List.filterMap_append]
      exact ⟨found', hsent', hacc'⟩
    · next hne =>
      rw [List.append_nil, hkept other hne]
      exact hways other
  refine ⟨⟨by rw [hnext, Scan.plan_setPass, h.planned], hsite ▸ hmild, fun other => ?_, hapart,
    fun side => ?_, ?_⟩, ?_⟩
  · rw [hpass]
    split
    · exact hbears
    · exact h.bears other
  · rw [hsite, (Scan.Pass.moved_of_step hstep).contents, h.contents]
  · exact ⟨sent', by rwa [hsite], hboth⟩
  · rw [budget, budget, hpass, hpass]
    cases way with
    | baseToTarget | targetToBase =>
      simp only [reduceCtorEq, if_true, if_false]
      omega

/-- An incident is accounted for, and a move in it is taken from those that may be made. -/
theorem Accounts.perform (h : w.Accounts plan d before told) (hplan : plan.Once)
    (hdistinct : ∀ side, Rows.Distinct (d.store side).rows) (hx : x.Mild plan) :
    (w.perform x).Accounts plan d before (fun way => told way ++ (w.reply? way x).toList) ∧
      (if w.moves? x then 1 else 0) + (w.perform x).budget plan d ≤ w.budget plan d := by
  cases x with
  | put | remove | publish | plan | planBroker =>
    simp only [reply?, Option.toList_none, List.append_nil]
    exact ⟨h.perform_other hx (by simp), by simp [moves?, Watch.perform, budget]⟩
  | turn way now =>
    have htold : (fun other => told other ++ (w.reply? other (.turn way now)).toList) =
        fun other => told other ++
          if other = way then (w.reply? way (.turn way now)).toList else [] := by
      funext other
      split
      · next hsame => rw [hsame]
      · next hne => rw [reply?_turn_of_ne (Ne.symm hne), Option.toList_none]
    rw [htold]
    rcases w.fared_turn way now with ⟨hnone, heq, hreply⟩ | ⟨site, p, hstep, hm, heq⟩
    · rw [heq, hreply, moves?, hnone]
      simpa using h
    · rw [h.planned] at hstep hm
      obtain ⟨hnext, hlt⟩ := h.move hplan hdistinct hstep hm heq (h.apart.perform _)
      refine ⟨hnext, ?_⟩
      split <;> omega

/-- An account goes on to be one, and the moves that are made are taken from those that may be
made. -/
theorem Accounts.after (h : w.Accounts plan d before told) (hplan : plan.Once)
    (hdistinct : ∀ side, Rows.Distinct (d.store side).rows) {incidents : List (Incident ρ)}
    (hall : ∀ x ∈ incidents, x.Mild plan) :
    (w.after incidents).Accounts plan d before (fun way => told way ++ w.replies way incidents) ∧
      w.moves incidents + (w.after incidents).budget plan d ≤ w.budget plan d := by
  induction incidents generalizing w told with
  | nil =>
    simp only [replies, List.append_nil, moves, Nat.zero_add]
    exact ⟨h, Nat.le_refl _⟩
  | cons x rest ih =>
    obtain ⟨hx, hrest⟩ := List.forall_mem_cons.mp hall
    obtain ⟨hnext, hmoves⟩ := h.perform hplan hdistinct hx
    obtain ⟨hafter, hle⟩ := ih hnext hrest
    simp only [replies, ← List.append_assoc, moves]
    refine ⟨hafter, ?_⟩
    change _ + (Watch.after _ rest).budget plan d ≤ _
    omega

theorem accounts_start (hlimit : 0 < plan.failureLimit) (hd : d.Mild plan.callLimit) :
    ({ site := d, scan := { plan } } : Watch ρ).Accounts plan d (d.broker.log plan.topic)
      fun _ => [] := by
  refine ⟨rfl, hd, fun way => ?_, apart_start d plan, fun _ => rfl, fun _ => [],
    ⟨[], by simp, fun _ => rfl⟩, fun way => ⟨[], rfl, ?_⟩⟩
  · cases way <;> exact ⟨by simp [Scan.pass], by simp [Scan.pass]⟩
  · have hdue : plan.Due (plan.scanned d way) [] 0 0 :=
      ⟨(Nat.zero_mul _).symm, rfl, plan.goesOn_nil _ hlimit⟩
    cases way <;> exact ⟨hdue, rfl⟩

/-- The account of a scan that has come to its end. -/
theorem Accounts.published (h : w.Accounts plan d before told) {r : Except Error Unit}
    (hr : w.scan.result? = some r) : r = .ok () ∧ ∃ published : List Report,
      w.log = before ++ published.map Report.encode ∧ ∀ way,
        plan.Stops (plan.scanned d way) ((told way).filterMap Scan.Reply.fate?) ∧
        published.filter (fun r => r.kind.way = way) =
          plan.reports (way.differences (plan.others d way)
            (plan.seen (plan.scanned d way) ((told way).filterMap Scan.Reply.fate?))) := by
  obtain ⟨sent, ⟨published, hlog, hfilter⟩, hways⟩ := h.sent
  have hdone (way : Scan.Way) (q : Except Error Unit) (hq : (w.scan.pass way).result? = some q) :
      q = .ok () ∧ plan.Stops (plan.scanned d way) ((told way).filterMap Scan.Reply.fate?) ∧
        sent way = plan.reports (way.differences (plan.others d way)
          (plan.seen (plan.scanned d way) ((told way).filterMap Scan.Reply.fate?))) := by
    obtain ⟨found, hsent, hacc⟩ := hways way
    rw [Scan.Pass.Accounts, Scan.Pass.phase_of_result? hq, h.apart.way] at hacc
    exact ⟨hacc.1, hacc.2.1, hsent.trans (congrArg _ hacc.2.2)⟩
  obtain ⟨hok, -, hresults⟩ := Scan.done_of_result? hr fun way q hq => (hdone way q hq).1
  refine ⟨hok, published, ?_, fun way => ?_⟩
  · rw [log, h.planned, hlog]
  · obtain ⟨-, hstops, hsent⟩ := hdone way _ (hresults way)
    exact ⟨hstops, (hfilter way).trans hsent⟩

/-- A scan that goes through the rows once comes to its end, whichever calls the stores refuse, as
long as no offset comes to more than 64 bits. In each direction the rows are cut into pages, and the
direction goes through them in order until a page that was read is not full, or too many pages in a
row were left out. A page is left out if it cannot be read or its rows cannot be looked up; what the
direction publishes are the differences of the other pages, each once and with ascending ids. -/
theorem publishes_seen (hmode : plan.mode = .oneShot) (hpos : 0 < plan.batch)
    (hlimit : 0 < plan.failureLimit) (hd : d.Mild plan.callLimit)
    (hrows : ∀ side, (d.store side).rows.Pairwise fun a b => Entity.id a < Entity.id b)
    {start : Watch ρ} (hstart : start = { site := d, scan := { plan } }) :
    ∃ bound, ∀ (incidents : List (Incident ρ)) (w : Watch ρ),
      (∀ x ∈ incidents, x.Mild plan) → w = start.after incidents →
      start.moves incidents ≤ bound ∧
      (∀ side, (w.site.store side).contents = (d.store side).contents) ∧
      ((∀ way, (w.scan.pass way).offset < UInt64.size) → w.scan.result? = none →
        ∃ way t, ∀ now, t ≤ now → (w.scan.stepWay way ⟨now, false⟩ w.site).isSome) ∧
      ∀ r, w.scan.result? = some r → r = .ok () ∧
        (∀ way, plan.Stops (plan.scanned d way) (start.fates way incidents)) ∧
        ∃ published : List Report, w.log = start.log ++ published.map Report.encode ∧
          ∀ way, published.filter (fun r => r.kind.way = way) = plan.reports (way.differences
              (plan.others d way) (plan.seen (plan.scanned d way) (start.fates way incidents))) ∧
            (published.filter fun r => r.kind.way = way).Pairwise fun a b => a.id < b.id := by
  have hdistinct (side : Side) : Rows.Distinct (d.store side).rows :=
    (hrows side).imp fun h => Int.ne_of_lt h
  have hbegin : start.Accounts plan d start.log fun _ => [] := hstart ▸ accounts_start hlimit hd
  have hplan : plan.Once := ⟨hmode, hpos, hlimit⟩
  refine ⟨start.budget plan d, fun incidents w hall hw => ?_⟩
  obtain ⟨hafter, hle⟩ := hbegin.after hplan hdistinct hall
  rw [← hw] at hafter hle
  refine ⟨Nat.le_of_add_right_le hle, hafter.contents, fun hsize hr => ?_, fun r hr => ?_⟩
  · have hbroken : w.scan.isBroken = false := Scan.isBroken_eq_false_iff.mpr fun way =>
      Scan.Pass.isBroken_eq_false_iff.mpr (hsize way)
    have hlive := Scan.isOver_eq_false_iff.mpr ⟨hbroken, hr⟩
    obtain ⟨way, hway⟩ := Scan.exists_undone hlive
    exact ⟨way, Scan.stepWay_isSome hlive hway⟩
  obtain ⟨hok, published, hlog, hways⟩ := hafter.published hr
  refine ⟨hok, fun way => (hways way).1, published, hlog, fun way => ⟨(hways way).2, ?_⟩⟩
  have hseen := (plan.seen_sublist (plan.scanned d way) (start.fates way incidents)).trans
    ((List.take_sublist ..).trans List.filter_sublist)
  rw [(hways way).2, Scan.Plan.reports, List.pairwise_map]
  exact way.ascending_differences ((hrows _).sublist hseen) _

end

/-- Pages of one row: the first page of the base cannot be read, and the ids of the first page of
the target cannot be looked up. -/
theorem publishes_seen_sample :
    let plan : Scan.Plan := .ofSide { batchSize := 1 } .src none .oneShot
    let d : Deployment Account := .ofRows [⟨1, "ann", 10, 5⟩, ⟨2, "bob", 20, 6⟩, ⟨3, "cid", 30, 7⟩]
      [⟨3, "cid", 31, 7⟩, ⟨4, "dan", 40, 8⟩] .srcOnly
    let start : Watch Account := { site := d, scan := { plan } }
    let refusal (op : String) : Incident Account := .plan .src (({} : FaultPlan).arm op 1)
    let incidents := refusal "find_page" :: (List.replicate 16 (.turn .baseToTarget 0) ++
      refusal "find_ids" :: List.replicate 12 (.turn .targetToBase 0))
    let w := start.after incidents
    plan.mode = .oneShot ∧ 0 < plan.batch ∧ 0 < plan.failureLimit ∧
      d.Mild plan.callLimit ∧
      (∀ side, (d.store side).rows.Pairwise fun a b => Entity.id a < Entity.id b) ∧
      (∀ x ∈ incidents, x.Mild plan) ∧
      (∀ way, (w.scan.pass way).offset < UInt64.size) ∧ w.scan.result? = some (.ok ()) ∧
      start.fates .baseToTarget incidents = [.unread, .compared, .compared, .compared] ∧
      start.fates .targetToBase incidents = [.uncompared, .compared, .compared] ∧
      (∀ way, plan.Stops (plan.scanned d way) (start.fates way incidents)) ∧
      w.log = [(plan.report 2 .targetMissing).encode, (plan.report 3 .differs).encode,
        (plan.report 4 .baseMissing).encode] := by
  intro plan d start refusal incidents w
  have hd : d.Mild plan.callLimit := .of_prompt (Deployment.prompt_ofRows ..)
  have hrows : ∀ side, (d.store side).rows.Pairwise fun a b => Entity.id a < Entity.id b
    | .src | .dst => by decide +kernel
  have hmild : ∀ x ∈ incidents, x.Mild plan := by
    intro x hx
    simp only [incidents, List.mem_cons, List.mem_append, List.mem_replicate] at hx
    rcases hx with rfl | ⟨-, rfl⟩ | rfl | ⟨-, rfl⟩
    · exact Nat.zero_le _
    · trivial
    · exact Nat.zero_le _
    · trivial
  have hsize (way : Scan.Way) : (w.scan.pass way).offset < UInt64.size := by
    cases way with
    | baseToTarget => decide +kernel
    | targetToBase => decide +kernel
  have hresult : w.scan.result? = some (.ok ()) := by decide +kernel
  obtain ⟨bound, hbound⟩ := publishes_seen rfl (by decide) (by decide) hd hrows rfl
  obtain ⟨-, -, -, hend⟩ := hbound incidents w hmild rfl
  obtain ⟨-, hstops, -⟩ := hend _ hresult
  refine ⟨rfl, by decide, by decide, hd, hrows, hmild, hsize, hresult, ?_, ?_, hstops, ?_⟩
  · decide +kernel
  · decide +kernel
  · decide +kernel

end Watch

end Cutover
