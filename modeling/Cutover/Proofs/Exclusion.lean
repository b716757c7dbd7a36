import Cutover.Proofs.Cancellation

/-!
# One job of a kind at a time

When a job waits for the job in whose place it is started, it waits in truth for all jobs of its
kind before it: the one that it waits for could not move until those before it had ended. So the
jobs of a kind that have ended are the first ones (`Scheduler.InLine`), and no job does anything
while an earlier one of its kind has not ended. Main statement: `Migration.no_overlap`.
-/

namespace Cutover

variable {ρ : Type}

namespace Scheduler

/-- The job with a number has ended. -/
def HasFinished (s : Scheduler ρ) (n : Nat) : Prop :=
  ∃ j, s.jobs[n]? = some j ∧ j.isFinished = true

theorem hasFinished_iff {s : Scheduler ρ} {n : Nat} :
    s.HasFinished n ↔ (s.jobs[n]?).any Job.isFinished = true := by
  simp [HasFinished, Option.any_eq_true]

instance (s : Scheduler ρ) (n : Nat) : Decidable (s.HasFinished n) :=
  decidable_of_iff _ hasFinished_iff.symm

/-- Each job of a kind waits for one that is not before any other one before it, and those that have
ended are the first ones. -/
structure InLine (s : Scheduler ρ) (kind : JobKind) : Prop where
  link : ∀ (n : Nat) (j : Job ρ) (i : Nat), s.jobs[n]? = some j → j.kind = kind → s.Has kind i →
    i < n → ∃ p, j.after = some p ∧ i ≤ p
  order : ∀ i n, s.Has kind i → s.Has kind n → i < n → s.HasFinished n → s.HasFinished i

variable {s : Scheduler ρ} {kind : JobKind}

/-- A job that need not wait any longer waits for none of those before it. -/
theorem InLine.finished_of_unblocked (h : s.InLine kind) (hl : s.IsLinked) {n i : Nat} {j : Job ρ}
    (hj : s.jobs[n]? = some j) (hkind : j.kind = kind) (hb : j.isBlocked s.jobs = false)
    (hi : s.Has kind i) (hlt : i < n) : s.HasFinished i := by
  obtain ⟨p, hafter, hle⟩ := h.link n j i hj hkind hi hlt
  obtain ⟨-, jp, hjp, hp, -⟩ := hl n j p hj hafter
  have hfinished : s.HasFinished p := by
    refine ⟨jp, hjp, ?_⟩
    simpa [Job.isBlocked, hafter, hjp] using hb
  rcases Nat.lt_or_eq_of_le hle with hlt | rfl
  · exact h.order i p hi ⟨jp, hjp, hp.trans hkind⟩ hlt hfinished
  · exact hfinished

/-- The last job of a kind is not before any other one. -/
theorem Succession.le_current {started : List Nat} (h : s.Succession kind started) {i : Nat}
    (hi : s.Has kind i) : ∃ p, s.current kind = some p ∧ i ≤ p := by
  have hmem := (h.mem_iff i).mpr hi
  have hp := List.getLast?_eq_some_getLast (List.ne_nil_of_mem hmem)
  generalize started.getLast (List.ne_nil_of_mem hmem) = p at hp
  refine ⟨p, h.current.trans hp, ?_⟩
  obtain ⟨before, rfl⟩ := List.getLast?_eq_some_iff.mp hp
  have hbefore := (List.pairwise_append.mp h.increasing).2.2
  rcases List.mem_append.mp hmem with hmem | hmem
  · exact Nat.le_of_lt (hbefore i hmem p (List.mem_singleton_self p))
  · exact Nat.le_of_eq (List.mem_singleton.mp hmem)

end Scheduler

namespace Migration

variable [Entity ρ] {m : Migration ρ} {kind : JobKind} {n i : Nat}

/-! ## Jobs in the course of a history -/

theorem job_after {j : Job ρ} (hj : m.scheduler.jobs[n]? = some j) (history : List (Happening ρ)) :
    ∃ j', (m.after history).scheduler.jobs[n]? = some j' ∧ j'.kind = j.kind ∧
      (j.isFinished = true → j'.isFinished = true) := by
  induction history generalizing m j with
  | nil => exact ⟨j, hj, rfl, id⟩
  | cons h rest ih =>
    obtain ⟨j', hj', hb⟩ := job_perform h hj
    obtain ⟨j'', hj'', hkind, hfinished⟩ := ih hj'
    refine ⟨j'', hj'', hkind.trans hb.follows.1.kind, fun hf => hfinished ?_⟩
    rwa [Job.isFinished, hb.scan_eq hf]

theorem hasFinished_after (hf : m.scheduler.HasFinished n) (history : List (Happening ρ)) :
    (m.after history).scheduler.HasFinished n := by
  obtain ⟨j, hj, hf⟩ := hf
  obtain ⟨j', hj', -, hfinished⟩ := job_after hj history
  exact ⟨j', hj', hfinished hf⟩

/-- A job that was there before some history is of the kind that it is of afterwards. -/
theorem has_of_after (history : List (Happening ρ)) (hlt : n < m.scheduler.jobs.length)
    (h : (m.after history).scheduler.Has kind n) : m.scheduler.Has kind n := by
  obtain ⟨j', hj', hkind⟩ := h
  obtain ⟨j, hj, hsame, -⟩ := job_after (List.getElem?_eq_getElem hlt) history
  cases hj.symm.trans hj'
  exact ⟨_, List.getElem?_eq_getElem hlt, hsame.symm.trans hkind⟩

theorem inLine_perform {started : List Nat} (hawait : m.config.awaitPreviousJob = true)
    (hs : m.scheduler.Succession kind started) (hl : m.scheduler.IsLinked)
    (hline : m.scheduler.InLine kind) (h : Happening ρ) :
    (m.perform h).scheduler.InLine kind := by
  have before {i n : Nat} (hn : n ≤ m.scheduler.jobs.length) (hlt : i < n)
      (hi : (m.perform h).scheduler.Has kind i) : m.scheduler.Has kind i :=
    has_of_after [h] (by omega) hi
  constructor
  · intro n j' i hj' hkind hi hlt
    cases hj : m.scheduler.jobs[n]? with
    | some j =>
      have hn : n < m.scheduler.jobs.length := (List.getElem?_eq_some_iff.mp hj).1
      obtain ⟨_, heq, hb⟩ := job_perform h hj
      cases hj'.symm.trans heq
      obtain ⟨hf, ha⟩ := hb.follows
      rw [ha]
      exact hline.link n j i hj (hf.kind.symm.trans hkind) (before (Nat.le_of_lt hn) hlt hi) hlt
    | none =>
      have hnew := launched_of_new hj hj'
      obtain ⟨p, hp, hle⟩ := hs.le_current (before (Nat.le_of_eq hnew.number) hlt hi)
      exact ⟨p, by rw [hnew.after, if_pos hawait, hkind, hp], hle⟩
  · intro i n hi hn hlt hf
    obtain ⟨j', hj', hf⟩ := hf
    refine hasFinished_after ?_ [h]
    cases hj : m.scheduler.jobs[n]? with
    | some j =>
      have hlength : n < m.scheduler.jobs.length := (List.getElem?_eq_some_iff.mp hj).1
      have hi₀ := before (Nat.le_of_lt hlength) hlt hi
      have hn₀ := has_of_after [h] hlength hn
      by_cases hjf : j.isFinished = true
      · exact hline.order i n hi₀ hn₀ hlt ⟨j, hj, hjf⟩
      · obtain ⟨_, heq, hb⟩ := job_perform h hj
        cases hj'.symm.trans heq
        cases hb with
        | kept | stopped => exact absurd hf hjf
        | moved hb =>
          obtain ⟨_, heq, hkind⟩ := hn₀
          cases hj.symm.trans heq
          exact hline.finished_of_unblocked hl hj hkind hb hi₀ hlt
    | none =>
      obtain ⟨since, mode, hscan⟩ := (launched_of_new hj hj').scan
      rw [Job.isFinished, hscan] at hf
      cases hf

theorem inLine_after (hm : m.scheduler = {}) (hawait : m.config.awaitPreviousJob = true)
    (history : List (Happening ρ)) (kind : JobKind) : (m.after history).scheduler.InLine kind := by
  induction history using List.reverseRecOn with
  | nil => constructor <;> simp [after, hm, Scheduler.Has]
  | append_singleton past h ih =>
    rw [after_concat]
    refine inLine_perform ?_ (succession_of_empty hm past kind) (isLinked_after hm past) ih h
    rwa [config_after]

/-- A job of a kind moves only when those before it have ended. -/
theorem finished_of_move {way : Scan.Way} (hline : m.scheduler.InLine kind)
    (hl : m.scheduler.IsLinked) (hn : m.scheduler.Has kind n) (hi : m.scheduler.Has kind i)
    (hlt : i < n) (hmove : (m.move (.job n way)).isSome) : m.scheduler.HasFinished i := by
  obtain ⟨m', hmove⟩ := Option.isSome_iff_exists.mp hmove
  cases moved_of_move hmove with
  | job hj hb =>
    obtain ⟨_, hj', hkind⟩ := hn
    cases hj.symm.trans hj'
    exact hline.finished_of_unblocked hl hj hkind hb hi hlt

/-! ## What a job has done -/

/-- In the course of a history a job has changed a store, the broker or anything else that is
shared. -/
def HasActed (m : Migration ρ) (n : Nat) (history : List (Happening ρ)) : Prop :=
  ∃ way, m.Takes (.job n way) (fun m m' => m'.site ≠ m.site) history

/-- In the course of a history a job has called a store. -/
def HasCalled (m : Migration ρ) (n : Nat) (history : List (Happening ρ)) : Prop :=
  ∃ way, m.Takes (.job n way)
    (fun m m' => ∃ side, (m'.site.store side).log ≠ (m.site.store side).log) history

theorem HasCalled.hasActed {history : List (Happening ρ)} (h : m.HasCalled n history) :
    m.HasActed n history := by
  obtain ⟨way, past, rest, heq, side, hne⟩ := h
  exact ⟨way, past, rest, heq, fun hsite => hne (by rw [hsite])⟩

theorem finished_of_hasActed (hm : m.scheduler = {}) (hawait : m.config.awaitPreviousJob = true)
    {history : List (Happening ρ)} (hi : (m.after history).scheduler.Has kind i)
    (hn : (m.after history).scheduler.Has kind n) (hlt : i < n) (h : m.HasActed n history) :
    (m.after history).scheduler.HasFinished i := by
  obtain ⟨way, past, rest, rfl, hne⟩ := h
  have hmove : ((m.after past).move (.job n way)).isSome := by
    by_contra hnone
    rw [Option.not_isSome_iff_eq_none] at hnone
    exact hne (by rw [perform, hnone]; rfl)
  have hlength : n < (m.after past).scheduler.jobs.length := by
    obtain ⟨m', hmove⟩ := Option.isSome_iff_exists.mp hmove
    cases moved_of_move hmove with
    | job hj => exact (List.getElem?_eq_some_iff.mp hj).1
  rw [after_append] at hi hn ⊢
  exact hasFinished_after (finished_of_move (inLine_after hm hawait past kind)
    (isLinked_after hm past) (has_of_after _ hlength hn) (has_of_after _ (by omega) hi) hlt hmove) _

/-- A job that is not the last one of its kind leaves everything that is shared as it is from then
on. -/
theorem not_acts_of_succeeded (hm : m.scheduler = {}) {past : List (Happening ρ)}
    (hn : (m.after past).scheduler.Has kind n)
    (hlast : (m.after past).scheduler.current kind ≠ some n) (rest : List (Happening ρ))
    (way : Scan.Way) :
    ((m.after (past ++ rest)).perform (.turn (.job n way))).site =
      (m.after (past ++ rest)).site := by
  obtain ⟨j, hj, hkind⟩ := hn
  have hstop := (succession_of_empty hm past kind).stopped n j hj hkind hlast
  have hv : (m.after past).validation? (.job n) = some (j.scan, j.stopped) := by
    simp [validation?, hj]
  obtain ⟨s, stopped, hv', hoff⟩ := isCalledOff_after hv (.inl hstop) rest
  rw [after_append]
  exact site_perform_of_isCalledOff hv' hoff way

/-- Jobs that wait for the job before them do not overlap. After every history of a migration that
starts without jobs: of two jobs of a kind that have called a store, one has ended; the jobs of a
kind end in the order in which they were started, each of them moving only when those before it have
ended; and a job that lost its place while one before it had not ended changes nothing that is
shared, neither before nor after. -/
theorem no_overlap (m : Migration ρ) (hm : m.scheduler = {})
    (hawait : m.config.awaitPreviousJob = true) (history : List (Happening ρ)) (kind : JobKind) :
    let m' := m.after history
    let started := m.launches kind history
    (∀ i ∈ started, ∀ j ∈ started, m.HasCalled i history → m.HasCalled j history →
      ¬m'.scheduler.HasFinished i → ¬m'.scheduler.HasFinished j → i = j) ∧
    started.Pairwise (fun i j =>
      (m'.scheduler.HasFinished j → m'.scheduler.HasFinished i) ∧
        ∀ way, (m'.move (.job j way)).isSome → m'.scheduler.HasFinished i) ∧
    ∀ past rest, history = past ++ rest →
      ∀ i j k, List.Sublist [i, j, k] (m.launches kind past) →
        ¬(m.after past).scheduler.HasFinished i → ¬m.HasActed j history := by
  intro m' started
  have hs := succession_of_empty hm history kind
  have hline := inLine_after hm hawait history kind
  refine ⟨fun i hi j hj hcalled hcalled' hf hf' => ?_, ?_, ?_⟩
  · have hi := (hs.mem_iff i).mp hi
    have hj := (hs.mem_iff j).mp hj
    rcases Nat.lt_trichotomy i j with hlt | heq | hlt
    · exact absurd (finished_of_hasActed hm hawait hi hj hlt hcalled'.hasActed) hf
    · exact heq
    · exact absurd (finished_of_hasActed hm hawait hj hi hlt hcalled.hasActed) hf'
  · refine hs.increasing.imp_of_mem fun hi hj hlt => ?_
    have hi := (hs.mem_iff _).mp hi
    have hj := (hs.mem_iff _).mp hj
    exact ⟨hline.order _ _ hi hj hlt,
      fun way => finished_of_move hline (isLinked_after hm history) hj hi hlt⟩
  · rintro past rest rfl i j k hsub hf ⟨way, before, later, heq, hne⟩
    have hs := succession_of_empty hm past kind
    have hlt := hs.increasing.sublist hsub
    simp only [List.pairwise_cons, List.mem_cons, List.not_mem_nil, or_false, forall_eq_or_imp,
      forall_eq] at hlt
    have hi := (hs.mem_iff i).mp (hsub.mem (by simp))
    have hj := (hs.mem_iff j).mp (hsub.mem (by simp))
    have hk := (hs.mem_iff k).mp (hsub.mem (by simp))
    have hlast : (m.after past).scheduler.current kind ≠ some j := by
      obtain ⟨p, hp, hle⟩ := hs.le_current hk
      rw [hp]
      rintro ⟨⟩
      omega
    -- the turn came after `past` or was a part of it
    rcases List.append_eq_append_iff.mp heq with ⟨rest', rfl, -⟩ | ⟨rest', rfl, hrest⟩
    · exact hne (not_acts_of_succeeded hm hj hlast rest' way)
    · cases rest' with
      | nil => exact hne (by simpa using not_acts_of_succeeded hm hj hlast [] way)
      | cons turn rest' =>
        cases hrest
        exact hf (finished_of_hasActed hm hawait hi hj hlt.1.1 ⟨way, before, rest', rfl, hne⟩)

/-- Three full jobs, each in the place of the one before it, the first of them with a call under
way. -/
def sampleRestarts : List (Happening Account) :=
  [.plan .src { latency := 50 }, .order .startFull, .turn (.job 0 .baseToTarget), .order .startFull,
    .order .startFull]

/-- Turns in which the first two jobs end and the third one calls a store. -/
def sampleAwaited : List (Happening Account) :=
  [.turn (.job 1 .baseToTarget), .turn (.job 0 .baseToTarget), .turn (.job 0 .targetToBase),
    .turn (.job 1 .baseToTarget), .turn (.job 1 .targetToBase), .turn (.job 2 .baseToTarget)]

theorem no_overlap_sample :
    let history := sampleRestarts ++ sampleAwaited
    let s := (sampleIdle.after history).scheduler
    sampleIdle.scheduler = {} ∧ sampleIdle.config.awaitPreviousJob = true ∧
      sampleIdle.launches .full sampleRestarts = [0, 1, 2] ∧
      sampleIdle.HasCalled 0 history ∧ sampleIdle.HasCalled 2 history ∧
      ¬(sampleIdle.after sampleRestarts).scheduler.HasFinished 0 ∧ s.HasFinished 0 ∧
      ¬s.HasFinished 2 ∧ ¬sampleIdle.HasActed 1 history := by
  have hstarted : sampleIdle.launches .full sampleRestarts = [0, 1, 2] := by decide +kernel
  have hstarted' : sampleIdle.launches .full (sampleRestarts ++ sampleAwaited) = [0, 1, 2] := by
    decide +kernel
  have hfirst : sampleIdle.HasCalled 0 (sampleRestarts ++ sampleAwaited) :=
    ⟨.baseToTarget, sampleRestarts.take 2, sampleRestarts.drop 3 ++ sampleAwaited, rfl, .src,
      by decide +kernel⟩
  have hlast : sampleIdle.HasCalled 2 (sampleRestarts ++ sampleAwaited) :=
    ⟨.baseToTarget, sampleRestarts ++ sampleAwaited.take 5, [], rfl, .src, by decide +kernel⟩
  have hunfinished : ¬(sampleIdle.after sampleRestarts).scheduler.HasFinished 0 := by
    decide +kernel
  have hrunning :
      ¬(sampleIdle.after (sampleRestarts ++ sampleAwaited)).scheduler.HasFinished 2 := by
    decide +kernel
  obtain ⟨hone, -, hnever⟩ := no_overlap sampleIdle rfl rfl (sampleRestarts ++ sampleAwaited) .full
  rw [hstarted'] at hone
  refine ⟨rfl, rfl, hstarted, hfirst, hlast, hunfinished, ?_, hrunning,
    hnever sampleRestarts sampleAwaited rfl 0 1 2 (hstarted ▸ List.Sublist.refl _)
      hunfinished⟩
  by_contra hf
  exact absurd (hone 0 (by simp) 2 (by simp) hfirst hlast hf hrunning) (by decide)

end Migration

end Cutover
