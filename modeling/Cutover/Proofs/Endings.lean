import Cutover.Proofs.Histories

/-!
# How consumers end

A consumer is to go on until it is asked to stop or the broker is closed. There is a third way: when
a collaborator of its handler says that it was cancelled, the consumer ends though nobody asked it
to, and leaves the message and all that come after it (`Migration.ends_unasked`). `Consumer.Leaves`
names the three ways. Main statement: no consumer ends in any other way, and each ends at its first
turn in one of them (`Migration.hasEnded_after`).
-/

namespace Cutover

variable {ρ : Type} [Entity ρ]

/-! ## The moves that end a consumer -/

namespace Consumer

/-- Why a consumer ends when it moves. -/
inductive Leaves (d : Deployment ρ) (c : Consumer ρ) : Prop where
  /-- It was asked to stop. -/
  | asked : c.stopped = true → Leaves d c
  /-- It finds the broker closed when it looks for a message. -/
  | closed : c.phase = .waiting → d.broker.closed = true → Leaves d c
  /-- Its handler says that it was cancelled. -/
  | cancelled {message work due} : c.phase = .handling message work due →
      work.result? = some (.error .cancelled) → Leaves d c

variable {now : Nat} {d d' : Deployment ρ} {c c' : Consumer ρ}

theorem isDone_onMessage {message : Delivery} :
    (onMessage now d c message).2.isDone = false := by
  unfold onMessage
  split <;> rfl

theorem isDone_onOutcome (d : Deployment ρ) (c : Consumer ρ) (message : Delivery)
    (outcome : Except Error Unit) :
    (onOutcome d c message outcome).2.isDone = true ↔ outcome = .error .cancelled := by
  unfold onOutcome
  split
  · simp [isDone]
  · simp [isDone]
  · next hne => simpa [isDone] using hne

theorem closed_iff_poll {b : Broker} {s : Subscription} : b.poll s = .closed ↔ b.closed = true := by
  unfold Broker.poll
  cases b.closed with
  | true => simp
  | false => cases (b.log s.topic)[s.cursor]? <;> simp

/-- A consumer that is not asked to stop has a reason to leave in two of its phases only. -/
theorem leaves_iff (hasked : c.stopped = false) :
    c.Leaves d ↔ match c.phase with
      | .waiting => d.broker.closed = true
      | .handling _ work _ => work.result? = some (.error .cancelled)
      | _ => False := by
  constructor
  · rintro (h | ⟨hph, h⟩ | ⟨hph, h⟩)
    · simp [hasked] at h
    · simpa only [hph] using h
    · simpa only [hph] using h
  · intro h
    split at h
    · next hph => exact .closed hph h
    · next hph => exact .cancelled hph h
    · cases h

/-- A consumer that can move ends if and only if it has a reason to leave. -/
theorem isDone_of_step (h : c.step now d = some (d', c')) : c'.isDone = true ↔ c.Leaves d := by
  unfold step at h
  split at h
  · cases h
  split at h
  · next hasked =>
    cases h
    exact ⟨fun _ => .asked hasked, fun _ => rfl⟩
  next hasked =>
  rw [leaves_iff (by simpa using hasked)]
  unfold proceed at h
  cases hph : c.phase with
  | asking =>
    simp only [hph] at h
    split at h <;> cases h <;> simp [isDone]
  | waiting =>
    change _ ↔ d.broker.closed = true
    rw [← closed_iff_poll (s := c.subscription)]
    simp only [hph] at h
    split at h
    · next hclosed =>
      cases h
      simp [isDone, hclosed]
    · next hmessage =>
      have hnot := congrArg (·.2.isDone) (Option.some.inj h)
      simp [← hnot, isDone_onMessage, hmessage]
    · cases h
  | handling message work due =>
    change _ ↔ work.result? = some (.error .cancelled)
    simp only [hph] at h
    split at h
    · next outcome hres =>
      rw [hres, Option.some_inj, ← isDone_onOutcome d c message, Option.some.inj h]
    · next hres =>
      split at h
      · cases h
        simp [isDone, hres]
      · split at h
        · have hnot := isDone_onOutcome d c message (.error .deadlineExceeded)
          rw [Option.some.inj h] at hnot
          simp [hnot, hres]
        · cases h
  | resting flight =>
    simp only [hph] at h
    obtain ⟨p, -, heq⟩ := Option.map_eq_some_iff.mp h
    split at heq <;> cases heq <;> simp [isDone]
  | done =>
    simp only [hph] at h
    cases h

/-- A consumer with a reason to leave does not have to wait. -/
theorem step_of_leaves (h : c.Leaves d) (hc : c.isDone = false) :
    c.step now d = some (d, { c with phase := .done }) := by
  unfold step
  rw [if_neg (by simp [hc])]
  split
  · rfl
  next hasked =>
  unfold proceed
  cases h with
  | asked h => exact absurd h hasked
  | closed hph hclosed => simp [hph, closed_iff_poll.mpr hclosed]
  | cancelled hph hres => simp [hph, hres, onOutcome]

end Consumer

/-! ## The happenings that end a consumer -/

namespace Migration

/-- Whether the consumer with a number has ended. -/
def HasEnded (m : Migration ρ) (n : Nat) : Prop :=
  ∃ c, m.consumers[n]? = some c ∧ c.isDone = true

/-- Whether something that happens ends the consumer with a number, which has not ended before. -/
def Ends (m : Migration ρ) (n : Nat) (x : Happening ρ) : Prop :=
  ∃ c, m.consumers[n]? = some c ∧ c.isDone = false ∧
    (x = .abort n ∨ x = .turn (.consumer n) ∧ c.Leaves m.site)

theorem isDone_turn {m : Migration ρ} {n : Nat} {c : Consumer ρ} (hc : m.consumers[n]? = some c) :
    ∃ c', (m.perform (.turn (.consumer n))).consumers[n]? = some c' ∧
      (c'.isDone = true ↔ c.isDone = true ∨ c.Leaves m.site) := by
  have hlt := (List.getElem?_eq_some_iff.mp hc).1
  cases hstep : c.step m.now m.site with
  | some p =>
    have hnot : c.isDone = false := by
      cases hd : c.isDone with
      | false => rfl
      | true => simp [Consumer.step, hd] at hstep
    refine ⟨p.2, ?_, ?_⟩
    · rw [perform_consumer hc hstep]
      exact List.getElem?_set_self hlt
    · simpa [hnot] using Consumer.isDone_of_step hstep
  | none =>
    refine ⟨c, by simp [perform, move, hc, hstep], ?_⟩
    cases hd : c.isDone with
    | true => simp
    | false =>
      have hleaves : ¬ c.Leaves m.site := fun h => by
        simp [Consumer.step_of_leaves h hd] at hstep
      simp [hleaves]

/-- What something that happens makes of a consumer: it has ended before, or it ends now, or neither
before nor now. -/
theorem isDone_perform {m : Migration ρ} {n : Nat} {c : Consumer ρ} (hc : m.consumers[n]? = some c)
    (x : Happening ρ) :
    ∃ c', (m.perform x).consumers[n]? = some c' ∧
      (c'.isDone = true ↔ c.isDone = true ∨ m.Ends n x) := by
  have hends : m.Ends n x ↔ c.isDone = false ∧
      (x = .abort n ∨ x = .turn (.consumer n) ∧ c.Leaves m.site) := by simp [Ends, hc]
  rw [hends]
  have same (hx : x ≠ .abort n) (hx' : x ≠ .turn (.consumer n))
      (h : (m.perform x).consumers[n]? = some c) :
      ∃ c', (m.perform x).consumers[n]? = some c' ∧ (c'.isDone = true ↔ c.isDone = true ∨
        c.isDone = false ∧ (x = .abort n ∨ x = .turn (.consumer n) ∧ c.Leaves m.site)) :=
    ⟨c, h, by simp [hx, hx']⟩
  have modified {i : Nat} {f : Consumer ρ → Consumer ρ} :
      (m.consumers.modify i f)[n]? = some (if i = n then f c else c) := by
    rw [List.getElem?_modify, hc]
    split <;> rfl
  cases x with
  | turn t =>
    by_cases ht : t = .consumer n
    · subst ht
      obtain ⟨c', hc', hdone⟩ := isDone_turn hc
      refine ⟨c', hc', ?_⟩
      cases hd : c.isDone <;> simp [hdone, hd]
    · refine same (by simp) (by simp [ht]) ?_
      rcases m.perform_turn t with heq | ⟨m', heq, hmoved⟩
      · rw [heq, hc]
      · rw [heq]
        cases hmoved with
        | @consumer i =>
          have hi : i ≠ n := fun h => ht (h ▸ rfl)
          rw [List.getElem?_set_ne hi, hc]
        | job | run | post => exact hc
  | order o =>
    refine same (by simp) (by simp) ?_
    rcases m.perform_order o with heq | ⟨a, policy, scheduler, -, heq⟩
    · rw [heq, hc]
    · rw [heq, hc]
  | join handler group topic limit backoff stopped =>
    refine same (by simp) (by simp) ?_
    have hlt := (List.getElem?_eq_some_iff.mp hc).1
    obtain ⟨b, -, heq | heq⟩ := m.startConsumer_cases handler group topic limit backoff stopped
    · rw [perform, heq]
      exact hc
    · rw [perform, heq, List.getElem?_append_left hlt, hc]
  | stop i =>
    refine ⟨_, modified, ?_⟩
    have hdone : (if i = n then c.stop else c).isDone = c.isDone := by split <;> rfl
    simp [hdone]
  | abort i =>
    refine ⟨_, modified, ?_⟩
    by_cases hi : i = n
    · simp [hi, Consumer.abort, Consumer.isDone]
    · simp [hi]
  | _ => exact same (by simp) (by simp) hc

theorem hasEnded_perform (m : Migration ρ) (n : Nat) (x : Happening ρ) :
    (m.perform x).HasEnded n ↔ m.HasEnded n ∨ m.Ends n x := by
  cases hc : m.consumers[n]? with
  | some c =>
    obtain ⟨c', hc', hdone⟩ := isDone_perform hc x
    simp [HasEnded, hc, hc', hdone]
  | none =>
    -- a consumer that has just joined looks for its first message
    have hbefore : ¬ (m.HasEnded n ∨ m.Ends n x) := by simp [HasEnded, Ends, hc]
    refine iff_of_false ?_ hbefore
    rintro ⟨c', hc', hdone⟩
    rcases consumer_perform hc' with ⟨c, hc'', -⟩ | ⟨-, hph⟩
    · simp [hc] at hc''
    · simp [Consumer.isDone, hph] at hdone

/-- A consumer has ended if and only if it was aborted, or took a turn when it had been asked to
stop, when it found the broker closed, or when its handler said that it was cancelled. -/
theorem hasEnded_after (m : Migration ρ) (n : Nat) (history : List (Happening ρ)) :
    (m.after history).HasEnded n ↔ m.HasEnded n ∨
      ∃ past x rest, history = past ++ x :: rest ∧ (m.after past).Ends n x := by
  induction history generalizing m with
  | nil => simp [after]
  | cons y rest ih =>
    change ((m.perform y).after rest).HasEnded n ↔ _
    rw [ih, hasEnded_perform, or_assoc]
    refine or_congr_right ⟨?_, ?_⟩
    · rintro (h | ⟨past, x, rest, rfl, h⟩)
      · exact ⟨[], y, rest, rfl, h⟩
      · exact ⟨y :: past, x, rest, rfl, h⟩
    · rintro ⟨past, x, rest, heq, h⟩
      rcases List.cons_eq_append_iff.mp heq with ⟨rfl, heq⟩ | ⟨past, rfl, rfl⟩
      · cases heq
        exact .inl h
      · exact .inr ⟨past, x, rest, rfl, h⟩

/-- A row that only the source has, and a report of it. The source says of the first read that it
was cancelled. -/
def sampleOutage : Migration Account :=
  { site := { Deployment.ofRows [] [] .srcOnly with
      src := (Store.ofList "src" [⟨1, "ann", 10, 5⟩]).setScript "first" [some .cancelled]
      broker := ({} : Broker).append "migrator_inconsistent"
        (Report.encode ⟨1, .src, .targetMissing⟩) } }

/-- A fixer starts, looks for a message, begins with the report, reads the source and is given its
answer. -/
def sampleFixing : List (Happening Account) :=
  .join .fixer "migrator-fix" "migrator_inconsistent" 1000 100 false ::
    List.replicate 5 (.turn (.consumer 0))

/-- A consumer that nobody asked to stop ends while the broker is open. The row is not repaired. -/
theorem ends_unasked :
    let m := sampleOutage.after sampleFixing
    m.HasEnded 0 ∧ m.consumers.map Consumer.stopped = [false] ∧ m.site.broker.closed = false ∧
      m.site.broker.committedOffset "migrator-fix" "migrator_inconsistent" = 0 ∧
      m.site.src.rows = [⟨1, "ann", 10, 5⟩] ∧ m.site.dst.rows = [] := by
  refine ⟨⟨_, rfl, ?_⟩, ?_, ?_, ?_, ?_, ?_⟩ <;> decide +kernel

end Migration

end Cutover
