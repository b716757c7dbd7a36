import Cutover.Proofs.Passes

/-!
# Work in every order of its moves

Work over a deployment moves in small steps, and at each moment one of several moves may be next.
`Deployment.Course` is a finite course of such moves, at moments of any times, while the delays of
later calls change within a limit. Work *concludes* if no course goes on for ever or comes to a stop
before its end, and if every end is a success. Main statement: an invariant and a weight that each
move lowers show that work concludes (`Deployment.Concludes.of_invariant`).
-/

namespace Cutover

variable {ρ : Type} [Entity ρ]

namespace Deployment

/-- Replaces what is planned for the calls to a store. -/
def setFaults (d : Deployment ρ) (side : Side) (faults : FaultPlan) : Deployment ρ :=
  d.setStore { d.store side with faults } side

/-- Replaces what is planned for the messages that are published. -/
def setBrokerFaults (d : Deployment ρ) (faults : FaultPlan) : Deployment ρ :=
  { d with broker := { d.broker with faults } }

theorem alike_setFaults (d : Deployment ρ) (side : Side) (faults : FaultPlan) :
    d.Alike (d.setFaults side faults) := .setStore ⟨rfl, id⟩

theorem alike_setBrokerFaults (d : Deployment ρ) (faults : FaultPlan) :
    d.Alike (d.setBrokerFaults faults) := .withBroker ⟨rfl, rfl, rfl, fun _ _ => rfl⟩

theorem Prompt.setFaults {limit : Nat} {d : Deployment ρ} (h : d.Prompt limit) {faults : FaultPlan}
    (hf : faults.Prompt limit) (side : Side) : (d.setFaults side faults).Prompt limit :=
  h.setStore (s := { d.store side with faults }) ⟨hf, (h.1 side).2⟩ side

theorem Prompt.setBrokerFaults {limit : Nat} {d : Deployment ρ} (h : d.Prompt limit)
    {faults : FaultPlan} (hf : faults.Prompt limit) : (d.setBrokerFaults faults).Prompt limit :=
  ⟨fun side => by simpa [Deployment.setBrokerFaults] using h.1 side, h.2.1, hf, h.2.2.2⟩

/-- A deployment in which the calls that have not started take another time within a limit. -/
inductive Retimed (limit : Nat) (d : Deployment ρ) : Deployment ρ → Prop where
  | store (side : Side) {faults : FaultPlan} : faults.Prompt limit →
      Retimed limit d (d.setFaults side faults)
  | broker {faults : FaultPlan} : faults.Prompt limit → Retimed limit d (d.setBrokerFaults faults)

theorem Retimed.alike {limit : Nat} {d d' : Deployment ρ} (h : d.Retimed limit d') :
    d.Alike d' := by
  cases h with
  | store side _ => exact d.alike_setFaults side _
  | broker _ => exact d.alike_setBrokerFaults _

theorem Retimed.prompt {limit : Nat} {d d' : Deployment ρ} (h : d.Retimed limit d')
    (hd : d.Prompt limit) : d'.Prompt limit := by
  cases h with
  | store side hf => exact hd.setFaults hf side
  | broker hf => exact hd.setBrokerFaults hf

section

variable {ι σ : Type} (limit : Nat)
  (step : ι → Moment → Deployment ρ → σ → Option (Deployment ρ × σ))
  (result? : σ → Option (Except Error Unit))

/-- A course of `n` moves of work that nobody asks to stop. -/
inductive Course (d₀ : Deployment ρ) (s₀ : σ) : Nat → Deployment ρ → σ → Prop where
  | start : Course d₀ s₀ 0 d₀ s₀
  | move {n d s d' s'} (i : ι) (now : Nat) : Course d₀ s₀ n d s →
      step i ⟨now, false⟩ d s = some (d', s') → Course d₀ s₀ (n + 1) d' s'
  | retime {n d s d'} : Course d₀ s₀ n d s → d.Retimed limit d' → Course d₀ s₀ n d' s

/-- Whatever the order and the times of its moves, work comes to an end, succeeds and leaves a
deployment with `Q`. -/
structure Concludes (d₀ : Deployment ρ) (s₀ : σ) (Q : Deployment ρ → Prop) : Prop where
  bounded : ∃ bound, ∀ n d s, Course limit step d₀ s₀ n d s → n ≤ bound
  live : ∀ n d s, Course limit step d₀ s₀ n d s → result? s = none →
    ∃ i t, ∀ now, t ≤ now → (step i ⟨now, false⟩ d s).isSome
  succeeds : ∀ n d s r, Course limit step d₀ s₀ n d s → result? s = some r → r = .ok () ∧ Q d

end

section

variable {ι σ : Type} {limit : Nat}
  {step : ι → Moment → Deployment ρ → σ → Option (Deployment ρ × σ)}
  {result? : σ → Option (Except Error Unit)} {d₀ : Deployment ρ} {s₀ : σ} {Q : Deployment ρ → Prop}

/-- What holds at the start and is kept by moves and by other delays holds all along a course. -/
theorem Course.invariant {I : Nat → Deployment ρ → σ → Prop} (start : I 0 d₀ s₀)
    (retime : ∀ {n d s d'}, I n d s → d.Retimed limit d' → I n d' s)
    (move : ∀ {n i now d s d' s'}, I n d s → step i ⟨now, false⟩ d s = some (d', s') →
      I (n + 1) d' s')
    {n : Nat} {d : Deployment ρ} {s : σ} (h : Course limit step d₀ s₀ n d s) : I n d s := by
  induction h with
  | start => exact start
  | move i now _ hstep ih => exact move ih hstep
  | retime _ hr ih => exact retime ih hr

theorem Concludes.of_invariant (I : Deployment ρ → σ → Prop) (weight : σ → Nat) (start : I d₀ s₀)
    (retime : ∀ {d s d'}, I d s → d.Retimed limit d' → I d' s)
    (move : ∀ {i now d s d' s'}, I d s → step i ⟨now, false⟩ d s = some (d', s') →
      I d' s' ∧ weight s' < weight s)
    (live : ∀ {d s}, I d s → result? s = none →
      ∃ i t, ∀ now, t ≤ now → (step i ⟨now, false⟩ d s).isSome)
    (done : ∀ {d s r}, I d s → result? s = some r → r = .ok () ∧ Q d) :
    Concludes limit step result? d₀ s₀ Q := by
  have inv {n d s} (h : Course limit step d₀ s₀ n d s) : I d s ∧ n + weight s ≤ weight s₀ := by
    refine h.invariant (I := fun n d s => I d s ∧ n + weight s ≤ weight s₀)
      ⟨start, by omega⟩ (fun ih hr => ⟨retime ih.1 hr, ih.2⟩) fun ih hstep => ?_
    obtain ⟨hI, hlt⟩ := move ih.1 hstep
    exact ⟨hI, by omega⟩
  constructor
  · exact ⟨weight s₀, fun n d s h => by have := (inv h).2; omega⟩
  · intro n d s h hr
    exact live (inv h).1 hr
  · intro n d s r h hr
    exact done (inv h).1 hr

theorem Concludes.mono {Q' : Deployment ρ → Prop} (h : Concludes limit step result? d₀ s₀ Q)
    (hQ : ∀ d, Q d → Q' d) : Concludes limit step result? d₀ s₀ Q' := by
  refine ⟨h.bounded, h.live, fun n d s r hc hr => ?_⟩
  obtain ⟨hok, hd⟩ := h.succeeds n d s r hc hr
  exact ⟨hok, hQ d hd⟩

end

end Deployment

end Cutover
