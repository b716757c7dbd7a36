import Cutover.Traffic.Session
import Mathlib.Data.List.Basic

/-!
# What an operation depends on

An operation on a pool has to do with the ledgers of the pool alone: it gives the same in fleets
that agree on them, and it changes no others (`Fleet.Local`). The failures that are passed over and
the time that has gone by are written and not read. Main statements: one for each operation on
transactions (`Transaction.local_execute` to `Transaction.local_rollBack`) and on pools
(`Pool.local_execute` to `Pool.local_begin`), by induction on how they are built.
-/

namespace Cutover.Traffic

namespace Fleet

variable {α : Type} {names : List String} {f f' f'' g : Fleet}

/-! ## Agreement and change -/

/-- Fleets with the same policies and the same ledgers of some names. -/
structure AgreeOn (names : List String) (f g : Fleet) : Prop where
  policy : ∀ name, f.policy name = g.policy name
  ledger : ∀ name ∈ names, f.ledger name = g.ledger name

/-- A change of no policies, and of no ledgers but those of some names. -/
structure Within (names : List String) (f f' : Fleet) : Prop where
  policy : ∀ name, f'.policy name = f.policy name
  ledger : ∀ name ∉ names, f'.ledger name = f.ledger name

theorem AgreeOn.refl (names : List String) (f : Fleet) : f.AgreeOn names f :=
  ⟨fun _ => rfl, fun _ _ => rfl⟩

theorem Within.trans (h : f.Within names f') (h' : f'.Within names f'') : f.Within names f'' :=
  ⟨fun name => (h'.policy name).trans (h.policy name),
    fun name hn => (h'.ledger name hn).trans (h.ledger name hn)⟩

/-- What happens to other ledgers does not matter. -/
theorem AgreeOn.within {others : List String} (h : f.AgreeOn names g) (hf : f.Within others f')
    (hdisjoint : names.Disjoint others) : f'.AgreeOn names g :=
  ⟨fun name => (hf.policy name).trans (h.policy name),
    fun name hn => (hf.ledger name fun ho => hdisjoint hn ho).trans (h.ledger name hn)⟩

theorem AgreeOn.setLedger (h : f.AgreeOn names g) (name : String) (l : Ledger) :
    (f.setLedger name l).AgreeOn names (g.setLedger name l) :=
  ⟨h.policy, fun other ho => by rw [ledger_setLedger, ledger_setLedger, h.ledger other ho]⟩

theorem within_setLedger {name : String} (hn : name ∈ names) (f : Fleet) (l : Ledger) :
    f.Within names (f.setLedger name l) := by
  refine ⟨fun _ => rfl, fun other ho => ?_⟩
  have hne : other ≠ name := fun heq => ho (heq ▸ hn)
  rw [ledger_setLedger, if_neg hne]

theorem AgreeOn.modifyLedger {name : String} (h : f.AgreeOn names g) (hn : name ∈ names)
    (change : Ledger → Ledger) :
    (f.modifyLedger name change).AgreeOn names (g.modifyLedger name change) := by
  unfold Fleet.modifyLedger
  rw [h.ledger name hn]
  exact h.setLedger name _

/-! ## Operations -/

/-- An operation that has to do with the ledgers of some names alone. -/
def Local (names : List String) (op : Fleet → α × Fleet) : Prop :=
  ∀ f g, f.AgreeOn names g →
    ∃ a f' g', op f = (a, f') ∧ op g = (a, g') ∧ f'.AgreeOn names g' ∧ g.Within names g'

theorem Local.within {op : Fleet → α × Fleet} (h : Local names op) (f : Fleet) :
    f.Within names (op f).2 := by
  obtain ⟨a, _, f', -, hf, -, hwithin⟩ := h f f (.refl names f)
  rwa [hf]

/-- An operation that goes on with what another one gives back. -/
theorem Local.map {β : Type} {op : Fleet → α × Fleet} (h : Local names op) (φ : α → β) :
    Local names fun f => (φ (op f).1, (op f).2) := by
  intro f g hfg
  obtain ⟨a, f', g', hf, hg, hagree, hwithin⟩ := h f g hfg
  exact ⟨φ a, f', g', by simp only [hf], by simp only [hg], hagree, hwithin⟩

theorem local_reach {name : String} (hn : name ∈ names) (op : String) :
    Local names (·.reach name op) := by
  intro f g h
  unfold reach
  dsimp only
  rw [h.ledger name hn]
  have hnow (time time' : Nat) :
      ({ f with now := time } : Fleet).AgreeOn names { g with now := time' } :=
    ⟨h.policy, h.ledger⟩
  have hg (time : Nat) : g.Within names { g with now := time } := ⟨fun _ => rfl, fun _ _ => rfl⟩
  cases (g.ledger name).faults.start.refusal? op with
  | none => exact ⟨_, _, _, rfl, rfl, (hnow _ _).setLedger name _,
      (hg _).trans (within_setLedger hn _ _)⟩
  | some faults => exact ⟨_, _, _, rfl, rfl, (hnow _ _).setLedger name _,
      (hg _).trans (within_setLedger hn _ _)⟩

end Fleet

open Fleet

variable {names : List String}

/-! ## Failures that are passed over -/

theorem within_passOver {α : Type} (pool store operation : String) (s : Option Statement)
    (result : Except Error α) (f : Fleet) :
    f.Within names (passOver pool store operation s result f) := by
  cases result <;> exact ⟨fun _ => rfl, fun _ _ => rfl⟩

theorem agreeOn_passOver {α : Type} {f g : Fleet} (h : f.AgreeOn names g)
    (pool store operation : String) (s : Option Statement) (result : Except Error α) :
    (passOver pool store operation s result f).AgreeOn names
      (passOver pool store operation s result g) := by
  cases result <;> exact ⟨h.policy, h.ledger⟩

/-! ## Transactions -/

namespace Transaction

/-- The names of the ledgers that a transaction is over. -/
def ledgers : Transaction → List String
  | .ledger name _ => [name]
  | .single _ primary => primary.ledgers
  | .dual _ primary _ secondary => primary.ledgers ++ secondary.ledgers

theorem local_execute (s : Statement) (t : Transaction) (ht : t.ledgers ⊆ names) {f g : Fleet}
    (h : f.AgreeOn names g) :
    ∃ r t' f' g', t.execute s f = (r, t', f') ∧ t.execute s g = (r, t', g') ∧
      t'.ledgers = t.ledgers ∧ f'.AgreeOn names g' ∧ g.Within names g' := by
  induction t generalizing f g with
  | ledger name pending =>
    obtain ⟨r, f', g', hf, hg, hagree, hwithin⟩ :=
      local_reach (ht (List.mem_singleton_self name)) "tx_execute" f g h
    simp only [execute, hf, hg]
    cases r <;> exact ⟨_, _, _, _, rfl, rfl, rfl, hagree, hwithin⟩
  | single r primary ih =>
    obtain ⟨result, t', f', g', hf, hg, ht', hagree, hwithin⟩ := ih ht h
    simp only [execute, hf, hg]
    exact ⟨_, _, _, _, rfl, rfl, ht', hagree, hwithin⟩
  | dual r primary secondaryName secondary ih₁ ih₂ =>
    obtain ⟨ht₁, ht₂⟩ := List.append_subset.mp ht
    obtain ⟨result, u, f₁, g₁, hf, hg, hu, hagree, hwithin⟩ := ih₁ ht₁ h
    simp only [execute, hf, hg]
    cases result with
    | error e => exact ⟨_, _, _, _, rfl, rfl, by simp only [ledgers, hu], hagree, hwithin⟩
    | ok outcome =>
      obtain ⟨second, v, f₂, g₂, hf, hg, hv, hagree, hwithin'⟩ := ih₂ ht₂ hagree
      simp only [hf, hg]
      exact ⟨_, _, _, _, rfl, rfl, by simp only [ledgers, hu, hv],
        agreeOn_passOver hagree _ _ _ _ _,
        (hwithin.trans hwithin').trans (within_passOver _ _ _ _ _ _)⟩

theorem local_query (s : Statement) (t : Transaction) (ht : t.ledgers ⊆ names) :
    Local names (t.query s) := by
  induction t with
  | ledger name pending =>
    intro f g h
    have hn := ht (List.mem_singleton_self name)
    obtain ⟨r, f', g', hf, hg, hagree, hwithin⟩ := local_reach hn "tx_query" f g h
    simp only [query, hf, hg]
    cases r with
    | error e => exact ⟨_, _, _, rfl, rfl, hagree, hwithin⟩
    | ok => exact ⟨_, _, _, rfl, by rw [hagree.ledger name hn], hagree, hwithin⟩
  | single r primary ih => exact ih ht
  | dual r primary secondaryName secondary ih => exact ih (List.append_subset.mp ht).1

theorem local_queryRow (s : Statement) (t : Transaction) (ht : t.ledgers ⊆ names) :
    Local names (t.queryRow s) := (t.local_query s ht).map firstRow

theorem local_drop (t : Transaction) (ht : t.ledgers ⊆ names) :
    Local names fun f => ((), t.drop f) := by
  induction t with
  | ledger name pending =>
    intro f g h
    have hn := ht (List.mem_singleton_self name)
    exact ⟨(), _, _, rfl, rfl, h.modifyLedger hn _, within_setLedger hn g _⟩
  | single r primary ih => exact ih ht
  | dual r primary secondaryName secondary ih₁ ih₂ =>
    obtain ⟨ht₁, ht₂⟩ := List.append_subset.mp ht
    intro f g h
    obtain ⟨_, f₁, g₁, hf, hg, hagree, hwithin⟩ := ih₁ ht₁ f g h
    cases hf
    cases hg
    obtain ⟨_, f₂, g₂, hf, hg, hagree', hwithin'⟩ := ih₂ ht₂ _ _ hagree
    exact ⟨_, f₂, g₂, hf, hg, hagree', hwithin.trans hwithin'⟩

/-- The end of a transaction over two stores: if the first one fails to end its transaction, the
second one gives its own up. -/
theorem local_end {first second : Fleet → Except Error Unit × Fleet} (pool store operation : String)
    (secondary : Transaction) (ht : secondary.ledgers ⊆ names) (hfirst : Local names first)
    (hsecond : Local names second) :
    Local names fun f =>
      (match first f with
      | (.error e, f) => (.error e, secondary.drop f)
      | (.ok (), f) =>
        let (result, f) := second f
        (.ok (), passOver pool store operation none result f) : Except Error Unit × Fleet) := by
  intro f g h
  obtain ⟨result, f₁, g₁, hf, hg, hagree, hwithin⟩ := hfirst f g h
  simp only [hf, hg]
  cases result with
  | error e =>
    obtain ⟨_, f₂, g₂, hf, hg, hagree, hwithin'⟩ := secondary.local_drop ht f₁ g₁ hagree
    cases hf
    cases hg
    exact ⟨_, _, _, rfl, rfl, hagree, hwithin.trans hwithin'⟩
  | ok =>
    obtain ⟨second, f₂, g₂, hf, hg, hagree, hwithin'⟩ := hsecond f₁ g₁ hagree
    simp only [hf, hg]
    exact ⟨_, _, _, rfl, rfl, agreeOn_passOver hagree _ _ _ _ _,
      (hwithin.trans hwithin').trans (within_passOver _ _ _ _ _ _)⟩

theorem local_commit (t : Transaction) (ht : t.ledgers ⊆ names) : Local names t.commit := by
  induction t with
  | ledger name pending =>
    intro f g h
    have hn := ht (List.mem_singleton_self name)
    obtain ⟨r, f', g', hf, hg, hagree, hwithin⟩ := local_reach hn "commit" f g h
    simp only [commit, hf, hg]
    cases r <;> exact ⟨_, _, _, rfl, rfl, hagree.modifyLedger hn _,
      hwithin.trans (within_setLedger hn g' _)⟩
  | single r primary ih => exact ih ht
  | dual r primary secondaryName secondary ih₁ ih₂ =>
    obtain ⟨ht₁, ht₂⟩ := List.append_subset.mp ht
    exact local_end r.pool secondaryName "commit" secondary ht₂ (ih₁ ht₁) (ih₂ ht₂)

theorem local_rollBack (t : Transaction) (ht : t.ledgers ⊆ names) : Local names t.rollBack := by
  induction t with
  | ledger name pending =>
    intro f g h
    have hn := ht (List.mem_singleton_self name)
    obtain ⟨r, f', g', hf, hg, hagree, hwithin⟩ := local_reach hn "rollback" f g h
    simp only [rollBack, hf, hg]
    exact ⟨_, _, _, rfl, rfl, hagree.modifyLedger hn _, hwithin.trans (within_setLedger hn g' _)⟩
  | single r primary ih => exact ih ht
  | dual r primary secondaryName secondary ih₁ ih₂ =>
    obtain ⟨ht₁, ht₂⟩ := List.append_subset.mp ht
    exact local_end r.pool secondaryName "rollback" secondary ht₂ (ih₁ ht₁) (ih₂ ht₂)

/-- Whatever is done in a transaction has to do with its ledgers alone, and so has what is left of
it. -/
theorem local_perform (a : TxAct) (t : Transaction) (ht : t.ledgers ⊆ names) {f g : Fleet}
    (h : f.AgreeOn names g) :
    ∃ answer left f' g', t.perform f a = (answer, left, f') ∧ t.perform g a = (answer, left, g') ∧
      (∀ t' ∈ left, t'.ledgers = t.ledgers) ∧ f'.AgreeOn names g' ∧ g.Within names g' := by
  cases a with
  | execute s =>
    obtain ⟨r, t', f', g', hf, hg, ht', hagree, hwithin⟩ := t.local_execute s ht h
    simp only [perform, hf, hg]
    exact ⟨_, _, _, _, rfl, rfl, by simpa using ht', hagree, hwithin⟩
  | query s =>
    obtain ⟨r, f', g', hf, hg, hagree, hwithin⟩ := t.local_query s ht f g h
    simp only [perform, hf, hg]
    exact ⟨_, _, _, _, rfl, rfl, by simp, hagree, hwithin⟩
  | queryRow s =>
    obtain ⟨r, f', g', hf, hg, hagree, hwithin⟩ := t.local_queryRow s ht f g h
    simp only [perform, hf, hg]
    exact ⟨_, _, _, _, rfl, rfl, by simp, hagree, hwithin⟩
  | commit =>
    obtain ⟨r, f', g', hf, hg, hagree, hwithin⟩ := t.local_commit ht f g h
    simp only [perform, hf, hg]
    exact ⟨_, _, _, _, rfl, rfl, by simp, hagree, hwithin⟩
  | rollBack =>
    obtain ⟨r, f', g', hf, hg, hagree, hwithin⟩ := t.local_rollBack ht f g h
    simp only [perform, hf, hg]
    exact ⟨_, _, _, _, rfl, rfl, by simp, hagree, hwithin⟩
  | drop =>
    obtain ⟨_, f', g', hf, hg, hagree, hwithin⟩ := t.local_drop ht f g h
    cases hf
    cases hg
    exact ⟨_, _, _, _, rfl, rfl, by simp, hagree, hwithin⟩

end Transaction

/-! ## Pools -/

namespace Pool

/-- The names of the ledgers that a pool is over. -/
def ledgers : Pool → List String
  | .ledger name => [name]
  | .routed _ _ src dst => src.ledgers ++ dst.ledgers

theorem pick_execute (src dst : Pool) (s : Statement) (side : Side) :
    pick (src.execute s) (dst.execute s) side = (pick src dst side).execute s := by
  cases side <;> rfl

theorem pick_query (src dst : Pool) (s : Statement) (side : Side) :
    pick (src.query s) (dst.query s) side = (pick src dst side).query s := by
  cases side <;> rfl

theorem pick_begin (src dst : Pool) (side : Side) :
    pick src.begin dst.begin side = (pick src dst side).begin := by
  cases side <;> rfl

theorem execute_routed (pool cell : String) (src dst : Pool) (s : Statement) (f : Fleet) :
    (Pool.routed pool cell src dst).execute s f =
      match (pick src dst (f.policy cell).primary).execute s f with
      | (.error e, f') => (.error e, f')
      | (.ok outcome, f') =>
        match (f.policy cell).secondary with
        | none => (.ok outcome, f')
        | some side =>
          let (result, f') := (pick src dst side).execute s f'
          (.ok outcome, passOver pool (pick src dst side).name "execute" (some s) result f') := by
  have hroute := execute.eq_2 s f pool cell src dst
  simp only [pick_execute] at hroute
  exact hroute

theorem query_routed (pool cell : String) (src dst : Pool) (s : Statement) (f : Fleet) :
    (Pool.routed pool cell src dst).query s f =
      (pick src dst (f.policy cell).primary).query s f := by
  rw [query, pick_query]

theorem begin_routed (pool cell : String) (src dst : Pool) (f : Fleet) :
    (Pool.routed pool cell src dst).begin f =
      match (pick src dst (f.policy cell).primary).begin f with
      | (.error e, f') => (.error e, f')
      | (.ok primary, f') =>
        let r : Routed := ⟨pool, f.policy cell, (pick src dst (f.policy cell).primary).name⟩
        match (f.policy cell).secondary with
        | none => (.ok (.single r primary), f')
        | some side =>
          match (pick src dst side).begin f' with
          | (.ok secondary, f') => (.ok (.dual r primary (pick src dst side).name secondary), f')
          | (.error e, f') =>
            (.ok (.single r primary),
              passOver pool (pick src dst side).name "begin" none
                (.error e : Except Error Unit) f') := by
  have hroute := begin.eq_2 f pool cell src dst
  simp only [pick_begin] at hroute
  exact hroute

theorem local_pick {α : Type} {first second : Fleet → α × Fleet} (hfirst : Local names first)
    (hsecond : Local names second) (side : Side) : Local names (pick first second side) := by
  cases side
  · exact hfirst
  · exact hsecond

theorem local_execute (s : Statement) (p : Pool) (hp : p.ledgers ⊆ names) :
    Local names (p.execute s) := by
  induction p with
  | ledger name =>
    intro f g h
    have hn := hp (List.mem_singleton_self name)
    obtain ⟨r, f', g', hf, hg, hagree, hwithin⟩ := local_reach hn "execute" f g h
    simp only [execute, hf, hg]
    cases r with
    | error e => exact ⟨_, _, _, rfl, rfl, hagree, hwithin⟩
    | ok => exact ⟨_, _, _, rfl, rfl, hagree.modifyLedger hn _,
        hwithin.trans (within_setLedger hn g' _)⟩
  | routed pool policy src dst ih₁ ih₂ =>
    obtain ⟨hp₁, hp₂⟩ := List.append_subset.mp hp
    have hside := local_pick (ih₁ hp₁) (ih₂ hp₂)
    intro f g h
    obtain ⟨r, f₁, g₁, hf, hg, hagree, hwithin⟩ := hside (g.policy policy).primary f g h
    simp only [execute, h.policy policy, hf, hg]
    cases r with
    | error e => exact ⟨_, _, _, rfl, rfl, hagree, hwithin⟩
    | ok outcome =>
      cases (g.policy policy).secondary with
      | none => exact ⟨_, _, _, rfl, rfl, hagree, hwithin⟩
      | some side =>
        obtain ⟨second, f₂, g₂, hf, hg, hagree, hwithin'⟩ := hside side f₁ g₁ hagree
        simp only [hf, hg]
        exact ⟨_, _, _, rfl, rfl, agreeOn_passOver hagree _ _ _ _ _,
          (hwithin.trans hwithin').trans (within_passOver _ _ _ _ _ _)⟩

theorem local_query (s : Statement) (p : Pool) (hp : p.ledgers ⊆ names) :
    Local names (p.query s) := by
  induction p with
  | ledger name =>
    intro f g h
    have hn := hp (List.mem_singleton_self name)
    obtain ⟨r, f', g', hf, hg, hagree, hwithin⟩ := local_reach hn "query" f g h
    simp only [query, hf, hg]
    cases r with
    | error e => exact ⟨_, _, _, rfl, rfl, hagree, hwithin⟩
    | ok => exact ⟨_, _, _, rfl, by rw [hagree.ledger name hn], hagree, hwithin⟩
  | routed pool policy src dst ih₁ ih₂ =>
    obtain ⟨hp₁, hp₂⟩ := List.append_subset.mp hp
    intro f g h
    simp only [query, h.policy policy]
    exact local_pick (ih₁ hp₁) (ih₂ hp₂) (g.policy policy).primary f g h

theorem local_begin (p : Pool) (hp : p.ledgers ⊆ names) : Local names p.begin := by
  induction p with
  | ledger name =>
    intro f g h
    have hn := hp (List.mem_singleton_self name)
    obtain ⟨r, f', g', hf, hg, hagree, hwithin⟩ := local_reach hn "begin" f g h
    simp only [begin, hf, hg]
    cases r with
    | error e => exact ⟨_, _, _, rfl, rfl, hagree, hwithin⟩
    | ok => exact ⟨_, _, _, rfl, rfl, hagree.modifyLedger hn _,
        hwithin.trans (within_setLedger hn g' _)⟩
  | routed pool policy src dst ih₁ ih₂ =>
    obtain ⟨hp₁, hp₂⟩ := List.append_subset.mp hp
    have hside := local_pick (ih₁ hp₁) (ih₂ hp₂)
    intro f g h
    obtain ⟨r, f₁, g₁, hf, hg, hagree, hwithin⟩ := hside (g.policy policy).primary f g h
    simp only [begin, h.policy policy, hf, hg]
    cases r with
    | error e => exact ⟨_, _, _, rfl, rfl, hagree, hwithin⟩
    | ok primary =>
      cases (g.policy policy).secondary with
      | none => exact ⟨_, _, _, rfl, rfl, hagree, hwithin⟩
      | some side =>
        obtain ⟨second, f₂, g₂, hf, hg, hagree, hwithin'⟩ := hside side f₁ g₁ hagree
        simp only [hf, hg]
        cases second with
        | error e => exact ⟨_, _, _, rfl, rfl, agreeOn_passOver hagree _ _ _ _ _,
            (hwithin.trans hwithin').trans (within_passOver _ _ _ _ _ _)⟩
        | ok secondary => exact ⟨_, _, _, rfl, rfl, hagree, hwithin.trans hwithin'⟩

/-- A transaction is over ledgers of the pool that it was begun on. -/
theorem ledgers_begin {p : Pool} {t : Transaction} {f f' : Fleet} (h : p.begin f = (.ok t, f')) :
    t.ledgers ⊆ p.ledgers := by
  induction p generalizing t f f' with
  | ledger name =>
    simp only [begin] at h
    split at h
    · cases h
    · cases h
      exact List.Subset.refl _
  | routed pool policy src dst ih₁ ih₂ =>
    have hside {side : Side} {t : Transaction} {f f' : Fleet}
        (h : pick src.begin dst.begin side f = (.ok t, f')) :
        t.ledgers ⊆ (Pool.routed pool policy src dst).ledgers := by
      cases side
      · exact List.subset_append_of_subset_left _ (ih₁ h)
      · exact List.subset_append_of_subset_right _ (ih₂ h)
    simp only [begin] at h
    split at h
    · cases h
    · next primary f₁ hprimary =>
      have hfirst : primary.ledgers ⊆ _ := hside hprimary
      split at h
      · cases h
        exact hfirst
      · split at h
        · next secondary f₂ hsecondary =>
          cases h
          exact List.append_subset.mpr ⟨hfirst, hside hsecondary⟩
        · cases h
          exact hfirst

end Pool

end Cutover.Traffic
