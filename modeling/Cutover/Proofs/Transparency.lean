import Cutover.Proofs.Locality

/-!
# Double writes cannot be seen

A routing pool whose policies all name the same store first gives its user what that store alone
would have given, and leaves that store as it would have been left. The other store and its faults
make no difference. The argument is a simulation: a transaction of the routing pool mirrors a
transaction of the store that is written first (`Transaction.Mirrors`), and a session on the routing
pool mirrors one on that store (`Session.Mirrors`). Main statement: `Session.run_transparent`.
-/

namespace Cutover.Traffic

open Fleet

variable {first second : List String} {f g f' g' : Fleet}

/-! ## Transactions -/

namespace Transaction

/-- A transaction of a routing pool, with the transaction over the store that is written first. -/
inductive Mirrors (first second : List String) : Transaction → Transaction → Prop where
  | single {r u} : u.ledgers ⊆ first → Mirrors first second (.single r u) u
  | dual {r u name v} : u.ledgers ⊆ first → v.ledgers ⊆ second →
      Mirrors first second (.dual r u name v) u

theorem perform_single (r : Routed) (u : Transaction) (f : Fleet) (a : TxAct) :
    (Transaction.single r u).perform f a =
      ((u.perform f a).1, (u.perform f a).2.1.map (.single r), (u.perform f a).2.2) := by
  cases a <;> rfl

/-- The end of a transaction over two stores gives back what the first one does, whatever becomes of
the second one. -/
theorem mirrors_end {end₁ end₂ : Fleet → Except Error Unit × Fleet} (pool store operation : String)
    {v : Transaction} (hdisjoint : first.Disjoint second) (hv : v.ledgers ⊆ second)
    (h₁ : Local first end₁) (h₂ : Local second end₂) (h : f.AgreeOn first g) :
    ∃ result f' g',
      (match end₁ f with
      | (.error e, f) => (.error e, v.drop f)
      | (.ok (), f) =>
        let (result, f) := end₂ f
        (.ok (), passOver pool store operation none result f) : Except Error Unit × Fleet) =
          (result, f') ∧
        end₁ g = (result, g') ∧ f'.AgreeOn first g' ∧ g.Within first g' := by
  obtain ⟨result, f₁, g₁, hf, hg, hagree, hg'⟩ := h₁ f g h
  rw [hf]
  cases result with
  | error e =>
    exact ⟨_, _, g₁, rfl, hg, hagree.within ((v.local_drop hv).within f₁) hdisjoint, hg'⟩
  | ok =>
    have hwithin := (h₂.within f₁).trans (within_passOver pool store operation none (end₂ f₁).1 _)
    exact ⟨_, _, g₁, rfl, hg, hagree.within hwithin hdisjoint, hg'⟩

theorem Mirrors.perform {t u : Transaction} (ht : Mirrors first second t u)
    (hdisjoint : first.Disjoint second) (h : f.AgreeOn first g) (a : TxAct) :
    ∃ answer left left' f' g', t.perform f a = (answer, left, f') ∧
      u.perform g a = (answer, left', g') ∧ Option.Rel (Mirrors first second) left left' ∧
      f'.AgreeOn first g' ∧ g.Within first g' := by
  cases ht with
  | @single r u hu =>
    obtain ⟨answer, left, f', g', hf, hg, hleft, hagree⟩ := u.local_perform a hu h
    refine ⟨answer, left.map (.single r), left, f', g', ?_, hg, ?_, hagree⟩
    · rw [perform_single, hf]
    · cases left with
      | none => exact .none
      | some u' => exact .some (.single (hleft u' rfl ▸ hu))
  | @dual r u name v hu hv =>
    have hboth : Mirrors first second (.dual r u name v) u := .dual hu hv
    cases a with
    | execute s =>
      obtain ⟨result, u', f₁, g₁, hf, hg, hu', hagree, hg'⟩ := u.local_execute s hu h
      rw [← hu'] at hu
      simp only [Transaction.perform, execute, hf, hg]
      cases result with
      | error e => exact ⟨_, _, _, _, _, rfl, rfl, .some (.dual hu hv), hagree, hg'⟩
      | ok outcome =>
        obtain ⟨result, v', _, f₂, -, hf, hv', -, hwithin⟩ :=
          v.local_execute s hv (.refl second f₁)
        rw [← hv'] at hv
        simp only [hf]
        exact ⟨_, _, _, _, _, rfl, rfl, .some (.dual hu hv),
          hagree.within (hwithin.trans (within_passOver _ _ _ _ _ _)) hdisjoint, hg'⟩
    | query s =>
      obtain ⟨r, f', g', hf, hg, hagree⟩ := u.local_query s hu f g h
      simp only [Transaction.perform, query, hf, hg]
      exact ⟨_, _, _, _, _, rfl, rfl, .some hboth, hagree⟩
    | queryRow s =>
      obtain ⟨r, f', g', hf, hg, hagree⟩ := u.local_query s hu f g h
      simp only [Transaction.perform, queryRow, query, hf, hg]
      exact ⟨_, _, _, _, _, rfl, rfl, .some hboth, hagree⟩
    | commit =>
      obtain ⟨result, f', g', hf, hg, hagree⟩ := mirrors_end r.pool name "commit" hdisjoint hv
        (u.local_commit hu) (v.local_commit hv) h
      have hboth : (Transaction.dual r u name v).commit f = (result, f') := hf
      simp only [Transaction.perform, hboth, hg]
      exact ⟨_, _, _, _, _, rfl, rfl, .none, hagree⟩
    | rollBack =>
      obtain ⟨result, f', g', hf, hg, hagree⟩ := mirrors_end r.pool name "rollback" hdisjoint hv
        (u.local_rollBack hu) (v.local_rollBack hv) h
      have hboth : (Transaction.dual r u name v).rollBack f = (result, f') := hf
      simp only [Transaction.perform, hboth, hg]
      exact ⟨_, _, _, _, _, rfl, rfl, .none, hagree⟩
    | drop =>
      obtain ⟨_, f', g', hf, hg, hagree, hg'⟩ := u.local_drop hu f g h
      cases hf
      cases hg
      exact ⟨_, _, _, _, _, rfl, rfl, .none,
        hagree.within ((v.local_drop hv).within _) hdisjoint, hg'⟩

end Transaction

/-! ## Pools -/

namespace Pool

variable {cell : String} {src dst : Pool} {side : Side}

/-- The ledgers of the store that is written first are not those of the other one. -/
theorem disjoint_pick (h : src.ledgers.Disjoint dst.ledgers) (side : Side) :
    (pick src dst side).ledgers.Disjoint (pick src dst side.other).ledgers := by
  cases side
  · exact h
  · exact List.disjoint_symm h

/-- A write to a routing pool gives back what one to the first store does. -/
theorem execute_mirrors (pool : String) (hdisjoint : src.ledgers.Disjoint dst.ledgers)
    (hside : (f.policy cell).primary = side) (h : f.AgreeOn (pick src dst side).ledgers g)
    (s : Statement) :
    ∃ r f' g', (Pool.routed pool cell src dst).execute s f = (r, f') ∧
      (pick src dst side).execute s g = (r, g') ∧ f'.AgreeOn (pick src dst side).ledgers g' ∧
      g.Within (pick src dst side).ledgers g' := by
  obtain ⟨r, f₁, g₁, hf, hg, hagree, hg'⟩ :=
    (pick src dst side).local_execute s (List.Subset.refl _) f g h
  simp only [execute_routed, hside, hf, hg]
  cases r with
  | error e => exact ⟨_, _, _, rfl, rfl, hagree, hg'⟩
  | ok outcome =>
    cases hsecond : (f.policy cell).secondary with
    | none => exact ⟨_, _, _, rfl, rfl, hagree, hg'⟩
    | some other =>
      have hother : other = side.other := hside ▸ Policy.secondary_eq_other hsecond
      have hwithin := ((pick src dst other).local_execute s (List.Subset.refl _)).within f₁
      refine ⟨_, _, _, rfl, rfl,
        hagree.within (hwithin.trans (within_passOver _ _ _ _ _ _)) ?_, hg'⟩
      exact hother ▸ disjoint_pick hdisjoint side

theorem query_mirrors (pool : String) (hside : (f.policy cell).primary = side)
    (h : f.AgreeOn (pick src dst side).ledgers g) (s : Statement) :
    ∃ r f' g', (Pool.routed pool cell src dst).query s f = (r, f') ∧
      (pick src dst side).query s g = (r, g') ∧ f'.AgreeOn (pick src dst side).ledgers g' ∧
      g.Within (pick src dst side).ledgers g' := by
  obtain ⟨r, f', g', hf, hg, hagree⟩ :=
    (pick src dst side).local_query s (List.Subset.refl _) f g h
  simp only [query_routed, hside, hf, hg]
  exact ⟨_, _, _, rfl, rfl, hagree⟩

/-- A routing pool begins a transaction if and only if the first store does, and then the one
mirrors the other. -/
theorem begin_mirrors (pool : String) (hdisjoint : src.ledgers.Disjoint dst.ledgers)
    (hside : (f.policy cell).primary = side) (h : f.AgreeOn (pick src dst side).ledgers g) :
    ∃ r r' f' g', (Pool.routed pool cell src dst).begin f = (r, f') ∧
      (pick src dst side).begin g = (r', g') ∧ f'.AgreeOn (pick src dst side).ledgers g' ∧
      g.Within (pick src dst side).ledgers g' ∧
      ((∃ e, r = .error e ∧ r' = .error e) ∨ ∃ t u, r = .ok t ∧ r' = .ok u ∧
        Transaction.Mirrors (pick src dst side).ledgers (pick src dst side.other).ledgers t u) := by
  obtain ⟨r, f₁, g₁, hf, hg, hagree, hg'⟩ :=
    (pick src dst side).local_begin (List.Subset.refl _) f g h
  simp only [begin_routed, hside, hf, hg]
  cases r with
  | error e => exact ⟨_, _, _, _, rfl, rfl, hagree, hg', .inl ⟨e, rfl, rfl⟩⟩
  | ok u =>
    have hu := ledgers_begin hg
    cases hsecond : (f.policy cell).secondary with
    | none => exact ⟨_, _, _, _, rfl, rfl, hagree, hg', .inr ⟨_, u, rfl, rfl, .single hu⟩⟩
    | some other =>
      cases (hside ▸ Policy.secondary_eq_other hsecond : other = side.other)
      have hapart := disjoint_pick hdisjoint side
      have hwithin := ((pick src dst side.other).local_begin (List.Subset.refl _)).within f₁
      cases hbegin : (pick src dst side.other).begin f₁ with
      | mk r f₂ =>
        rw [hbegin] at hwithin
        simp only [hbegin]
        cases r with
        | ok v =>
          exact ⟨_, _, _, _, rfl, rfl, hagree.within hwithin hapart, hg',
            .inr ⟨_, u, rfl, rfl, .dual hu (ledgers_begin hbegin)⟩⟩
        | error e =>
          exact ⟨_, _, _, _, rfl, rfl,
            hagree.within (hwithin.trans (within_passOver _ _ _ _ _ _)) hapart, hg',
            .inr ⟨_, u, rfl, rfl, .single hu⟩⟩

end Pool

/-! ## Sessions -/

theorem Fleet.AgreeOn.change {names : List String} (h : f.AgreeOn names g) (c : Change) :
    (f.change c).AgreeOn names (g.change c) := by
  have hledger (name : String) (φ : Ledger → Ledger) :
      (f.modifyLedger name φ).AgreeOn names (g.modifyLedger name φ) := by
    refine ⟨h.policy, fun other ho => ?_⟩
    simp only [Fleet.modifyLedger, ledger_setLedger, h.ledger other ho]
    by_cases heq : other = name
    · rw [if_pos heq, if_pos heq, h.ledger name (heq ▸ ho)]
    · rw [if_neg heq, if_neg heq]
  cases c with
  | setPolicy name p =>
    refine ⟨fun other => ?_, h.ledger⟩
    simp only [Fleet.change, policy_setPolicy, h.policy]
  | arm ledger operation n =>
    exact hledger ledger fun l => { l with faults := l.faults.arm operation n }
  | delay ledger ms =>
    exact hledger ledger fun l => { l with faults := { l.faults with latency := ms } }
  | setRows ledger sql rows =>
    exact hledger ledger fun l => { l with answers := l.answers.put sql rows }

namespace Session

variable {cell : String} {src dst : Pool} {side : Side} {s d : Session}

/-- A session on a routing pool, with a session on the store that is written first. -/
structure Mirrors (cell : String) (src dst : Pool) (side : Side) (s d : Session) : Prop where
  agree : s.fleet.AgreeOn (Pool.pick src dst side).ledgers d.fleet
  primary : (s.fleet.policy cell).primary = side
  transactions : ∀ tx, Option.Rel
    (Transaction.Mirrors (Pool.pick src dst side).ledgers (Pool.pick src dst side.other).ledgers)
    (s.transactions.get? tx) (d.transactions.get? tx)

theorem Mirrors.keep {left left' : Option Transaction} (h : Mirrors cell src dst side s d)
    (hleft : Option.Rel (Transaction.Mirrors (Pool.pick src dst side).ledgers
      (Pool.pick src dst side.other).ledgers) left left') (tx : String) :
    Mirrors cell src dst side (s.keep tx left) (d.keep tx left') := by
  cases hleft with
  | none =>
    refine ⟨h.agree, h.primary, fun other => ?_⟩
    simp only [Session.keep, Assoc.get?_erase]
    split
    · exact .none
    · exact h.transactions other
  | some ht =>
    refine ⟨h.agree, h.primary, fun other => ?_⟩
    simp only [Session.keep, Assoc.get?_put]
    split
    · exact .some ht
    · exact h.transactions other

theorem Mirrors.withFleet {names : List String} (h : Mirrors cell src dst side s d)
    (hagree : f'.AgreeOn (Pool.pick src dst side).ledgers g') (hg : d.fleet.Within names g') :
    Mirrors cell src dst side { s with fleet := f' } { d with fleet := g' } where
  agree := hagree
  primary := by
    rw [hagree.policy, hg.policy, ← h.agree.policy]
    exact h.primary
  transactions := h.transactions

theorem Mirrors.inside (h : Mirrors cell src dst side s d)
    (hdisjoint : src.ledgers.Disjoint dst.ledgers) (tx : String) (a : TxAct) :
    (s.inside tx a).1 = (d.inside tx a).1 ∧
      Mirrors cell src dst side (s.inside tx a).2 (d.inside tx a).2 := by
  have htx := h.transactions tx
  unfold Session.inside
  generalize s.transactions.get? tx = t, d.transactions.get? tx = u at htx
  cases htx with
  | none => exact ⟨rfl, h⟩
  | some ht =>
    obtain ⟨answer, left, left', f', g', hf, hg, hleft, hagree, hg'⟩ :=
      ht.perform (Pool.disjoint_pick hdisjoint side) h.agree a
    simp only [hf, hg]
    exact ⟨trivial, (h.withFleet hagree hg').keep hleft tx⟩

/-- One step of a session, which does not switch to a policy that names the other store first. -/
theorem Mirrors.perform (h : Mirrors cell src dst side s d) (pool : String)
    (hdisjoint : src.ledgers.Disjoint dst.ledgers) {a : Act}
    (ha : ∀ p, a = .change (.setPolicy cell p) → p.primary = side) :
    (s.perform (.routed pool cell src dst) a).1 = (d.perform (Pool.pick src dst side) a).1 ∧
      Mirrors cell src dst side (s.perform (.routed pool cell src dst) a).2
        (d.perform (Pool.pick src dst side) a).2 := by
  cases a with
  | execute statement =>
    obtain ⟨r, f', g', hf, hg, hagree, hg'⟩ :=
      Pool.execute_mirrors pool hdisjoint h.primary h.agree statement
    simp only [Session.perform, hf, hg]
    exact ⟨trivial, h.withFleet hagree hg'⟩
  | query statement =>
    obtain ⟨r, f', g', hf, hg, hagree, hg'⟩ :=
      Pool.query_mirrors pool h.primary h.agree statement
    simp only [Session.perform, hf, hg]
    exact ⟨trivial, h.withFleet hagree hg'⟩
  | queryRow statement =>
    obtain ⟨r, f', g', hf, hg, hagree, hg'⟩ :=
      Pool.query_mirrors pool h.primary h.agree statement
    simp only [Session.perform, Pool.queryRow, hf, hg]
    exact ⟨trivial, h.withFleet hagree hg'⟩
  | begin tx =>
    obtain ⟨r, r', f', g', hf, hg, hagree, hg', ⟨e, rfl, rfl⟩ | ⟨t, u, rfl, rfl, ht⟩⟩ :=
      Pool.begin_mirrors pool hdisjoint h.primary h.agree
    · simp only [Session.perform, hf, hg]
      exact ⟨trivial, h.withFleet hagree hg'⟩
    · simp only [Session.perform, hf, hg]
      exact ⟨trivial, ((h.withFleet hagree hg').inside hdisjoint tx .drop).2.keep (.some ht) tx⟩
  | inside tx a => exact h.inside hdisjoint tx a
  | change c =>
    refine ⟨rfl, h.agree.change c, ?_, h.transactions⟩
    cases c with
    | setPolicy name p =>
      simp only [Session.perform, Fleet.change, policy_setPolicy]
      split
      · next heq => exact ha p (heq ▸ rfl)
      · exact h.primary
    | arm | delay | setRows => exact h.primary

/-- Double writes cannot be seen. Over a fleet in which two pools share no ledger, let the policy of
a routing pool name one of them first, and never be switched to one that names the other. Whatever
is done then, and whatever faults are planned for any ledger and when, everything that is given back
is what the first pool alone would have given back, and all of its ledgers are what they would have
been. -/
theorem run_transparent (pool : String) {cell : String} {src dst : Pool} {side : Side} {f : Fleet}
    (hdisjoint : src.ledgers.Disjoint dst.ledgers) (hside : (f.policy cell).primary = side)
    (acts : List Act) (hacts : ∀ p, .change (.setPolicy cell p) ∈ acts → p.primary = side) :
    let routed := ({ fleet := f } : Session).run (.routed pool cell src dst) acts
    let direct := ({ fleet := f } : Session).run (Pool.pick src dst side) acts
    routed.1 = direct.1 ∧ ∀ name ∈ (Pool.pick src dst side).ledgers,
      routed.2.fleet.ledger name = direct.2.fleet.ledger name := by
  suffices hrun : ∀ s d, Mirrors cell src dst side s d →
      (s.run (.routed pool cell src dst) acts).1 = (d.run (Pool.pick src dst side) acts).1 ∧
        Mirrors cell src dst side (s.run (.routed pool cell src dst) acts).2
          (d.run (Pool.pick src dst side) acts).2 by
    obtain ⟨hanswers, hm⟩ := hrun { fleet := f } { fleet := f } ⟨.refl _ f, hside, fun _ => .none⟩
    exact ⟨hanswers, hm.agree.ledger⟩
  induction acts with
  | nil => exact fun s d h => ⟨rfl, h⟩
  | cons a rest ih =>
    intro s d h
    obtain ⟨hanswer, hm⟩ := h.perform pool hdisjoint (a := a) fun p hp =>
      hacts p (hp ▸ List.mem_cons_self)
    obtain ⟨hanswers, hm⟩ := ih (fun p hp => hacts p (List.mem_cons_of_mem a hp)) _ _ hm
    exact ⟨by simp only [run, hanswer, hanswers], hm⟩

/-- A store that is written first and is itself a routing pool. -/
def sampleStore : Pool := .routed "inner pool" "inner" (.ledger "old") (.ledger "copy")

def sampleFleet : Fleet := (({} : Fleet).setPolicy "outer" .srcFirst).setPolicy "inner" .srcFirst

/-- Writes in and out of two transactions, while calls of all three ledgers are refused and the
policy is switched. -/
def sampleActs : List Act :=
  [.change (.arm "new" "begin" 1), .begin "t", .inside "t" (.execute { sql := "A" }), .begin "u",
    .change (.arm "new" "tx_execute" 1), .inside "u" (.execute { sql := "B" }),
    .change (.setPolicy "outer" .srcOnly), .execute { sql := "C" },
    .change (.arm "old" "commit" 1), .inside "u" .commit,
    .change (.setPolicy "outer" .srcFirst), .change (.arm "new" "execute" 1),
    .change (.arm "copy" "execute" 1), .execute { sql := "D" }, .inside "t" .commit,
    .inside "u" .drop]

theorem run_transparent_sample :
    let routed := ({ fleet := sampleFleet } : Session).run
      (.routed "pool" "outer" sampleStore (.ledger "new")) sampleActs
    let direct := ({ fleet := sampleFleet } : Session).run sampleStore sampleActs
    sampleStore.ledgers.Disjoint (Pool.ledger "new").ledgers ∧
      (sampleFleet.policy "outer").primary = .src ∧
      (∀ p, .change (.setPolicy "outer" p) ∈ sampleActs → p.primary = .src) ∧
      routed.1 = direct.1 ∧
      (∀ name ∈ sampleStore.ledgers, routed.2.fleet.ledger name = direct.2.fleet.ledger name) ∧
      (direct.2.fleet.ledger "old").committed.map (·.sql) = ["C", "D", "A"] ∧
      (direct.2.fleet.ledger "copy").committed.map (·.sql) = ["C", "A"] ∧
      (routed.2.fleet.ledger "new").committed = [] ∧
      (routed.2.fleet.failureLog "pool").count = 3 := by
  have hdisjoint : sampleStore.ledgers.Disjoint (Pool.ledger "new").ledgers := by
    simp [sampleStore, Pool.ledgers, List.Disjoint]
  have hside : (sampleFleet.policy "outer").primary = .src := by decide
  have hacts : ∀ p, .change (.setPolicy "outer" p) ∈ sampleActs → p.primary = .src := by
    intro p hp
    have hp : p = .srcOnly ∨ p = .srcFirst := by simpa [sampleActs] using hp
    rcases hp with rfl | rfl <;> rfl
  obtain ⟨hanswers, hledgers⟩ := run_transparent "pool" hdisjoint hside sampleActs hacts
  exact ⟨hdisjoint, hside, hacts, hanswers, hledgers, by decide +kernel, by decide +kernel,
    List.map_eq_nil_iff.mp (show List.map (·.sql) _ = [] by decide +kernel), by decide +kernel⟩

end Session

end Cutover.Traffic
