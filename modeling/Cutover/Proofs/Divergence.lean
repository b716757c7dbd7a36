import Cutover.Proofs.Journals

/-!
# No divergence goes unnoticed

A double pool may leave its second ledger behind the first one, since a failure there is passed
over. Each open transaction holds the statements of its draft in the journal of the session, and so
do the ledgers hold those of its entries. Main statement: the first ledger holds all that the
journal has, in its order, the second one all of it but what was lost to a refused call, and the
number of failures is that of refused calls (`DoublePool.no_silent_divergence`).
-/

namespace Cutover.Traffic

/-! ## Open transactions -/

namespace Draft

variable {d : Draft} {pool : DoublePool}

theorem map_statement_close (d : Draft) (st : Step) :
    (d.close st).map (·.statement) = d.entries.map (·.statement) := by
  simp [close]

/-- What the second ledger is to take when a transaction is committed. -/
def kept (d : Draft) : List Statement := (d.entries.filter (!·.lost)).map (·.statement)

theorem kept_close (d : Draft) (st : Step) :
    ((d.close st).filter (!·.lost)).map (·.statement) = DoublePool.taken st.failed d.kept := by
  have hlost (e : Entry) :
      (!Entry.lost { e with steps := e.steps ++ [st] }) = (!e.lost && !st.failed) := by
    simp [Entry.lost]
  unfold close kept DoublePool.taken
  rw [List.filter_map, List.map_map]
  cases h : st.failed <;> simp [Function.comp_def, hlost, h]

/-- A transaction of a double pool with the statements of a draft. If its begin was refused by the
second ledger, all of them are lost. -/
inductive Fits (pool : DoublePool) (d : Draft) : Transaction → Prop where
  | single {r} : d.begun.failed = true → d.kept = [] →
      Fits pool d (.single r (.ledger pool.first (d.entries.map (·.statement))))
  | dual {r name} : d.begun.failed = false → r.pool = pool.pool →
      Fits pool d (.dual r (.ledger pool.first (d.entries.map (·.statement))) name
        (.ledger pool.second d.kept))

theorem kept_add (d : Draft) (s : Statement) (st : Step) :
    (d.add s st).kept = d.kept ++ DoublePool.taken (d.begun.failed || st.failed) [s] := by
  unfold kept add DoublePool.taken
  cases h : d.begun.failed <;> cases h' : st.failed <;> simp [Entry.lost, h, h']

variable {f : Fleet} {t : Transaction}

open Fleet DoublePool

/-- The call of the second ledger that a transaction goes on with, and whether it is refused. -/
def secondCall (pool : DoublePool) (t : Transaction) (f : Fleet) (op : String) : Option Bool :=
  if t.hasSecondary then some (f.refuses pool.second op) else none

theorem Fits.execute (h : d.Fits pool t) (f : Fleet) (s : Statement) :
    (∃ e f', t.execute s f = (.error e, t, f') ∧ f.Shift pool [] [] 0 0 f') ∨
      ∃ t' f', t.execute s f = (.ok {}, t', f') ∧
        f.Shift pool [] [] (secondCall pool t f "tx_execute").isSome.toNat
          ((secondCall pool t f "tx_execute").getD false).toNat f' ∧
        ∀ st, st.refused? = secondCall pool t f "tx_execute" → (d.add s st).Fits pool t' := by
  obtain ⟨result, f₁, hr, hshift, hsame⟩ := reach_first pool f "tx_execute"
  cases h with
  | @single r hfailed hkept =>
    simp only [Transaction.execute, hr]
    cases result with
    | error e => exact .inl ⟨_, _, rfl, hshift⟩
    | ok =>
      refine .inr ⟨_, _, rfl, hshift, fun st _ => ?_⟩
      have hfits : (d.add s st).Fits pool
          (.single r (.ledger pool.first ((d.add s st).entries.map (·.statement)))) :=
        .single hfailed (by rw [kept_add, hkept, hfailed]; rfl)
      simpa [add] using hfits
  | @dual r name hfailed hpool =>
    simp only [Transaction.execute, hr]
    cases result with
    | error e => exact .inl ⟨_, _, rfl, hshift⟩
    | ok =>
      obtain ⟨f₂, hr₂, hshift₂⟩ := reach_second pool hsame "tx_execute"
      have hfits (st : Step) : (d.add s st).Fits pool
          (.dual r (.ledger pool.first ((d.add s st).entries.map (·.statement))) name
            (.ledger pool.second (d.add s st).kept)) := .dual hfailed hpool
      simp only [hr₂, secondCall, Transaction.hasSecondary, if_true]
      cases hrefused : f.refuses pool.second "tx_execute" with
      | true =>
        refine .inr ⟨_, _, rfl, ?_, fun st hst => ?_⟩
        · exact (hshift.trans hshift₂).addFailure hpool _
        · have := hfits st
          rw [kept_add, hfailed, Step.failed, hst] at this
          simpa [add, taken] using this
      | false =>
        refine .inr ⟨_, _, rfl, hshift.trans hshift₂, fun st hst => ?_⟩
        have := hfits st
        rw [kept_add, hfailed, Step.failed, hst] at this
        simpa [add, taken] using this

theorem Fits.commit (h : d.Fits pool t) (f : Fleet) :
    (∃ e f', t.commit f = (.error e, f') ∧ f.Shift pool [] [] 0 0 f') ∨
      ∃ f', t.commit f = (.ok (), f') ∧ ∀ st, st.refused? = secondCall pool t f "commit" →
        f.Shift pool ((d.close st).map (·.statement))
          (((d.close st).filter (!·.lost)).map (·.statement)) st.refused?.isSome.toNat
          st.failed.toNat f' := by
  obtain ⟨result, f₁, hr, hshift, hsame⟩ := reach_first pool f "commit"
  have hback := hshift.trans (shift_rollBackOne pool f₁ pool.first)
  have hfirst := hshift.trans (shift_modify_first pool f₁
    (φ := (·.commitOne (d.entries.map (·.statement)))) (fun _ => rfl) fun _ => rfl)
  cases h with
  | @single r hfailed hkept =>
    simp only [Transaction.commit, hr]
    cases result with
    | error e => exact .inl ⟨_, _, rfl, hback⟩
    | ok =>
      refine .inr ⟨_, rfl, fun st hst => ?_⟩
      rw [map_statement_close, kept_close, Step.failed, hst, hkept]
      exact hfirst
  | @dual r name hfailed hpool =>
    simp only [Transaction.commit, hr]
    cases result with
    | error e =>
      exact .inl ⟨_, _, rfl, hback.trans (shift_rollBackOne pool _ pool.second)⟩
    | ok =>
      obtain ⟨f₂, hr₂, hshift₂⟩ :=
        reach_second pool ((ledger_second_modify_first pool f₁ _).trans hsame) "commit"
      have hboth := hfirst.trans hshift₂
      simp only [hr₂]
      refine .inr ⟨_, rfl, fun st hst => ?_⟩
      rw [map_statement_close, kept_close, Step.failed, hst]
      simp only [secondCall, Transaction.hasSecondary, if_true]
      cases hrefused : f.refuses pool.second "commit" with
      | true =>
        have hlost := (hboth.trans (shift_rollBackOne pool f₂ pool.second)).addFailure hpool
          ⟨name, "commit", none, (FaultPlan.refusal pool.second "commit").message⟩
        simpa [taken, passOver] using hlost
      | false =>
        have hsecond := shift_modify_second pool f₂ (φ := (·.commitOne d.kept)) (fun _ => rfl)
          fun _ => rfl
        simpa [taken, passOver] using hboth.trans hsecond

theorem Fits.rollBack (h : d.Fits pool t) (f : Fleet) :
    (∃ e f', t.rollBack f = (.error e, f') ∧ f.Shift pool [] [] 0 0 f') ∨
      ∃ f', t.rollBack f = (.ok (), f') ∧
        f.Shift pool [] [] (secondCall pool t f "rollback").isSome.toNat
          ((secondCall pool t f "rollback").getD false).toNat f' := by
  obtain ⟨result, f₁, hr, hshift, hsame⟩ := reach_first pool f "rollback"
  have hback := hshift.trans (shift_rollBackOne pool f₁ pool.first)
  cases h with
  | @single r hfailed hkept =>
    simp only [Transaction.rollBack, hr]
    cases result with
    | error e => exact .inl ⟨_, _, rfl, hback⟩
    | ok => exact .inr ⟨_, rfl, hback⟩
  | @dual r name hfailed hpool =>
    simp only [Transaction.rollBack, hr]
    cases result with
    | error e =>
      exact .inl ⟨_, _, rfl, hback.trans (shift_rollBackOne pool _ pool.second)⟩
    | ok =>
      obtain ⟨f₂, hr₂, hshift₂⟩ :=
        reach_second pool ((ledger_second_modify_first pool f₁ _).trans hsame) "rollback"
      have hboth := (hback.trans hshift₂).trans (shift_rollBackOne pool f₂ pool.second)
      simp only [hr₂, secondCall, Transaction.hasSecondary, if_true]
      cases hrefused : f.refuses pool.second "rollback" with
      | true =>
        exact .inr ⟨_, rfl, hboth.addFailure hpool _⟩
      | false => exact .inr ⟨_, rfl, hboth⟩

theorem Fits.drop (h : d.Fits pool t) (f : Fleet) : f.Shift pool [] [] 0 0 (t.drop f) := by
  have hfirst := shift_rollBackOne pool f pool.first
  cases h with
  | single => exact hfirst
  | dual => exact hfirst.trans (shift_rollBackOne pool _ pool.second)

theorem Fits.query (h : d.Fits pool t) (f : Fleet) (s : Statement) :
    f.Shift pool [] [] 0 0 (t.query s f).2 := by
  obtain ⟨result, f₁, hr, hshift, -⟩ := reach_first pool f "tx_query"
  cases h <;> simp only [Transaction.query, hr] <;> cases result <;> exact hshift

end Draft

/-! ## Sessions -/

/-- The two ledgers and the open transactions are what a journal says. -/
structure Journal.Fits (pool : DoublePool) (j : Journal) (s : Session) : Prop where
  policy : s.fleet.policy pool.cell = pool.policy
  first : (s.fleet.ledger pool.first).committed = j.entries.map (·.statement)
  second : (s.fleet.ledger pool.second).committed =
    (j.entries.filter (!·.lost)).map (·.statement)
  drafts : ∀ tx, Option.Rel (Draft.Fits pool) (j.drafts.get? tx) (s.transactions.get? tx)

namespace Journal

variable {pool : DoublePool} {j : Journal} {s : Session}

/-- A journal with more entries, after what they brought to the ledgers. -/
theorem Fits.shift {new new' : List Statement} {calls failures : Nat} {fleet : Fleet}
    (h : j.Fits pool s) (hshift : s.fleet.Shift pool new new' calls failures fleet)
    {entries : List Entry} (hnew : entries.map (·.statement) = new)
    (hnew' : (entries.filter (!·.lost)).map (·.statement) = new') :
    Fits pool { j with entries := j.entries ++ entries } { s with fleet } where
  policy := hshift.policy.trans h.policy
  first := by rw [hshift.first, h.first, List.map_append, hnew]
  second := by rw [hshift.second, h.second, List.filter_append, List.map_append, hnew']
  drafts := h.drafts

theorem Fits.quiet {calls failures : Nat} {fleet : Fleet} (h : j.Fits pool s)
    (hshift : s.fleet.Shift pool [] [] calls failures fleet) : j.Fits pool { s with fleet } := by
  simpa using h.shift hshift (show ([] : List Entry).map (·.statement) = [] from rfl) rfl

theorem Fits.put {d : Draft} {t : Transaction} (h : j.Fits pool s) (ht : d.Fits pool t)
    (tx : String) : Fits pool { j with drafts := j.drafts.put tx d } (s.keep tx (some t)) := by
  refine ⟨h.policy, h.first, h.second, fun other => ?_⟩
  simp only [Session.keep, Assoc.get?_put]
  split
  · exact .some ht
  · exact h.drafts other

theorem Fits.erase (h : j.Fits pool s) (tx : String) :
    Fits pool { j with drafts := j.drafts.erase tx } (s.keep tx none) := by
  refine ⟨h.policy, h.first, h.second, fun other => ?_⟩
  simp only [Session.keep, Assoc.get?_erase]
  split
  · exact .none
  · exact h.drafts other

/-- A transaction that is as it was can be kept again. -/
theorem Fits.keep {t : Transaction} {tx : String} (h : j.Fits pool s)
    (ht : s.transactions.get? tx = some t) : j.Fits pool (s.keep tx (some t)) := by
  refine ⟨h.policy, h.first, h.second, fun other => ?_⟩
  simp only [Session.keep, Assoc.get?_put]
  split
  · next heq => exact heq ▸ ht ▸ h.drafts tx
  · exact h.drafts other

/-- What a step makes of a session, when the journal notes it. -/
structure Advances (pool : DoublePool) (j : Journal) (s : Session) (st : Step) (s' : Session) :
    Prop where
  fits : (j.note st).Fits pool s'
  calls : (s'.fleet.ledger pool.second).faults.calls =
    (s.fleet.ledger pool.second).faults.calls + st.refused?.isSome.toNat
  failures : (s'.fleet.failureLog pool.pool).count =
    (s.fleet.failureLog pool.pool).count + st.failed.toNat

theorem Advances.of_shift {new new' : List Statement} {st : Step} {s' : Session}
    (hfits : (j.note st).Fits pool s')
    (hshift : s.fleet.Shift pool new new' st.refused?.isSome.toNat st.failed.toNat s'.fleet) :
    Advances pool j s st s' := ⟨hfits, hshift.calls, hshift.failures⟩

theorem Advances.of_quiet {st : Step} {s' : Session} (hfits : (j.note st).Fits pool s')
    (hst : st.refused? = none) (hshift : s.fleet.Shift pool [] [] 0 0 s'.fleet) :
    Advances pool j s st s' := by
  refine ⟨hfits, ?_, ?_⟩
  · rw [hst]
    exact hshift.calls
  · rw [Step.failed, hst]
    exact hshift.failures

/-! ### Steps outside of transactions -/

theorem Fits.execute (h : j.Fits pool s) (statement : Statement) :
    Advances pool j s (s.step pool (.execute statement))
      (s.perform pool.toPool (.execute statement)).2 := by
  rcases DoublePool.execute_cases h.policy statement with
    ⟨e, f', hexec, hshift⟩ | ⟨f', hexec, hshift⟩
  · simp only [Session.step, Session.perform, hexec]
    exact .of_shift (h.quiet hshift) hshift
  · simp only [Session.step, Session.perform, hexec]
    exact .of_shift (h.shift hshift rfl (Entry.kept_single statement _)) hshift

theorem Fits.query (h : j.Fits pool s) (statement : Statement) :
    Advances pool j s (s.step pool (.query statement))
      (s.perform pool.toPool (.query statement)).2 := by
  have hshift := DoublePool.shift_query h.policy statement
  exact .of_quiet (h.quiet hshift) (by simp [Session.step, Act.secondCall?]) hshift

theorem Fits.queryRow (h : j.Fits pool s) (statement : Statement) :
    Advances pool j s (s.step pool (.queryRow statement))
      (s.perform pool.toPool (.queryRow statement)).2 := by
  have hshift := DoublePool.shift_query h.policy statement
  exact .of_quiet (h.quiet hshift) (by simp [Session.step, Act.secondCall?]) hshift

theorem Fits.change (h : j.Fits pool s) {c : Change}
    (hc : ∀ p, c = .setPolicy pool.cell p → p = pool.policy) :
    Advances pool j s (s.step pool (.change c)) (s.perform pool.toPool (.change c)).2 := by
  have hledger (name : String) {φ : Ledger → Ledger} (hφ : ∀ l, (φ l).committed = l.committed)
      (hcalls : ∀ l, (φ l).faults.calls = l.faults.calls) :
      s.fleet.Shift pool [] [] 0 0 (s.fleet.modifyLedger name φ) :=
    Fleet.shift_of_committed_eq pool s.fleet name hφ hcalls
  have hshift : s.fleet.Shift pool [] [] 0 0 (s.fleet.change c) := by
    cases c with
    | setPolicy name p =>
      refine { Fleet.Shift.refl pool s.fleet with policy := ?_ }
      simp only [Fleet.change, Fleet.policy_setPolicy]
      split
      · next heq => rw [hc p (heq ▸ rfl), h.policy]
      · rfl
    | arm ledger operation n =>
      exact hledger ledger (φ := fun l => { l with faults := l.faults.arm operation n })
        (fun _ => rfl) fun _ => rfl
    | delay ledger ms =>
      exact hledger ledger (φ := fun l => { l with faults := { l.faults with latency := ms } })
        (fun _ => rfl) fun _ => rfl
    | setRows ledger sql rows =>
      exact hledger ledger (φ := fun l => { l with answers := l.answers.put sql rows })
        (fun _ => rfl) fun _ => rfl
  exact .of_quiet (h.quiet hshift) rfl hshift

/-! ### Steps in transactions -/

theorem Fits.missing {tx : String} (h : j.Fits pool s) (ht : s.transactions.get? tx = none)
    (a : TxAct) : Advances pool j s (s.step pool (.inside tx a)) (s.inside tx a).2 := by
  have hdraft := h.drafts tx
  rw [ht] at hdraft
  have hj : j.drafts.get? tx = none := by
    generalize j.drafts.get? tx = d at hdraft
    cases hdraft
    rfl
  have hinside : s.inside tx a = (.missing, s) := by simp only [Session.inside, ht]
  have hnote (st : Step) (hact : st.act = .inside tx a) : j.note st = j := by
    simp only [note, hact, hj]
  simp only [Session.step, Session.perform, hinside]
  exact .of_shift (by rw [hnote _ rfl]; exact h) (Fleet.Shift.refl pool s.fleet)

theorem step_inside {tx : String} {t : Transaction} (hs : s.transactions.get? tx = some t)
    (a : TxAct) : s.step pool (.inside tx a) =
      { act := .inside tx a
        answer := (t.perform s.fleet a).1
        refused? := if (t.perform s.fleet a).1.succeeded then
          a.secondCall?.bind (Draft.secondCall pool t s.fleet) else none } := by
  simp only [Session.step, Session.perform, Session.inside, hs, Act.secondCall?, Option.any_some]
  congr 1
  cases (t.perform s.fleet a).1.succeeded with
  | false => rfl
  | true =>
    unfold Draft.secondCall
    cases t.hasSecondary <;> cases a.secondCall? <;> rfl

/-- A step in an open transaction, by the draft of the transaction. -/
theorem Fits.present {tx : String} {d : Draft} {t : Transaction} (h : j.Fits pool s)
    (hd : j.drafts.get? tx = some d) (hs : s.transactions.get? tx = some t) (ht : d.Fits pool t)
    (a : TxAct) : Advances pool j s (s.step pool (.inside tx a)) (s.inside tx a).2 := by
  have hnote (st : Step) (hact : st.act = .inside tx a) : j.note st = j.noteInside st tx d a := by
    simp only [note, hact, hd]
  simp only [step_inside hs, Session.inside, hs]
  cases a with
  | execute statement =>
    rcases ht.execute s.fleet statement with
      ⟨e, f', hexec, hshift⟩ | ⟨t', f', hexec, hshift, hfits⟩
    · simp only [Transaction.perform, hexec]
      refine .of_quiet ?_ rfl hshift
      rw [hnote _ rfl]
      exact (h.quiet hshift).keep hs
    · simp only [Transaction.perform, hexec]
      refine .of_shift ?_ hshift
      rw [hnote _ rfl]
      exact (h.quiet hshift).put (hfits _ rfl) tx
  | query statement =>
    have hshift := ht.query s.fleet statement
    simp only [Transaction.perform]
    refine .of_quiet ?_ (ite_self none) hshift
    rw [hnote _ rfl]
    exact (h.quiet hshift).keep hs
  | queryRow statement =>
    have hshift := ht.query s.fleet statement
    simp only [Transaction.perform]
    refine .of_quiet ?_ (ite_self none) hshift
    rw [hnote _ rfl]
    exact (h.quiet hshift).keep hs
  | commit =>
    rcases ht.commit s.fleet with ⟨e, f', hcommit, hshift⟩ | ⟨f', hcommit, hshift⟩
    · simp only [Transaction.perform, hcommit]
      refine .of_quiet ?_ rfl hshift
      rw [hnote _ rfl]
      exact (h.quiet hshift).erase tx
    · simp only [Transaction.perform, hcommit]
      refine .of_shift ?_ (hshift _ rfl)
      rw [hnote _ rfl]
      exact (h.shift (hshift _ rfl) rfl rfl).erase tx
  | rollBack =>
    rcases ht.rollBack s.fleet with ⟨e, f', hback, hshift⟩ | ⟨f', hback, hshift⟩
    · simp only [Transaction.perform, hback]
      refine .of_quiet ?_ rfl hshift
      rw [hnote _ rfl]
      exact (h.quiet hshift).erase tx
    · simp only [Transaction.perform, hback]
      refine .of_shift ?_ hshift
      rw [hnote _ rfl]
      exact (h.quiet hshift).erase tx
  | drop =>
    have hshift := ht.drop s.fleet
    simp only [Transaction.perform]
    refine .of_quiet ?_ rfl hshift
    rw [hnote _ rfl]
    exact (h.quiet hshift).erase tx

theorem Fits.inside (h : j.Fits pool s) (tx : String) (a : TxAct) :
    Advances pool j s (s.step pool (.inside tx a)) (s.inside tx a).2 := by
  have htx := h.drafts tx
  generalize hd : j.drafts.get? tx = d, hs : s.transactions.get? tx = t at htx
  cases htx with
  | none => exact h.missing hs a
  | some ht => exact h.present hd hs ht a

/-- The journal after a transaction has been given up, if there was one. -/
theorem Fits.dropped (h : j.Fits pool s) (tx : String) :
    Fits pool { j with drafts := j.drafts.erase tx } (s.inside tx .drop).2 := by
  have hdropped := (h.inside tx .drop).fits
  cases hd : j.drafts.get? tx with
  | some d => simpa [note, Session.step, hd, noteInside] using hdropped
  | none =>
    have hsame : j.Fits pool (s.inside tx .drop).2 := by
      simpa [note, Session.step, hd] using hdropped
    refine ⟨hsame.policy, hsame.first, hsame.second, fun other => ?_⟩
    rw [Assoc.get?_erase]
    split
    · next heq =>
      have htx := hsame.drafts tx
      rw [hd] at htx
      exact heq ▸ htx
    · exact hsame.drafts other

theorem Fits.begin (h : j.Fits pool s) (tx : String) :
    Advances pool j s (s.step pool (.begin tx)) (s.perform pool.toPool (.begin tx)).2 := by
  rcases DoublePool.begin_cases h.policy with ⟨e, f', hbegin, hshift⟩ | ⟨r, f', hr, hbegin, hshift⟩
  · simp only [Session.step, Session.perform, hbegin]
    exact .of_quiet (h.quiet hshift) rfl hshift
  · have hquiet := h.quiet hshift
    have hdrop := hquiet.inside tx .drop
    have hnone : (Session.step pool { s with fleet := f' } (.inside tx .drop)).refused? = none := by
      simp [Session.step, Act.secondCall?, TxAct.secondCall?]
    simp only [Session.step, Session.perform, hbegin]
    refine ⟨(hquiet.dropped tx).put ?_ tx, ?_, ?_⟩
    · cases hrefused : s.fleet.refuses pool.second "begin" with
      | true =>
        exact .single (r := r)
          (by simp [Step.failed, Answer.succeeded, Act.secondCall?, hrefused]) rfl
      | false => exact .dual (by simp [Step.failed, Answer.succeeded, Act.secondCall?, hrefused]) hr
    · have hcalls := hdrop.calls
      rw [hnone] at hcalls
      exact hcalls.trans hshift.calls
    · have hfailures := hdrop.failures
      rw [Step.failed, hnone] at hfailures
      exact hfailures.trans hshift.failures

/-- What a step of a session makes of the ledgers is what the journal notes of it. -/
theorem Fits.perform {a : Act} (h : j.Fits pool s)
    (ha : ∀ p, a = .change (.setPolicy pool.cell p) → p = pool.policy) :
    Advances pool j s (s.step pool a) (s.perform pool.toPool a).2 := by
  cases a with
  | execute statement => exact h.execute statement
  | query statement => exact h.query statement
  | queryRow statement => exact h.queryRow statement
  | begin tx => exact h.begin tx
  | inside tx a => exact h.inside tx a
  | change c => exact h.change fun p hp => ha p (hp ▸ rfl)

theorem countP_cons_toNat (p : Step → Bool) (st : Step) (steps : List Step) :
    (st :: steps).countP p = (p st).toNat + steps.countP p := by
  rw [List.countP_cons]
  cases p st
  · exact (Nat.zero_add _).symm
  · exact Nat.add_comm _ _

theorem Fits.run {past : List Step} (h : (of past).Fits pool s) (acts : List Act)
    (hacts : ∀ p, .change (.setPolicy pool.cell p) ∈ acts → p = pool.policy) :
    (of (past ++ s.steps pool acts)).Fits pool (s.run pool.toPool acts).2 ∧
      ((s.run pool.toPool acts).2.fleet.ledger pool.second).faults.calls =
        (s.fleet.ledger pool.second).faults.calls +
          (s.steps pool acts).countP (·.refused?.isSome) ∧
      ((s.run pool.toPool acts).2.fleet.failureLog pool.pool).count =
        (s.fleet.failureLog pool.pool).count + (s.steps pool acts).countP Step.failed := by
  induction acts generalizing s past with
  | nil => exact ⟨by simpa [Session.steps, Session.run] using h, rfl, rfl⟩
  | cons a rest ih =>
    have hstep := h.perform (a := a) fun p hp => hacts p (hp ▸ List.mem_cons_self)
    have hfits := hstep.fits
    rw [← of_concat] at hfits
    obtain ⟨hfits, hcalls, hfailures⟩ := ih hfits fun p hp => hacts p (List.mem_cons_of_mem a hp)
    have hrun : (s.run pool.toPool (a :: rest)).2 =
        ((s.perform pool.toPool a).2.run pool.toPool rest).2 :=
      rfl
    rw [hrun]
    refine ⟨by simpa [Session.steps] using hfits, hcalls.trans ?_, hfailures.trans ?_⟩
    · rw [hstep.calls, Session.steps, countP_cons_toNat, Nat.add_assoc]
    · rw [hstep.failures, Session.steps, countP_cons_toNat, Nat.add_assoc]

end Journal

namespace DoublePool

/-- No divergence goes unnoticed. Let the ledgers of a double pool be empty at first, with no
failures noted. After any steps under its policy, with any faults planned for any ledger at any
time, the first ledger holds the entries of the journal and the second one those that were not lost.
Each entry comes from a write, or from a write in a transaction with its begin and its commit, and
it is lost if and only if one of these calls of the second ledger failed. The number of failures is
that of failed calls of the second ledger, so that without one the two ledgers hold the same. -/
theorem no_silent_divergence (d : DoublePool) {f : Fleet} (hpolicy : f.policy d.cell = d.policy)
    (hfirst : (f.ledger d.first).committed = []) (hsecond : (f.ledger d.second).committed = [])
    (hfailures : (f.failureLog d.pool).count = 0) (acts : List Act)
    (hacts : ∀ p, .change (.setPolicy d.cell p) ∈ acts → p = d.policy) :
    let steps := Session.steps d { fleet := f } acts
    let entries := (Journal.of steps).entries
    let fleet := (({ fleet := f } : Session).run d.toPool acts).2.fleet
    (fleet.ledger d.first).committed = entries.map (·.statement) ∧
      (fleet.ledger d.second).committed = (entries.filter (!·.lost)).map (·.statement) ∧
      (∀ e ∈ entries, e.From steps ∧ (e.lost = true ↔ ∃ st ∈ e.steps, st.failed = true)) ∧
      (fleet.ledger d.second).committed.Sublist (fleet.ledger d.first).committed ∧
      (fleet.ledger d.second).faults.calls =
        (f.ledger d.second).faults.calls + steps.countP (·.refused?.isSome) ∧
      (fleet.failureLog d.pool).count = steps.countP Step.failed ∧
      ((fleet.failureLog d.pool).count = 0 →
        (fleet.ledger d.second).committed = (fleet.ledger d.first).committed) := by
  intro steps entries fleet
  have hstart : (Journal.of []).Fits d { fleet := f } := ⟨hpolicy, hfirst, hsecond, fun _ => .none⟩
  obtain ⟨hfits, hcalls, hcount⟩ := hstart.run acts hacts
  have hcount : (fleet.failureLog d.pool).count = steps.countP Step.failed := by
    rw [hcount, hfailures, Nat.zero_add]
  have hfrom := (Journal.from_of steps).entries
  have hfirst : (fleet.ledger d.first).committed = entries.map (·.statement) := hfits.first
  have hsecond : (fleet.ledger d.second).committed =
      (entries.filter (!·.lost)).map (·.statement) := hfits.second
  refine ⟨hfirst, hsecond, fun e he => ⟨hfrom e he, List.any_eq_true⟩, ?_, hcalls, hcount,
    fun hzero => ?_⟩
  · rw [hfirst, hsecond]
    exact (List.filter_sublist).map _
  · have hnone : ∀ st ∈ steps, ¬st.failed = true := List.countP_eq_zero.mp (hcount.symm.trans hzero)
    rw [hfirst, hsecond, List.filter_eq_self.mpr]
    intro e he
    simp only [Bool.not_eq_true', Bool.eq_false_iff, ne_eq, Entry.lost, List.any_eq_true,
      not_exists]
    rintro st ⟨hst, hfailed⟩
    exact hnone st ((hfrom e he).subset hst) hfailed

def sampleDouble : DoublePool where
  pool := "pool"
  cell := "cell"
  src := "old"
  dst := "new"
  policy := .srcFirst
  ne := by decide
  isDualWrite := rfl

/-- Each way to lose a statement, and a transaction that the first ledger does not commit. -/
def sampleWrites : List Act :=
  [.begin "t", .change (.arm "new" "begin" 1), .begin "u", .change (.arm "new" "tx_execute" 1),
    .inside "t" (.execute { sql := "A" }), .inside "u" (.execute { sql := "B" }),
    .inside "t" (.execute { sql := "C" }), .execute { sql := "D" },
    .change (.arm "new" "execute" 1), .execute { sql := "E" }, .inside "t" .commit,
    .inside "u" .commit, .begin "t", .inside "t" (.execute { sql := "F" }),
    .change (.arm "old" "commit" 1), .inside "t" .commit, .begin "u",
    .inside "u" (.execute { sql := "G" }), .change (.arm "new" "commit" 1), .inside "u" .commit]

theorem no_silent_divergence_sample :
    let f : Fleet := ({} : Fleet).setPolicy "cell" .srcFirst
    let steps := Session.steps sampleDouble { fleet := f } sampleWrites
    let fleet := (({ fleet := f } : Session).run sampleDouble.toPool sampleWrites).2.fleet
    f.policy "cell" = .srcFirst ∧ (f.ledger "old").committed = [] ∧
      (f.ledger "new").committed = [] ∧
      (f.failureLog "pool").count = 0 ∧
      (∀ p, .change (.setPolicy "cell" p) ∈ sampleWrites → p = .srcFirst) ∧
      (fleet.ledger "new").committed.Sublist (fleet.ledger "old").committed ∧
      (fleet.failureLog "pool").count = steps.countP Step.failed ∧
      (fleet.ledger "old").committed.map (·.sql) = ["D", "E", "A", "C", "B", "G"] ∧
      (fleet.ledger "new").committed.map (·.sql) = ["D", "C"] ∧
      (fleet.failureLog "pool").count = 4 := by
  have hpolicy : (({} : Fleet).setPolicy "cell" .srcFirst).policy "cell" = .srcFirst := by decide
  have hacts : ∀ p, .change (.setPolicy "cell" p) ∈ sampleWrites → p = .srcFirst := by
    simp [sampleWrites]
  obtain ⟨-, -, -, hsub, -, hcount, -⟩ :=
    no_silent_divergence sampleDouble hpolicy rfl rfl rfl sampleWrites hacts
  exact ⟨hpolicy, rfl, rfl, rfl, hacts, hsub, hcount, by decide +kernel, by decide +kernel,
    by decide +kernel⟩

end DoublePool

end Cutover.Traffic
