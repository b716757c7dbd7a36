import Cutover.Proofs.Courses

/-!
# Transactions keep their policy

A transaction is routed as it was when it was begun. Of the single things that are done in it none
looks at a policy (`Course.IsBlind`), however deeply the pools are nested, and so it does not matter
which policies are written afterwards, between two things that are done in the transaction or in the
midst of one. Where nothing comes between, this is what is done in a transaction as ever
(`Session.insideAmid_nil`). Main statement: `Session.frozen`.
-/

namespace Cutover.Traffic

variable {α β : Type} {f g : Fleet}

/-! ## Fleets that differ in their policies -/

/-- Fleets that are the same but for their policies. -/
structure Fleet.Alike (f g : Fleet) : Prop where
  ledgers : f.ledgers = g.ledgers
  failures : f.failures = g.failures
  now : f.now = g.now

namespace Fleet.Alike

theorem refl (f : Fleet) : f.Alike f := ⟨rfl, rfl, rfl⟩

theorem symm (h : f.Alike g) : g.Alike f := ⟨h.ledgers.symm, h.failures.symm, h.now.symm⟩

theorem trans {e : Fleet} (h : e.Alike f) (h' : f.Alike g) : e.Alike g :=
  ⟨h.ledgers.trans h'.ledgers, h.failures.trans h'.failures, h.now.trans h'.now⟩

theorem ledger (h : f.Alike g) (name : String) : f.ledger name = g.ledger name := by
  rw [Fleet.ledger, h.ledgers, Fleet.ledger]

theorem failureLog (h : f.Alike g) (pool : String) : f.failureLog pool = g.failureLog pool := by
  rw [Fleet.failureLog, h.failures, Fleet.failureLog]

/-- Whichever policies are written. -/
theorem write (h : f.Alike g) (writes writes' : Writes) :
    (f.write writes).Alike (g.write writes') := by
  have written (f : Fleet) (writes : Writes) : f.Alike (f.write writes) := by
    induction writes generalizing f with
    | nil => exact .refl f
    | cons w rest ih =>
      have hw : f.Alike (f.setPolicy w.1 w.2) := ⟨rfl, rfl, rfl⟩
      exact hw.trans (ih _)
  exact ((written f writes).symm.trans h).trans (written g writes')

theorem setLedger (h : f.Alike g) (name : String) (l : Ledger) :
    (f.setLedger name l).Alike (g.setLedger name l) :=
  ⟨congrArg (·.put name l) h.ledgers, h.failures, h.now⟩

theorem modifyLedger (h : f.Alike g) (name : String) (change : Ledger → Ledger) :
    (f.modifyLedger name change).Alike (g.modifyLedger name change) := by
  unfold Fleet.modifyLedger
  rw [h.ledger]
  exact h.setLedger name _

theorem addFailure (h : f.Alike g) (pool : String) (failure : Failure) :
    (f.addFailure pool failure).Alike (g.addFailure pool failure) := by
  refine ⟨h.ledgers, ?_, h.now⟩
  simp only [Fleet.addFailure, h.failureLog, h.failures]

theorem change (h : f.Alike g) (c : Change) : (f.change c).Alike (g.change c) := by
  cases c with
  | setPolicy name p => exact h.write [(name, p)] [(name, p)]
  | arm | delay | setRows => simp only [Fleet.change]; exact h.modifyLedger _ _

end Fleet.Alike

/-! ## What does not look at policies -/

namespace Course

/-- None of the single things that an operation does looks at a policy: each gives the same and does
the same whatever the policies are. -/
def IsBlind : Course α → Prop
  | done _ => True
  | next act rest =>
    (∀ f g, f.Alike g → (act f).1 = (act g).1 ∧ (act f).2.Alike (act g).2) ∧
      ∀ b, (rest b).IsBlind

theorem isBlind_pure (a : α) : (pure a : Course α).IsBlind := trivial

theorem IsBlind.bind {c : Course α} {k : α → Course β} (hc : c.IsBlind) (hk : ∀ a, (k a).IsBlind) :
    (c >>= k).IsBlind := by
  induction c with
  | done a => exact hk a
  | next act rest ih => exact ⟨hc.1, fun b => ih b (hc.2 b)⟩

theorem isBlind_reach (name op : String) : (one (·.reach name op)).IsBlind := by
  refine ⟨fun f g h => ?_, fun _ => trivial⟩
  simp only [Fleet.reach, h.ledger, h.now]
  have htime (time : Nat) : ({ f with now := time } : Fleet).Alike { g with now := time } :=
    ⟨h.ledgers, h.failures, rfl⟩
  cases (g.ledger name).faults.start.refusal? op with
  | none => exact ⟨rfl, (htime _).setLedger name _⟩
  | some faults => exact ⟨rfl, (htime _).setLedger name _⟩

theorem isBlind_ledger (name : String) : (one fun f => (f.ledger name, f)).IsBlind :=
  ⟨fun _ _ h => ⟨h.ledger name, h⟩, fun _ => trivial⟩

theorem isBlind_modifyLedger (name : String) (φ : Ledger → Ledger) :
    (change (·.modifyLedger name φ)).IsBlind :=
  ⟨fun _ _ h => ⟨rfl, h.modifyLedger name φ⟩, fun _ => trivial⟩

theorem isBlind_passOver (pool store operation : String) (s : Option Statement)
    (result : Except Error β) : (change (passOver pool store operation s result)).IsBlind := by
  refine ⟨fun f g h => ⟨rfl, ?_⟩, fun _ => trivial⟩
  cases result with
  | error e => exact h.addFailure pool _
  | ok a => exact h

/-- An operation that does not look at policies gives the same and does the same, whatever the
policies are and whichever are written in its midst. -/
theorem IsBlind.runAmid {c : Course α} (hc : c.IsBlind) (h : f.Alike g) (amid amid' : List Writes) :
    (c.runAmid amid f).1 = (c.runAmid amid' g).1 ∧
      (c.runAmid amid f).2.Alike (c.runAmid amid' g).2 := by
  induction c generalizing f g amid amid' with
  | done a => exact ⟨rfl, h.write _ _⟩
  | next act rest ih =>
    obtain ⟨hact, hrest⟩ := hc
    obtain ⟨hb, hfg⟩ := hact _ _ (h.write (amid.headD []) (amid'.headD []))
    simp only [Course.runAmid, hb]
    exact ih _ (hrest _) hfg amid.tail amid'.tail

end Course

/-! ## Transactions -/

namespace Transaction

open Course

theorem isBlind_passOverCourse (pool store operation : String) (s : Option Statement)
    (result : Except Error β) (answer : α) :
    (passOverCourse pool store operation s result answer).IsBlind :=
  (isBlind_passOver ..).bind fun _ => isBlind_pure answer

theorem isBlind_executeCourse (s : Statement) (t : Transaction) : (t.executeCourse s).IsBlind := by
  induction t with
  | ledger name pending =>
    refine (isBlind_reach name "tx_execute").bind fun r => ?_
    cases r <;> exact isBlind_pure _
  | single r primary ih => exact ih.bind fun _ => isBlind_pure _
  | dual r primary secondaryName secondary ih₁ ih₂ =>
    refine ih₁.bind fun (result, primary) => ?_
    cases result with
    | error e => exact isBlind_pure _
    | ok outcome => exact ih₂.bind fun _ => isBlind_passOverCourse ..

theorem isBlind_queryCourse (s : Statement) (t : Transaction) : (t.queryCourse s).IsBlind := by
  induction t with
  | ledger name pending =>
    refine (isBlind_reach name "tx_query").bind fun r => ?_
    cases r with
    | error e => exact isBlind_pure _
    | ok => exact (isBlind_ledger name).bind fun _ => isBlind_pure _
  | single r primary ih => exact ih
  | dual r primary secondaryName secondary ih => exact ih

theorem isBlind_dropCourse (t : Transaction) : t.dropCourse.IsBlind := by
  induction t with
  | ledger name pending => exact isBlind_modifyLedger ..
  | single r primary ih => exact ih
  | dual r primary secondaryName secondary ih₁ ih₂ => exact ih₁.bind fun _ => ih₂

theorem isBlind_endCourse (r : Routed) (secondaryName operation : String) (secondary : Transaction)
    {first second : Course (Except Error Unit)} (hfirst : first.IsBlind)
    (hsecond : second.IsBlind) :
    (endCourse r secondaryName operation secondary first second).IsBlind := by
  refine hfirst.bind fun result => ?_
  cases result with
  | error e => exact secondary.isBlind_dropCourse.bind fun _ => isBlind_pure _
  | ok => exact hsecond.bind fun _ => isBlind_passOverCourse ..

theorem isBlind_commitCourse (t : Transaction) : t.commitCourse.IsBlind := by
  induction t with
  | ledger name pending =>
    refine (isBlind_reach name "commit").bind fun r => ?_
    cases r <;> exact (isBlind_modifyLedger ..).bind fun _ => isBlind_pure _
  | single r primary ih => exact ih
  | dual r primary secondaryName secondary ih₁ ih₂ => exact isBlind_endCourse _ _ _ _ ih₁ ih₂

theorem isBlind_rollBackCourse (t : Transaction) : t.rollBackCourse.IsBlind := by
  induction t with
  | ledger name pending =>
    refine (isBlind_reach name "rollback").bind fun r => ?_
    exact (isBlind_modifyLedger ..).bind fun _ => isBlind_pure _
  | single r primary ih => exact ih
  | dual r primary secondaryName secondary ih₁ ih₂ => exact isBlind_endCourse _ _ _ _ ih₁ ih₂

/-- Whatever is done in a transaction, no policy is looked at. -/
theorem isBlind_course (t : Transaction) (a : TxAct) : (t.course a).IsBlind := by
  cases a with
  | execute s => exact (t.isBlind_executeCourse s).bind fun _ => isBlind_pure _
  | query s => exact (t.isBlind_queryCourse s).bind fun _ => isBlind_pure _
  | queryRow s => exact (t.isBlind_queryCourse s).bind fun _ => isBlind_pure _
  | commit => exact t.isBlind_commitCourse.bind fun _ => isBlind_pure _
  | rollBack => exact t.isBlind_rollBackCourse.bind fun _ => isBlind_pure _
  | drop => exact t.isBlind_dropCourse.bind fun _ => isBlind_pure _

end Transaction

/-! ## Sessions -/

/-- Something that happens while transactions are open. -/
inductive Occurrence where
  /-- Something is done in the transaction of a name, while policies are written in its midst. -/
  | inside (tx : String) (a : TxAct) (amid : List Writes)
  | change (c : Change)

namespace Occurrence

/-- What is left of an occurrence if no policies are written. -/
def calm? : Occurrence → Option Occurrence
  | inside tx a _ => some (inside tx a [])
  | change (.setPolicy ..) => none
  | change c => some (change c)

/-- Occurrences without the policies that are written. -/
def calm (occurrences : List Occurrence) : List Occurrence := occurrences.filterMap calm?

end Occurrence

namespace Session

variable {s s' : Session}

/-- Does something in the transaction of a name, while policies are written in its midst. -/
def insideAmid (s : Session) (tx : String) (a : TxAct) (amid : List Writes) : Answer × Session :=
  match s.transactions.get? tx with
  | none => (.missing, { s with fleet := s.fleet.write amid.flatten })
  | some t =>
    let ((answer, left), fleet) := (t.course a).runAmid amid s.fleet
    (answer, { s with fleet }.keep tx left)

/-- Lets things happen one after the other. Gives back what is answered in the transactions. -/
def go (s : Session) : List Occurrence → List Answer × Session
  | [] => ([], s)
  | .inside tx a amid :: rest =>
    let (answer, s) := s.insideAmid tx a amid
    let (answers, s) := s.go rest
    (answer :: answers, s)
  | .change c :: rest => { s with fleet := s.fleet.change c }.go rest

/-- Where nothing comes between, something is done in a transaction as ever. -/
theorem insideAmid_nil (s : Session) (tx : String) (a : TxAct) :
    s.insideAmid tx a [] = s.inside tx a := by
  unfold insideAmid inside
  cases s.transactions.get? tx with
  | none => rfl
  | some t =>
    have hrun : (t.course a).runAmid [] s.fleet = _ := t.run_course a s.fleet
    simp only [hrun]

/-- Sessions with the same open transactions, over fleets that differ in their policies. -/
structure Alike (s s' : Session) : Prop where
  fleet : s.fleet.Alike s'.fleet
  transactions : s.transactions = s'.transactions

namespace Alike

theorem refl (s : Session) : s.Alike s := ⟨.refl s.fleet, rfl⟩

theorem symm (h : s.Alike s') : s'.Alike s := ⟨h.fleet.symm, h.transactions.symm⟩

theorem trans {s'' : Session} (h : s.Alike s') (h' : s'.Alike s'') : s.Alike s'' :=
  ⟨h.fleet.trans h'.fleet, h.transactions.trans h'.transactions⟩

theorem keep (h : s.Alike s') (tx : String) (left : Option Transaction) :
    (s.keep tx left).Alike (s'.keep tx left) := by
  cases left with
  | none => exact ⟨h.fleet, congrArg (·.erase tx) h.transactions⟩
  | some t => exact ⟨h.fleet, congrArg (·.put tx t) h.transactions⟩

/-- What is done in a transaction, whichever policies are written in its midst. -/
theorem insideAmid (h : s.Alike s') (tx : String) (a : TxAct) (amid amid' : List Writes) :
    (s.insideAmid tx a amid).1 = (s'.insideAmid tx a amid').1 ∧
      (s.insideAmid tx a amid).2.Alike (s'.insideAmid tx a amid').2 := by
  obtain ⟨f, transactions⟩ := s
  obtain ⟨g, transactions'⟩ := s'
  obtain ⟨hfg : f.Alike g, rfl : transactions = transactions'⟩ := h
  unfold Session.insideAmid
  cases transactions.get? tx with
  | none => exact ⟨rfl, hfg.write _ _, rfl⟩
  | some t =>
    obtain ⟨hanswer, hfleet⟩ := (t.isBlind_course a).runAmid hfg amid amid'
    simp only [hanswer]
    have hs : Alike ⟨_, transactions⟩ ⟨_, transactions⟩ := ⟨hfleet, rfl⟩
    exact ⟨trivial, hs.keep tx _⟩

/-- What happens, and what would have happened if no policies had been written. -/
theorem go (h : s.Alike s') (occurrences : List Occurrence) :
    (s.go occurrences).1 = (s'.go (Occurrence.calm occurrences)).1 ∧
      (s.go occurrences).2.Alike (s'.go (Occurrence.calm occurrences)).2 := by
  induction occurrences generalizing s s' with
  | nil => exact ⟨rfl, h⟩
  | cons o rest ih =>
    cases o with
    | inside tx a amid =>
      obtain ⟨hanswer, hs⟩ := h.insideAmid tx a amid []
      obtain ⟨hanswers, hrest⟩ := ih hs
      exact ⟨List.cons_eq_cons.mpr ⟨hanswer, hanswers⟩, hrest⟩
    | change c =>
      cases c with
      | setPolicy name p => exact ih ⟨h.fleet.write [(name, p)] [], h.transactions⟩
      | arm ledger operation n => exact ih ⟨h.fleet.change (.arm ..), h.transactions⟩
      | delay ledger ms => exact ih ⟨h.fleet.change (.delay ..), h.transactions⟩
      | setRows ledger sql rows => exact ih ⟨h.fleet.change (.setRows ..), h.transactions⟩

end Alike

/-- A transaction that was begun on a pool goes on under the policies that were in force then. Let
two continuations, of this transaction and of others that may be open, be the same but for the
policies that are written, between two things that are done or in the midst of one. All that is done
in the transactions gives the same, and at the end the fleets differ in their policies alone: the
ledgers are the same, and so are the failures that were passed over. -/
theorem frozen (p : Pool) (s : Session) (tx : String) {one other : List Occurrence}
    (h : Occurrence.calm one = Occurrence.calm other) :
    let opened := (s.perform p (.begin tx)).2
    (opened.go one).1 = (opened.go other).1 ∧ (opened.go one).2.Alike (opened.go other).2 := by
  intro opened
  obtain ⟨hone, hcalm⟩ := (Alike.refl opened).go one
  obtain ⟨hother, hcalm'⟩ := (Alike.refl opened).go other
  rw [← h] at hother hcalm'
  exact ⟨hone.trans hother.symm, hcalm.trans hcalm'.symm⟩

/-- A pool over three ledgers, with one policy for it and for the pool that it is over. -/
def sampleNested : Pool :=
  .routed "outer" "policy" (.routed "inner" "policy" (.ledger "old") (.ledger "copy"))
    (.ledger "new")

/-- A write in a transaction, in the midst of which both pools are switched over and back, a
refusal, another switch and a commit. -/
def sampleSwitched : List Occurrence :=
  [.inside "t" (.execute { sql := "A" }) [[("policy", .dstOnly)], [("policy", .srcOnly)]],
    .change (.arm "new" "commit" 1), .change (.setPolicy "policy" .dstFirst),
    .inside "t" .commit [[], [("policy", .dstOnly)]]]

theorem frozen_sample :
    let start : Session := { fleet := ({} : Fleet).setPolicy "policy" .srcFirst }
    let opened := (start.perform sampleNested (.begin "t")).2
    let calm := Occurrence.calm sampleSwitched
    Occurrence.calm sampleSwitched = Occurrence.calm calm ∧
      (opened.go sampleSwitched).1 = (opened.go calm).1 ∧
      (opened.go sampleSwitched).2.Alike (opened.go calm).2 ∧
      (opened.go sampleSwitched).2.fleet.policy "policy" = .dstOnly ∧
      (opened.go calm).2.fleet.policy "policy" = .srcFirst ∧
      (["old", "copy", "new"].map fun name =>
        ((opened.go sampleSwitched).2.fleet.ledger name).committed.map (·.sql)) =
          [["A"], ["A"], []] ∧
      ((opened.go sampleSwitched).2.fleet.failureLog "outer").count = 1 := by
  intro start opened calm
  have hcalm : Occurrence.calm sampleSwitched = Occurrence.calm calm := rfl
  obtain ⟨hanswers, hs⟩ := frozen sampleNested start "t" hcalm
  exact ⟨hcalm, hanswers, hs, by decide +kernel, by decide +kernel, by decide +kernel,
    by decide +kernel⟩

end Session

end Cutover.Traffic
