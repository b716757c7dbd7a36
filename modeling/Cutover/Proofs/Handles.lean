import Cutover.Traffic.Session
import Mathlib.Data.List.Basic

/-!
# Handles of transactions

Whatever is done through pools comes down to deeds: calls of single ledgers, and what is done in the
transactions of single ledgers. `Books` record, deed by deed, each transaction that was begun as a
`Handle`, with the statements that it took and how it ended, and the batches of statements that came
to the ledgers. Main statement: after all deeds in any order the ledgers agree with the books
(`Books.Balanced.after`): each ledger counts as open the handles that are live, and a handle brought
its statements to its ledger once, in one batch, if it was committed, and brought nothing otherwise.
-/

namespace Cutover.Traffic

/-! ## What a ledger has counted -/

/-- The statements and the transactions of a ledger. -/
structure Account where
  committed : List Statement
  opened : Nat
  commits : Nat
  rollbacks : Nat

def Ledger.account (l : Ledger) : Account := ⟨l.committed, l.opened, l.commits, l.rollbacks⟩

namespace Fleet

theorem account_reach (f : Fleet) (name op other : String) :
    ((f.reach name op).2.ledger other).account = (f.ledger other).account := by
  rw [ledger_reach]
  rfl

theorem account_modifyLedger (f : Fleet) (name other : String) (φ : Ledger → Ledger) :
    ((f.modifyLedger name φ).ledger other).account =
      if other = name then (φ (f.ledger name)).account else (f.ledger other).account := by
  rw [modifyLedger, ledger_setLedger]
  split <;> rfl

/-- A change of a ledger that leaves its statements and transactions as they are. -/
theorem account_modifyLedger_of_eq (f : Fleet) (name other : String) {φ : Ledger → Ledger}
    (hφ : ∀ l, (φ l).account = l.account) :
    ((f.modifyLedger name φ).ledger other).account = (f.ledger other).account := by
  rw [account_modifyLedger]
  split
  · next heq => rw [hφ, heq]
  · rfl

theorem account_change (f : Fleet) (c : Change) (other : String) :
    ((f.change c).ledger other).account = (f.ledger other).account := by
  cases c with
  | setPolicy => rfl
  | arm | delay | setRows => exact account_modifyLedger_of_eq _ _ _ fun _ => rfl

end Fleet

/-! ## Handles -/

/-- How a transaction stands. -/
inductive Fate where
  | live
  | committed
  | rolledBack
  deriving DecidableEq, Repr

/-- Statements that came to a ledger together: those of a transaction, by the number of its handle,
or a single one. -/
structure Batch where
  ledger : String
  statements : List Statement
  handle? : Option Nat := none

/-- A transaction over one ledger, from its begin on. -/
structure Handle where
  ledger : String
  /-- The statements that were executed in it. -/
  statements : List Statement := []
  fate : Fate := .live

namespace Handle

def transaction (h : Handle) : Transaction := .ledger h.ledger h.statements

/-- Does something in a transaction. -/
def perform (h : Handle) (f : Fleet) : TxAct → Handle × Fleet
  | .execute s =>
    match h.transaction.execute s f with
    | (.ok _, _, f) => ({ h with statements := h.statements ++ [s] }, f)
    | (.error _, _, f) => (h, f)
  | .query s => (h, (h.transaction.query s f).2)
  | .queryRow s => (h, (h.transaction.queryRow s f).2)
  | .commit =>
    match h.transaction.commit f with
    | (.ok (), f) => ({ h with fate := .committed }, f)
    | (.error _, f) => ({ h with fate := .rolledBack }, f)
  | .rollBack => ({ h with fate := .rolledBack }, (h.transaction.rollBack f).2)
  | .drop => ({ h with fate := .rolledBack }, h.transaction.drop f)

/-- What a handle brought to its ledger. -/
def batches (h : Handle) (i : Nat) : List Batch :=
  if h.fate = .committed then [⟨h.ledger, h.statements, some i⟩] else []

/-- What the end of a transaction makes of its ledger. -/
def settle (h : Handle) (a : Account) : Account :=
  match h.fate with
  | .live => a
  | .committed =>
    { a with
      committed := a.committed ++ h.statements
      opened := a.opened - 1
      commits := a.commits + 1 }
  | .rolledBack => { a with opened := a.opened - 1, rollbacks := a.rollbacks + 1 }

@[simp] theorem ledger_perform (h : Handle) (f : Fleet) (a : TxAct) :
    (h.perform f a).1.ledger = h.ledger := by
  cases a with
  | execute s => unfold perform; dsimp only; split <;> rfl
  | commit => unfold perform; dsimp only; split <;> rfl
  | query | queryRow | rollBack | drop => rfl

/-- What is done in a live transaction changes its ledger only when it ends the transaction. -/
theorem account_perform {h : Handle} (hlive : h.fate = .live) (f : Fleet) (a : TxAct)
    (other : String) :
    ((h.perform f a).2.ledger other).account =
      if other = h.ledger then (h.perform f a).1.settle (f.ledger other).account
      else (f.ledger other).account := by
  have kept {h' : Handle} {f' : Fleet} (hlive : h'.fate = .live)
      (hf : (f'.ledger other).account = (f.ledger other).account) :
      (f'.ledger other).account =
        if other = h.ledger then h'.settle (f.ledger other).account
        else (f.ledger other).account := by
    rw [settle, hlive, hf, ite_self]
  have rolledBack {h' : Handle} {f' : Fleet} (hfate : h'.fate = .rolledBack)
      (hf : (f'.ledger other).account = (f.ledger other).account) :
      ((f'.modifyLedger h.ledger Ledger.rollBackOne).ledger other).account =
        if other = h.ledger then h'.settle (f.ledger other).account
        else (f.ledger other).account := by
    rw [Fleet.account_modifyLedger]
    split
    · next heq => subst heq; rw [settle, hfate, ← hf]; rfl
    · exact hf
  cases a with
  | execute s =>
    have hreach := f.account_reach h.ledger "tx_execute" other
    simp only [perform, transaction, Transaction.execute]
    generalize f.reach h.ledger "tx_execute" = r at hreach
    obtain ⟨result, f'⟩ := r
    cases result with
    | error e => exact kept hlive hreach
    | ok => exact kept hlive hreach
  | query s | queryRow s =>
    have hreach := f.account_reach h.ledger "tx_query" other
    simp only [perform, transaction, Transaction.query, Transaction.queryRow]
    generalize f.reach h.ledger "tx_query" = r at hreach
    obtain ⟨result, f'⟩ := r
    cases result with
    | error e => exact kept hlive hreach
    | ok => exact kept hlive hreach
  | commit =>
    have hreach := f.account_reach h.ledger "commit" other
    simp only [perform, transaction, Transaction.commit]
    generalize f.reach h.ledger "commit" = r at hreach
    obtain ⟨result, f'⟩ := r
    cases result with
    | error e => exact rolledBack rfl hreach
    | ok =>
      simp only [Fleet.account_modifyLedger]
      split
      · next heq => subst heq; rw [← hreach]; rfl
      · exact hreach
  | rollBack => exact rolledBack rfl (f.account_reach h.ledger "rollback" other)
  | drop => exact rolledBack rfl rfl

end Handle

/-! ## Books -/

/-- A call of a ledger, something done in a transaction by the number of its handle, a failure that
is noted, or a change from outside. -/
inductive Deed where
  | execute (ledger : String) (s : Statement)
  | query (ledger : String) (s : Statement)
  | begin (ledger : String)
  | inside (handle : Nat) (a : TxAct)
  | note (pool : String) (failure : Failure)
  | change (c : Change)

/-- A fleet, with the handles and the batches that there have been, numbered and in their order. -/
structure Books where
  fleet : Fleet
  handles : List Handle := []
  batches : List Batch := []

namespace Books

/-- Does something in the transaction of a handle, if it is live. -/
def inside (b : Books) (i : Nat) (a : TxAct) : Books :=
  match b.handles[i]? with
  | none => b
  | some h =>
    if h.fate = .live then
      let (h, fleet) := h.perform b.fleet a
      { fleet, handles := b.handles.set i h, batches := b.batches ++ h.batches i }
    else b

def perform (b : Books) : Deed → Books
  | .execute name s =>
    match (Pool.ledger name).execute s b.fleet with
    | (.ok _, fleet) =>
      { b with fleet, batches := b.batches ++ [{ ledger := name, statements := [s] }] }
    | (.error _, fleet) => { b with fleet }
  | .query name s => { b with fleet := ((Pool.ledger name).query s b.fleet).2 }
  | .begin name =>
    match (Pool.ledger name).begin b.fleet with
    | (.ok _, fleet) => { b with fleet, handles := b.handles ++ [{ ledger := name }] }
    | (.error _, fleet) => { b with fleet }
  | .inside i a => b.inside i a
  | .note pool failure => { b with fleet := b.fleet.addFailure pool failure }
  | .change c => { b with fleet := b.fleet.change c }

def after (b : Books) (deeds : List Deed) : Books := deeds.foldl perform b

theorem after_append (b : Books) (deeds more : List Deed) :
    b.after (deeds ++ more) = (b.after deeds).after more := List.foldl_append

/-- The number of the handles on a ledger that stand in some way. -/
def count (b : Books) (name : String) (fate : Fate) : Nat :=
  b.handles.countP fun h => h.ledger = name ∧ h.fate = fate

/-- The number of the transactions that were begun on a ledger. -/
def begun (b : Books) (name : String) : Nat := b.handles.countP fun h => h.ledger = name

/-- What a ledger should have counted. -/
def account (b : Books) (name : String) : Account where
  committed := (b.batches.filter fun e => e.ledger = name).flatMap Batch.statements
  opened := b.count name .live
  commits := b.count name .committed
  rollbacks := b.count name .rolledBack

theorem begun_eq (b : Books) (name : String) :
    b.begun name = b.count name .live + b.count name .committed + b.count name .rolledBack := by
  unfold begun count
  induction b.handles with
  | nil => rfl
  | cons h rest ih =>
    simp only [List.countP_cons, ih]
    by_cases hname : h.ledger = name
    · cases hfate : h.fate <;> simp [hname] <;> omega
    · simp [hname]

/-- The ledgers agree with the books. -/
structure Balanced (b : Books) : Prop where
  account : ∀ name, (b.fleet.ledger name).account = b.account name
  /-- A handle brought its statements to its ledger once if it was committed, and nothing else. -/
  batches : ∀ (i : Nat) (h : Handle), b.handles[i]? = some h →
    (b.batches.filter fun e => e.handle? = some i) = h.batches i
  numbered : ∀ e ∈ b.batches, ∀ i, e.handle? = some i → i < b.handles.length

variable {b : Books}

theorem Balanced.withFleet (hb : b.Balanced) {fleet : Fleet}
    (h : ∀ name, (fleet.ledger name).account = (b.fleet.ledger name).account) :
    ({ b with fleet } : Books).Balanced :=
  ⟨fun name => (h name).trans (hb.account name), hb.batches, hb.numbered⟩

theorem account_append (b : Books) (fleet : Fleet) (new : List Batch) (name : String) :
    ({ b with fleet, batches := b.batches ++ new } : Books).account name =
      { b.account name with
        committed := (b.account name).committed ++
          (new.filter fun e => e.ledger = name).flatMap Batch.statements } := by
  simp only [account, count, List.filter_append, List.flatMap_append]

theorem account_begin (b : Books) (fleet : Fleet) (name other : String) :
    ({ b with fleet, handles := b.handles ++ [{ ledger := name }] } : Books).account other =
      if other = name then { b.account other with opened := (b.account other).opened + 1 }
      else b.account other := by
  split
  · next heq => simp [account, count, List.countP_append, heq]
  · next hne => simp [account, count, List.countP_append, Ne.symm hne]

theorem Balanced.execute (hb : b.Balanced) (name : String) (s : Statement) :
    (b.perform (.execute name s)).Balanced := by
  have hreach (other : String) := b.fleet.account_reach name "execute" other
  simp only [perform, Pool.execute]
  generalize b.fleet.reach name "execute" = r at hreach
  obtain ⟨result, fleet⟩ := r
  cases result with
  | error e => exact hb.withFleet hreach
  | ok =>
    refine ⟨fun other => ?_, fun i h hi => ?_, fun e he i hi => ?_⟩
    · dsimp only
      rw [account_append, Fleet.account_modifyLedger, ← hb.account other, ← hreach other]
      split
      · next heq =>
        subst heq
        simp [Ledger.account, Ledger.apply]
      · next hne => simp [Ne.symm hne]
    · rw [List.filter_append, hb.batches i h hi]
      simp
    · rcases List.mem_append.mp he with he | he
      · exact hb.numbered e he i hi
      · cases List.mem_singleton.mp he
        cases hi

theorem Balanced.query (hb : b.Balanced) (name : String) (s : Statement) :
    (b.perform (.query name s)).Balanced := by
  have hreach (other : String) := b.fleet.account_reach name "query" other
  simp only [perform, Pool.query]
  generalize b.fleet.reach name "query" = r at hreach
  obtain ⟨result, fleet⟩ := r
  cases result <;> exact hb.withFleet hreach

theorem Balanced.begin (hb : b.Balanced) (name : String) : (b.perform (.begin name)).Balanced := by
  have hreach (other : String) := b.fleet.account_reach name "begin" other
  simp only [perform, Pool.begin]
  generalize b.fleet.reach name "begin" = r at hreach
  obtain ⟨result, fleet⟩ := r
  cases result with
  | error e => exact hb.withFleet hreach
  | ok =>
    refine ⟨fun other => ?_, fun i h hi => ?_, fun e he i hi => ?_⟩
    · dsimp only
      rw [account_begin, Fleet.account_modifyLedger, ← hb.account other, ← hreach other]
      split
      · next heq =>
        subst heq
        rfl
      · rfl
    · rw [List.getElem?_append] at hi
      split at hi
      · exact hb.batches i h hi
      · next hlt =>
        rw [List.getElem?_singleton] at hi
        split at hi
        · cases hi
          rw [List.filter_eq_nil_iff.mpr]
          · rfl
          · intro e he heq
            exact hlt (hb.numbered e he i (by simpa using heq))
        · cases hi
    · rw [List.length_append]
      exact Nat.lt_add_right _ (hb.numbered e he i hi)

/-- The handles before and behind one that another takes the place of. -/
theorem exists_set {i : Nat} {h : Handle} (hi : b.handles[i]? = some h) (h' : Handle) :
    ∃ before rest, b.handles = before ++ h :: rest ∧
      b.handles.set i h' = before ++ h' :: rest := by
  obtain ⟨hlt, rfl⟩ := List.getElem?_eq_some_iff.mp hi
  obtain ⟨before, rest, hhandles, -, hset⟩ := List.exists_of_set hlt
  exact ⟨before, rest, hhandles, hset⟩

/-- What is counted when a handle takes the place of a live one. -/
theorem count_set {i : Nat} {h : Handle} (hi : b.handles[i]? = some h) (fleet : Fleet)
    (h' : Handle) (new : List Batch) (name : String) (fate : Fate) :
    ({ fleet, handles := b.handles.set i h', batches := new } : Books).count name fate +
        (if h.ledger = name ∧ h.fate = fate then 1 else 0) =
      b.count name fate + if h'.ledger = name ∧ h'.fate = fate then 1 else 0 := by
  obtain ⟨before, rest, hhandles, hset⟩ := exists_set hi h'
  unfold count
  rw [hset, hhandles]
  simp only [List.countP_append, List.countP_cons, decide_eq_true_eq]
  omega

theorem account_set {i : Nat} {h h' : Handle} (hi : b.handles[i]? = some h) (hlive : h.fate = .live)
    (hledger : h'.ledger = h.ledger) (fleet : Fleet) (name : String) :
    ({ fleet, handles := b.handles.set i h', batches := b.batches ++ h'.batches i } : Books).account
        name =
      if name = h.ledger then h'.settle (b.account name) else b.account name := by
  have hcount (fate : Fate) := count_set hi fleet h' (b.batches ++ h'.batches i) name fate
  simp only [hledger, hlive] at hcount
  by_cases hname : name = h.ledger
  · subst hname
    rw [if_pos rfl]
    simp only [account, List.filter_append, List.flatMap_append]
    generalize
      ({ fleet, handles := b.handles.set i h', batches := b.batches ++ h'.batches i } : Books).count
        h.ledger = counted at hcount ⊢
    have hopened := hcount .live
    have hcommits := hcount .committed
    have hrollbacks := hcount .rolledBack
    cases hfate : h'.fate <;>
      simp [Handle.settle, Handle.batches, hledger, hfate] at hopened hcommits hrollbacks ⊢ <;>
      omega
  · rw [if_neg hname]
    have hsame (fate : Fate) := hcount fate
    simp only [Ne.symm hname, false_and, if_false, Nat.add_zero] at hsame
    have hnew : (h'.batches i).filter (fun e => e.ledger = name) = [] := by
      unfold Handle.batches
      split <;> simp [hledger, Ne.symm hname]
    simp only [account, hsame, List.filter_append, hnew, List.append_nil]

theorem Balanced.inside (hb : b.Balanced) (i : Nat) (a : TxAct) : (b.inside i a).Balanced := by
  unfold Books.inside
  split
  · exact hb
  · next h hi =>
    split
    · next hlive =>
      have haccount := Handle.account_perform hlive b.fleet a
      have hledger := h.ledger_perform b.fleet a
      dsimp only
      generalize (h.perform b.fleet a).1 = h' at haccount hledger
      generalize (h.perform b.fleet a).2 = fleet at haccount
      have hlt : i < b.handles.length := (List.getElem?_eq_some_iff.mp hi).1
      -- the batches of `h'` are those of its own number
      have hown (e : Batch) (he : e ∈ h'.batches i) : e.handle? = some i := by
        unfold Handle.batches at he
        split at he
        · rw [List.mem_singleton.mp he]
        · cases he
      refine ⟨fun name => ?_, fun j g hj => ?_, fun e he j hj => ?_⟩
      · rw [account_set hi hlive hledger, haccount, hb.account]
      · rw [List.filter_append]
        rw [List.getElem?_set] at hj
        split at hj
        · next heq =>
          subst heq
          cases hj
          rw [hb.batches i h hi, List.filter_eq_self.mpr fun e he => by simp [hown e he]]
          simp [Handle.batches, hlive]
        · next hne =>
          rw [hb.batches j g hj, List.filter_eq_nil_iff.mpr, List.append_nil]
          intro e he
          simp [hown e he, hne]
      · rw [List.length_set]
        rcases List.mem_append.mp he with he | he
        · exact hb.numbered e he j hj
        · cases (hown e he).symm.trans hj
          exact hlt
    · exact hb

/-- The ledgers agree with the books after every deed. -/
theorem Balanced.perform (hb : b.Balanced) (x : Deed) : (b.perform x).Balanced := by
  cases x with
  | execute name s => exact hb.execute name s
  | query name s => exact hb.query name s
  | begin name => exact hb.begin name
  | inside i a => exact hb.inside i a
  | note pool failure => exact hb.withFleet fun _ => rfl
  | change c => exact hb.withFleet fun name => b.fleet.account_change c name

theorem Balanced.after (hb : b.Balanced) (deeds : List Deed) : (b.after deeds).Balanced := by
  induction deeds generalizing b with
  | nil => exact hb
  | cons x rest ih => exact ih (hb.perform x)

variable (hb : b.Balanced) (name : String)

include hb

theorem Balanced.opened : (b.fleet.ledger name).opened = b.count name .live :=
  congrArg Account.opened (hb.account name)

/-- Every transaction that was begun is open, committed or rolled back. -/
theorem Balanced.begun :
    b.begun name = (b.fleet.ledger name).opened + (b.fleet.ledger name).commits +
      (b.fleet.ledger name).rollbacks := by
  have hcommits : (b.fleet.ledger name).commits = _ := congrArg Account.commits (hb.account name)
  have hrollbacks : (b.fleet.ledger name).rollbacks = _ :=
    congrArg Account.rollbacks (hb.account name)
  rw [begun_eq, hb.opened, hcommits, hrollbacks]
  rfl

end Books

end Cutover.Traffic
