import Cutover.Proofs.Doubling
import Mathlib.Data.List.Induction

/-!
# Journals of a session

A step of a session on a double pool is what was done, what was given back, and whether the second
ledger refused its call. From steps alone a `Journal` notes the statements that were acknowledged,
each with the steps that were to bring it to the ledgers. Main statement: whatever stands in a
journal comes from a write, or from a write in a transaction with its begin and its commit
(`Journal.from_of`).
-/

namespace Cutover.Traffic

/-! ## Steps -/

def Answer.succeeded : Answer → Bool
  | .outcome (.ok _) | .rows (.ok _) | .row (.ok _) | .unit (.ok _) | .done => true
  | _ => false

/-- The operation that is called on the second ledger, if the first one does its part. -/
def TxAct.secondCall? : TxAct → Option String
  | .execute _ => some "tx_execute"
  | .commit => some "commit"
  | .rollBack => some "rollback"
  | .query _ | .queryRow _ | .drop => none

@[inherit_doc TxAct.secondCall?]
def Act.secondCall? (s : Session) : Act → Option String
  | .execute _ => some "execute"
  | .begin _ => some "begin"
  | .inside tx a =>
    if (s.transactions.get? tx).any Transaction.hasSecondary then a.secondCall? else none
  | .query _ | .queryRow _ | .change _ => none

/-- A step of a session as it went. -/
structure Step where
  act : Act
  answer : Answer
  /-- Whether the second ledger refused its call, if it was called. -/
  refused? : Option Bool

/-- The call of the second ledger failed. -/
def Step.failed (st : Step) : Bool := st.refused?.getD false

namespace Session

/-- How a step on a double pool goes. -/
def step (d : DoublePool) (s : Session) (a : Act) : Step :=
  let answer := (s.perform d.toPool a).1
  let call? := if answer.succeeded then a.secondCall? s else none
  { act := a, answer, refused? := call?.map (s.fleet.refuses d.second) }

/-- How steps on a double pool go. -/
def steps (d : DoublePool) (s : Session) : List Act → List Step
  | [] => []
  | a :: rest => s.step d a :: (s.perform d.toPool a).2.steps d rest

end Session

/-! ## Journals -/

/-- A statement that was acknowledged, with the steps that brought it to the ledgers. -/
structure Entry where
  statement : Statement
  steps : List Step

/-- One of the calls that were to bring a statement to the second ledger failed. -/
def Entry.lost (e : Entry) : Bool := e.steps.any Step.failed

/-- The part of a single write that the second ledger is to take. -/
theorem Entry.kept_single (s : Statement) (st : Step) :
    (([⟨s, [st]⟩] : List Entry).filter (!·.lost)).map (·.statement) =
      DoublePool.taken st.failed [s] := by
  unfold DoublePool.taken
  cases h : st.failed <;> simp [Entry.lost, h]

/-- The statements of an open transaction, with the step that began it. -/
structure Draft where
  begun : Step
  entries : List Entry := []

namespace Draft

/-- The draft with one statement more. -/
def add (d : Draft) (s : Statement) (st : Step) : Draft :=
  { d with entries := d.entries ++ [⟨s, [d.begun, st]⟩] }

/-- The entries of a draft when the transaction is committed. -/
def close (d : Draft) (st : Step) : List Entry :=
  d.entries.map fun e => { e with steps := e.steps ++ [st] }

end Draft

/-- Statements that were acknowledged, and the drafts of the open transactions by their names. -/
structure Journal where
  entries : List Entry := []
  drafts : Assoc String Draft := {}

namespace Journal

/-- Notes a step in the transaction of a draft. -/
def noteInside (j : Journal) (st : Step) (tx : String) (d : Draft) : TxAct → Journal
  | .execute s =>
    if st.answer.succeeded then { j with drafts := j.drafts.put tx (d.add s st) } else j
  | .commit =>
    { entries := if st.answer.succeeded then j.entries ++ d.close st else j.entries
      drafts := j.drafts.erase tx }
  | .rollBack | .drop => { j with drafts := j.drafts.erase tx }
  | .query _ | .queryRow _ => j

/-- Notes a step by what was done and whether it was acknowledged. -/
def note (j : Journal) (st : Step) : Journal :=
  match st.act with
  | .execute s =>
    if st.answer.succeeded then { j with entries := j.entries ++ [⟨s, [st]⟩] } else j
  | .begin tx =>
    if st.answer.succeeded then { j with drafts := (j.drafts.erase tx).put tx { begun := st } }
    else j
  | .inside tx a =>
    match j.drafts.get? tx with
    | some d => j.noteInside st tx d a
    | none => j
  | .query _ | .queryRow _ | .change _ => j

/-- The journal of some steps. -/
def of (steps : List Step) : Journal := steps.foldl note {}

theorem of_concat (past : List Step) (st : Step) : of (past ++ [st]) = (of past).note st :=
  List.foldl_concat _ _ _ _

end Journal

/-- The steps that an entry names are steps of a list, in their order: a write, or a write in a
transaction with its begin and its commit. -/
def Entry.From (steps : List Step) (e : Entry) : Prop :=
  (∃ st ∈ steps, e.steps = [st] ∧ st.act = .execute e.statement) ∨
    ∃ tx begun write commit, [begun, write, commit].Sublist steps ∧
      e.steps = [begun, write, commit] ∧ begun.act = .begin tx ∧
      write.act = .inside tx (.execute e.statement) ∧ commit.act = .inside tx .commit

theorem Entry.From.subset {steps : List Step} {e : Entry} (h : e.From steps) : e.steps ⊆ steps := by
  rcases h with ⟨st, hst, hsteps, -⟩ | ⟨_, _, _, _, hlist, hsteps, -⟩
  · rw [hsteps]
    exact (List.singleton_sublist.mpr hst).subset
  · rw [hsteps]
    exact hlist.subset

/-- Entries of a draft come from a begin and a write. -/
structure Draft.From (steps : List Step) (tx : String) (d : Draft) : Prop where
  begun : d.begun ∈ steps ∧ d.begun.act = .begin tx
  entries : ∀ e ∈ d.entries, ∃ write, [d.begun, write].Sublist steps ∧
    e.steps = [d.begun, write] ∧ write.act = .inside tx (.execute e.statement)

theorem Entry.From.mono {steps more : List Step} {e : Entry} (h : e.From steps)
    (hsub : steps.Sublist more) : e.From more := by
  rcases h with ⟨st, hst, hsteps, hact⟩ | ⟨tx, begun, write, commit, hlist, hsteps⟩
  · exact .inl ⟨st, hsub.subset hst, hsteps, hact⟩
  · exact .inr ⟨tx, begun, write, commit, hlist.trans hsub, hsteps⟩

theorem Draft.From.mono {steps more : List Step} {tx : String} {d : Draft} (h : d.From steps tx)
    (hsub : steps.Sublist more) : d.From more tx where
  begun := ⟨hsub.subset h.begun.1, h.begun.2⟩
  entries e he := by
    obtain ⟨write, hlist, hrest⟩ := h.entries e he
    exact ⟨write, hlist.trans hsub, hrest⟩

namespace Journal

/-- Whatever stands in a journal comes from some steps. -/
structure From (steps : List Step) (j : Journal) : Prop where
  entries : ∀ e ∈ j.entries, e.From steps
  drafts : ∀ tx d, j.drafts.get? tx = some d → d.From steps tx

variable {past : List Step} {j : Journal}

theorem From.mono {more : List Step} (h : j.From past) (hsub : past.Sublist more) : j.From more :=
  ⟨fun e he => (h.entries e he).mono hsub, fun tx d hd => (h.drafts tx d hd).mono hsub⟩

theorem From.put {tx : String} {d : Draft} (h : j.From past) (hd : d.From past tx) :
    From past { j with drafts := j.drafts.put tx d } := by
  refine ⟨h.entries, fun other d' h' => ?_⟩
  rw [Assoc.get?_put] at h'
  split at h'
  · next heq =>
    cases h'
    exact heq ▸ hd
  · exact h.drafts other d' h'

theorem From.erase (h : j.From past) (tx : String) :
    From past { j with drafts := j.drafts.erase tx } := by
  refine ⟨h.entries, fun other d' h' => ?_⟩
  rw [Assoc.get?_erase] at h'
  split at h'
  · cases h'
  · exact h.drafts other d' h'

theorem From.append {entries : List Entry} (h : j.From past) (he : ∀ e ∈ entries, e.From past) :
    From past { j with entries := j.entries ++ entries } := by
  refine ⟨fun e hmem => ?_, h.drafts⟩
  rcases List.mem_append.mp hmem with hold | hnew
  · exact h.entries e hold
  · exact he e hnew

theorem From.noteInside (h : j.From past) {st : Step} {tx : String} {d : Draft} {a : TxAct}
    (hact : st.act = .inside tx a) (hd : j.drafts.get? tx = some d) :
    (j.noteInside st tx d a).From (past ++ [st]) := by
  have h' : j.From (past ++ [st]) := h.mono (List.sublist_append_left _ _)
  cases a with
  | execute s =>
    simp only [Journal.noteInside]
    split
    · refine h'.put ⟨(h'.drafts tx d hd).begun, fun e he => ?_⟩
      rcases List.mem_append.mp he with hold | hnew
      · exact (h'.drafts tx d hd).entries e hold
      · cases List.mem_singleton.mp hnew
        have hbegun := List.singleton_sublist.mpr (h.drafts tx d hd).begun.1
        exact ⟨st, hbegun.append (List.Sublist.refl [st]), rfl, hact⟩
    · exact h'
  | commit =>
    simp only [Journal.noteInside]
    split
    · refine (h'.append fun e he => ?_).erase tx
      obtain ⟨e, hold, rfl⟩ := List.mem_map.mp he
      obtain ⟨write, hlist, hsteps, hwrite⟩ := (h.drafts tx d hd).entries e hold
      refine .inr ⟨tx, d.begun, write, st, hlist.append (List.Sublist.refl [st]), ?_,
        (h.drafts tx d hd).begun.2, hwrite, hact⟩
      rw [hsteps]
      rfl
    · exact h'.erase tx
  | rollBack | drop => exact h'.erase tx
  | query | queryRow => exact h'

theorem From.note (h : j.From past) (st : Step) : (j.note st).From (past ++ [st]) := by
  have h' : j.From (past ++ [st]) := h.mono (List.sublist_append_left _ _)
  have hmem : st ∈ past ++ [st] := by simp
  cases hact : st.act with
  | execute s =>
    simp only [Journal.note, hact]
    split
    · refine h'.append fun e he => ?_
      cases List.mem_singleton.mp he
      exact .inl ⟨st, hmem, rfl, hact⟩
    · exact h'
  | begin tx =>
    simp only [Journal.note, hact]
    split
    · exact (h'.erase tx).put ⟨⟨hmem, hact⟩, by simp⟩
    · exact h'
  | inside tx a =>
    simp only [Journal.note, hact]
    split
    · next d hd => exact h.noteInside hact hd
    · exact h'
  | query | queryRow | change =>
    simp only [Journal.note, hact]
    exact h'

theorem from_of (steps : List Step) : (of steps).From steps := by
  induction steps using List.reverseRecOn with
  | nil => exact ⟨by simp [of], by simp [of, Assoc.get?]⟩
  | append_singleton past st ih =>
    rw [of_concat]
    exact ih.note st

end Journal

end Cutover.Traffic
