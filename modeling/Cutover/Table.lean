import Cutover.Assoc
import Cutover.Entity

/-!
# Tables

`Rows` are the queries on a list of rows. A `Table` is an ordered map: it holds rows under keys, and
each row is under its own id. Some queries go by the keys and some by the ids of the rows, which
come to the same (`Table.keys_eq`, `Table.get?_eq_first?`). Main statements: what insertion and
removal do to the row under each key (`Table.get?_insert`, `Table.get?_erase`).
-/

namespace Cutover

variable {ρ : Type} [Entity ρ]

/-- A part of the rows in order, perhaps only of the rows changed since some time. -/
structure PageQuery where
  offset : Nat
  limit : Nat
  since : Option Int := none
  deriving DecidableEq, Repr, Inhabited

/-! ## Queries on lists of rows -/

namespace Rows

/-- Whether a row was changed at a time or later. -/
def isSince (since : Option Int) (r : ρ) : Bool :=
  match since with
  | none => true
  | some t => decide (t ≤ Entity.updatedAt r)

def view (since : Option Int) (rows : List ρ) : List ρ := rows.filter (isSince since)

def page (q : PageQuery) (rows : List ρ) : List ρ :=
  ((view q.since rows).drop q.offset).take q.limit

/-- The rows with a wanted id. -/
def ofIds (ids : List Int) (rows : List ρ) : List ρ :=
  rows.filter fun r => ids.contains (Entity.id r)

def first? (id : Int) (rows : List ρ) : Option ρ := rows.find? fun r => Entity.id r == id

/-- The rows without those of an id. -/
def without (id : Int) (rows : List ρ) : List ρ := rows.filter fun r => Entity.id r != id

end Rows

/-! ## Tables -/

/-- Rows under keys, in the order of the keys. -/
structure Table (ρ : Type) [Entity ρ] where
  entries : List (Int × ρ) := []
  sorted : entries.Pairwise fun a b => a.1 < b.1 := by simp
  /-- Each row is under its own id. -/
  keyed : ∀ e ∈ entries, e.1 = Entity.id e.2 := by simp

namespace Table

def empty : Table ρ := {}

instance : Inhabited (Table ρ) := ⟨empty⟩

def rows (t : Table ρ) : List ρ := t.entries.map Prod.snd

def keys (t : Table ρ) : List Int := t.entries.map Prod.fst

/-- The row under a key. -/
def get? (t : Table ρ) (k : Int) : Option ρ := t.entries.lookup k

/-! ### Keys and ids -/

theorem keys_eq (t : Table ρ) : t.keys = t.rows.map Entity.id := by
  rw [keys, rows, List.map_map]
  exact List.map_congr_left t.keyed

/-- The rows of a table have ascending ids. -/
theorem ascending (t : Table ρ) : t.rows.Pairwise fun a b => Entity.id a < Entity.id b := by
  refine List.pairwise_map.mp ?_
  rw [← keys_eq]
  exact List.pairwise_map.mpr t.sorted

theorem lookup_eq_first? {l : List (Int × ρ)} (h : ∀ e ∈ l, e.1 = Entity.id e.2) (id : Int) :
    l.lookup id = Rows.first? id (l.map Prod.snd) := by
  induction l with
  | nil => rfl
  | cons e rest ih =>
    obtain ⟨he, hrest⟩ := List.forall_mem_cons.mp h
    obtain ⟨k, r⟩ := e
    have ih := ih hrest
    unfold Rows.first? at ih ⊢
    by_cases hid : id = k
    · have hr : Entity.id r = k := he.symm
      simp [hid, hr]
    · have hr : ¬ Entity.id r = id := fun hr => hid (hr.symm.trans he.symm)
      have hb : (id == k) = false := by simpa using hid
      simp [List.lookup_cons, hr, hb, ih]

/-- The row under a key is the row with that id. -/
theorem get?_eq_first? (t : Table ρ) (id : Int) : t.get? id = Rows.first? id t.rows :=
  lookup_eq_first? t.keyed id

/-! ### Changes -/

/-- A row put in its place among entries with ascending keys, instead of the row under its key. -/
def putEntries (k : Int) (r : ρ) : List (Int × ρ) → List (Int × ρ)
  | [] => [(k, r)]
  | e :: rest =>
    if k < e.1 then (k, r) :: e :: rest
    else if k = e.1 then (k, r) :: rest
    else e :: putEntries k r rest

omit [Entity ρ] in
theorem mem_putEntries {k : Int} {r : ρ} {x : Int × ρ} {l : List (Int × ρ)}
    (h : x ∈ putEntries k r l) : x = (k, r) ∨ x ∈ l := by
  induction l with
  | nil => simpa [putEntries] using h
  | cons e rest ih =>
    unfold putEntries at h
    split at h
    · simpa using h
    · split at h
      · rcases List.mem_cons.1 h with h | h
        · exact .inl h
        · exact .inr (List.mem_cons_of_mem _ h)
      · rcases List.mem_cons.1 h with h | h
        · exact .inr (h ▸ List.mem_cons_self)
        · rcases ih h with h | h
          · exact .inl h
          · exact .inr (List.mem_cons_of_mem _ h)

omit [Entity ρ] in
theorem sorted_putEntries (k : Int) (r : ρ) {l : List (Int × ρ)}
    (h : l.Pairwise fun a b => a.1 < b.1) :
    (putEntries k r l).Pairwise fun a b => a.1 < b.1 := by
  induction l with
  | nil => simp [putEntries]
  | cons e rest ih =>
    obtain ⟨he, hrest⟩ := List.pairwise_cons.1 h
    unfold putEntries
    split
    · next hlt =>
      refine List.pairwise_cons.2 ⟨fun x hx => ?_, h⟩
      rcases List.mem_cons.1 hx with rfl | hx
      · exact hlt
      · exact Int.lt_trans hlt (he x hx)
    · split
      · next heq => exact List.pairwise_cons.2 ⟨fun x hx => heq ▸ he x hx, hrest⟩
      · next hge hne =>
        refine List.pairwise_cons.2 ⟨fun x hx => ?_, ih hrest⟩
        rcases mem_putEntries hx with rfl | hx
        · change e.1 < k
          omega
        · exact he x hx

omit [Entity ρ] in
theorem lookup_putEntries (k j : Int) (r : ρ) (l : List (Int × ρ)) :
    (putEntries k r l).lookup j = if j = k then some r else l.lookup j := by
  induction l with
  | nil =>
    by_cases h : j = k
    · simp [putEntries, h]
    · have hb : (j == k) = false := by simpa using h
      simp [putEntries, List.lookup_cons, h, hb]
  | cons e rest ih =>
    obtain ⟨k', s⟩ := e
    unfold putEntries
    by_cases hj : j = k
    · subst hj
      split
      · simp
      · split
        · simp
        · next hne =>
          have hb : (j == k') = false := by simpa using hne
          simp [List.lookup_cons, hb, ih]
    · have hb : (j == k) = false := by simpa using hj
      split
      · simp [List.lookup_cons, hb]
      · split
        · next heq =>
          have hb' : (j == k') = false := by
            change k = k' at heq
            rwa [← heq]
          simp [List.lookup_cons, hb, hb']
        · simp [List.lookup_cons, hj, ih]

/-- The table with a row under its id, instead of the row that was there. -/
def insert (t : Table ρ) (r : ρ) : Table ρ where
  entries := putEntries (Entity.id r) r t.entries
  sorted := sorted_putEntries _ r t.sorted
  keyed e he := by
    rcases mem_putEntries he with rfl | he
    · rfl
    · exact t.keyed e he

/-- The table with rows, the last of each id. -/
def insertAll (t : Table ρ) (rows : List ρ) : Table ρ := rows.foldl insert t

/-- The table without the row under a key. -/
def erase (t : Table ρ) (k : Int) : Table ρ where
  entries := t.entries.filter (·.1 ≠ k)
  sorted := t.sorted.filter _
  keyed e he := t.keyed e (List.mem_filter.mp he).1

/-- After an insertion the row of an id is the new row or the row it was. -/
theorem get?_insert (t : Table ρ) (r : ρ) (id : Int) :
    (t.insert r).get? id = if id = Entity.id r then some r else t.get? id :=
  lookup_putEntries (Entity.id r) id r t.entries

/-- After a removal there is no row of the id, and the other rows are as they were. -/
theorem get?_erase (t : Table ρ) (id j : Int) :
    (t.erase id).get? j = if j = id then none else t.get? j :=
  Assoc.get?_erase ⟨t.entries⟩ id j

end Table

end Cutover
