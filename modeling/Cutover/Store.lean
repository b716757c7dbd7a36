import Cutover.Fault
import Cutover.Table

/-!
# Stores

A store answers calls on rows. A call has two moments: it starts, when it is counted and its delay
is fixed, and it ends, when it is refused or takes effect. Main definitions: `Call`, `Store.start`,
`Store.finish`. Main statement: a call that is refused changes no rows (`Store.contents_finish`).
-/

namespace Cutover

variable {ρ : Type} [Entity ρ]

/-! ## Calls -/

inductive Call (ρ : Type) where
  /-- A page of the rows in order. -/
  | findPage (q : PageQuery)
  /-- The rows with one of some ids. -/
  | findByIds (ids : List Int)
  /-- Which of some ids have a row. -/
  | findIds (ids : List Int)
  | first (id : Int)
  /-- The number of rows, perhaps only of those changed since some time. -/
  | count (since : Option Int)
  /-- Puts a row in, instead of the row with its id. -/
  | upsert (row : ρ)
  /-- Removes the rows with an id and gives their number. -/
  | delete (id : Int)
  deriving DecidableEq, Repr

namespace Call

/-- What a call gives when it is not refused. -/
@[reducible] def Answer : Call ρ → Type
  | findPage _ | findByIds _ => List ρ
  | findIds _ => List Int
  | first _ => ρ
  | count _ | delete _ => Nat
  | upsert _ => Unit

def op : Call ρ → String
  | findPage _ => "find_page"
  | findByIds _ => "find_by_ids"
  | findIds _ => "find_ids"
  | first _ => "first"
  | count _ => "count"
  | upsert _ => "upsert"
  | delete _ => "delete"

end Call

/-! ## Contents -/

/-- The rows of a store: a table, or a plain list that may hold several rows of one id. -/
inductive Contents (ρ : Type) [Entity ρ] where
  | table (t : Table ρ)
  | list (rows : List ρ)

namespace Contents

instance : Inhabited (Contents ρ) := ⟨.table .empty⟩

def rows : Contents ρ → List ρ
  | table t => t.rows
  | list rows => rows

/-- The keys of the rows. In a plain list a row has no key but its id. -/
def keys : Contents ρ → List Int
  | table t => t.keys
  | list rows => rows.map Entity.id

/-- The row under a key. -/
def get? (id : Int) : Contents ρ → Option ρ
  | table t => t.get? id
  | list rows => Rows.first? id rows

/-- Puts a row in instead of the rows with its id: in its place in a table, at the end of a list. -/
def put (r : ρ) : Contents ρ → Contents ρ
  | table t => table (t.insert r)
  | list rows => list (Rows.without (Entity.id r) rows ++ [r])

/-- Puts rows in as they are: a list keeps the rows it has. -/
def add (new : List ρ) : Contents ρ → Contents ρ
  | table t => table (t.insertAll new)
  | list rows => list (rows ++ new)

def remove (id : Int) : Contents ρ → Contents ρ
  | table t => table (t.erase id)
  | list rows => list (Rows.without id rows)

/-- What a call gives and leaves behind. A lookup of rows goes by their ids; a lookup of ids, of one
row or of a row to remove goes by the keys. -/
def run (s : Contents ρ) : (c : Call ρ) → Except Error c.Answer × Contents ρ
  | .findPage q => (.ok (Rows.page q s.rows), s)
  | .findByIds ids => (.ok (Rows.ofIds ids s.rows), s)
  | .findIds ids => (.ok (s.keys.filter ids.contains), s)
  | .first id =>
    match s.get? id with
    | some r => (.ok r, s)
    | none => (.error .notFound, s)
  | .count since => (.ok (Rows.view since s.rows).length, s)
  | .upsert r => (.ok (), s.put r)
  | .delete id => (.ok (s.keys.count id), s.remove id)

theorem keys_eq (s : Contents ρ) : s.keys = s.rows.map Entity.id := by
  cases s with
  | table t => exact t.keys_eq
  | list rows => rfl

theorem get?_eq_first? (s : Contents ρ) (id : Int) : s.get? id = Rows.first? id s.rows := by
  cases s with
  | table t => exact t.get?_eq_first? id
  | list rows => rfl

/-- The keys among some ids are the ids of the rows that a lookup of the same ids finds. -/
theorem filter_keys (s : Contents ρ) (ids : List Int) :
    s.keys.filter ids.contains = (Rows.ofIds ids s.rows).map Entity.id := by
  rw [keys_eq, List.filter_map]
  rfl

end Contents

/-! ## Stores -/

/-- How a call starts: how long it takes, and whether it is already known to be refused. -/
structure Opening where
  delay : Nat := 0
  refused : Option Error := none
  deriving Repr

/-- A store, with the faults planned for it. -/
structure Store (ρ : Type) [Entity ρ] where
  name : String
  contents : Contents ρ
  faults : FaultPlan := {}
  /-- The errors with which the next calls of an operation are refused; an absent error lets a call
  pass. -/
  script : Assoc String (List (Option Error)) := {}
  /-- The calls that have started, the latest first. -/
  log : List (Call ρ) := []

namespace Store

instance : Inhabited (Store ρ) := ⟨{ name := "", contents := default }⟩

/-- A store with a table of rows. -/
def ofTable (name : String) (rows : List ρ) : Store ρ :=
  { name, contents := .table (Table.empty.insertAll rows) }

/-- A store with a plain list of rows. -/
def ofList (name : String) (rows : List ρ) : Store ρ := { name, contents := .list rows }

def rows (s : Store ρ) : List ρ := s.contents.rows

def setScript (s : Store ρ) (op : String) (errors : List (Option Error)) : Store ρ :=
  { s with script := s.script.put op errors }

/-- Puts rows in without a call. -/
def insertAll (s : Store ρ) (rows : List ρ) : Store ρ := { s with contents := s.contents.add rows }

def history (s : Store ρ) : List (Call ρ) := s.log.reverse

def start (s : Store ρ) (c : Call ρ) : Store ρ × Opening :=
  let s' := { s with log := c :: s.log, faults := s.faults.start }
  match s.script.getD c.op [] with
  | [] => (s', ⟨s.faults.latency, none⟩)
  | e :: rest => ({ s' with script := s'.script.put c.op rest }, ⟨s.faults.latency, e⟩)

/-- A call ends that was not refused when it started. -/
def finish (s : Store ρ) (c : Call ρ) : Except Error c.Answer × Store ρ :=
  match s.faults.refusal? c.op with
  | some faults => (.error (FaultPlan.refusal s.name c.op), { s with faults })
  | none =>
    let (answer, contents) := s.contents.run c
    (answer, { s with contents })

@[simp] theorem contents_start (s : Store ρ) (c : Call ρ) :
    (s.start c).1.contents = s.contents := by
  unfold start; dsimp only; split <;> rfl

@[simp] theorem name_start (s : Store ρ) (c : Call ρ) : (s.start c).1.name = s.name := by
  unfold start; dsimp only; split <;> rfl

@[simp] theorem log_start (s : Store ρ) (c : Call ρ) : (s.start c).1.log = c :: s.log := by
  unfold start; dsimp only; split <;> rfl

@[simp] theorem log_finish (s : Store ρ) (c : Call ρ) : (s.finish c).2.log = s.log := by
  unfold finish; split <;> rfl

/-- A refused call changes no rows; any other has the effect of its operation. -/
theorem contents_finish (s : Store ρ) (c : Call ρ) :
    (s.finish c).2.contents =
      if (s.faults.refusal? c.op).isSome then s.contents else (s.contents.run c).2 := by
  unfold finish
  cases s.faults.refusal? c.op <;> rfl

end Store

end Cutover
