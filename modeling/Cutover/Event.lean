import Cutover.Side
import Cutover.Json.Record
import Cutover.Json.Printer

/-!
# Messages

Two kinds of messages are exchanged: a report that a row differs between the stores, tagged with the
side it was compared from, and a notice that a row was changed. Both are written as objects with
their fields in a fixed order.
-/

namespace Cutover

/-! ## Reports -/

/-- How a row of the target differs from the base. -/
inductive Mismatch where
  /-- The base has the row, the target has not. -/
  | targetMissing
  /-- The target has a row that the base has not. -/
  | baseMissing
  /-- Both have the row and the two do not agree. -/
  | differs
  deriving DecidableEq, Repr, Inhabited

namespace Mismatch

def name : Mismatch → String
  | targetMissing => "target_missing"
  | baseMissing => "base_missing"
  | differs => "neq"

def all : List Mismatch := [targetMissing, baseMissing, differs]

def ofName? (s : String) : Option Mismatch := all.find? (·.name == s)

theorem ofName?_name (k : Mismatch) : ofName? k.name = some k := by cases k <;> rfl

end Mismatch

/-- A report that a row differs. -/
structure Report where
  id : Int
  /-- The side that was the base of the comparison. -/
  base : Side
  kind : Mismatch
  deriving DecidableEq, Repr, Inhabited

namespace Report

def encode (r : Report) : Bytes :=
  Json.Printer.object
    [("ID", Json.Printer.int r.id), ("Direction", Json.Printer.text r.base.tag),
      ("Type", Json.Printer.text r.kind.name)]

def record : Json.Record Report where
  fields :=
    [.of "ID" true .int64 fun id r => { r with id },
      .of "Direction" true (.choice Side.ofTag?) fun base r => { r with base },
      .of "Type" true (.choice Mismatch.ofName?) fun kind r => { r with kind }]
  blank := ⟨0, .src, .differs⟩

def decode? (bs : Bytes) : Option Report := (Json.Reader.decode record.read bs).toOption

end Report

/-! ## Change notices -/

/-- A notice that a row was changed. -/
structure Change where
  id : Int
  deriving DecidableEq, Repr, Inhabited

namespace Change

def encode (c : Change) : Bytes := Json.Printer.object [("id", Json.Printer.int c.id)]

def record : Json.Record Change where
  fields := [.of "id" true .int64 fun id c => { c with id }]
  blank := ⟨0⟩

def decode? (bs : Bytes) : Option Change := (Json.Reader.decode record.read bs).toOption

end Change

end Cutover
